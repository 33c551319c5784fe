import Syslinux.GetfssecRead

/-! Reading a file whose next_extent fails from some sector on: generic_getfssec returns
what lies in front of it, and leaves the inode as the failure did. -/
namespace Syslinux.Getfssec

variable {σ : Type}

/- next_extent finds extents as long as its private data is `fine`. The first failure is at
some sector, and the next ones from there on change nothing. -/
structure FailsAfter (fs : Fs σ) (total : Nat) (fine : σ → Prop) (failed : Nat → σ → Prop) : Prop where
  first : ∀ pvt prev lstart, fine pvt → lstart < total →
    (∃ e pvt', fs.nextExtent pvt prev lstart = (0,e,pvt') ∧ 0 < e.len ∧ lstart + e.len < 2^32 ∧ fine pvt') ∨
    ∃ rv e pvt', fs.nextExtent pvt prev lstart = (rv,e,pvt') ∧ rv ≠ 0 ∧ failed lstart pvt'
  later : ∀ pvt prev lstart, failed lstart pvt →
    ∃ rv e pvt', fs.nextExtent pvt prev lstart = (rv,e,pvt') ∧ rv ≠ 0 ∧ failed lstart pvt'

/- An inode between two turns: behind this_extent there may be more, or next_extent has
failed there. -/
structure Reaches (fine : σ → Prop) (failed : Nat → σ → Prop) (inode : Inode σ) : Prop where
  this : inode.thisExtent.lstart + inode.thisExtent.len < 2^32
  pvt : fine inode.pvt ∧ (inode.nextExtent.len = 0 ∨ inode.nextExtent.lstart + inode.nextExtent.len < 2^32) ∨
    failed (inode.thisExtent.lstart + inode.thisExtent.len) inode.pvt ∧ inode.nextExtent.len = 0

section
variable {fs : Fs σ} {total : Nat} {fine : σ → Prop} {failed : Nat → σ → Prop} (fails : FailsAfter fs total fine failed)
include fails

theorem fetched {inode : Inode σ} (here : Reaches fine failed inode)
    (inside : inode.thisExtent.lstart + inode.thisExtent.len < total) {inode' : Inode σ}
    (eq : inode' = if inode.nextExtent.len = 0 ∨
      inode.nextExtent.lstart ≠ add32 inode.thisExtent.lstart inode.thisExtent.len then getNextExtent fs inode else inode) :
    inode'.thisExtent = inode.thisExtent ∧
    ((fine inode'.pvt ∧ 0 < inode'.nextExtent.len ∧
        inode'.nextExtent.lstart = inode.thisExtent.lstart + inode.thisExtent.len ∧
        inode'.nextExtent.lstart + inode'.nextExtent.len < 2^32) ∨
      (failed (inode.thisExtent.lstart + inode.thisExtent.len) inode'.pvt ∧ inode'.nextExtent.len = 0 ∧
        inode'.nextExtent.lstart = inode.thisExtent.lstart + inode.thisExtent.len)) := by
  rw [add32Eq here.this] at eq
  by_cases needed : inode.nextExtent.len = 0 ∨ inode.nextExtent.lstart ≠ inode.thisExtent.lstart + inode.thisExtent.len
  · rw [if_pos needed] at eq
    unfold getNextExtent at eq
    rw [add32Eq here.this] at eq
    have call : (∃ e pvt, fs.nextExtent inode.pvt inode.nextExtent (inode.thisExtent.lstart + inode.thisExtent.len) = (0,e,pvt) ∧
          0 < e.len ∧ inode.thisExtent.lstart + inode.thisExtent.len + e.len < 2^32 ∧ fine pvt) ∨
        ∃ rv e pvt, fs.nextExtent inode.pvt inode.nextExtent (inode.thisExtent.lstart + inode.thisExtent.len) = (rv,e,pvt) ∧
          rv ≠ 0 ∧ failed (inode.thisExtent.lstart + inode.thisExtent.len) pvt := by
      rcases here.pvt with ⟨ok,_⟩ | ⟨bad,_⟩
      · exact fails.first _ _ _ ok inside
      · exact Or.inr (fails.later _ _ _ bad)
    rcases call with ⟨e,pvt,returned,some',fits,ok⟩ | ⟨rv,e,pvt,returned,error,bad⟩
    · simp only [returned,ne_eq,not_true_eq_false,if_false] at eq
      subst eq
      exact ⟨rfl,Or.inl ⟨ok,some',rfl,fits⟩⟩
    · simp only [returned,if_pos error] at eq
      subst eq
      exact ⟨rfl,Or.inr ⟨bad,rfl,rfl⟩⟩
  · rw [if_neg needed] at eq
    subst eq
    obtain ⟨some',at'⟩ := not_or.mp needed
    have at' := not_not.mp at'
    rcases here.pvt with ⟨ok,none' | fits⟩ | ⟨_,none'⟩
    · exact absurd none' some'
    · exact ⟨rfl,Or.inl ⟨ok,by omega,at',fits⟩⟩
    · exact absurd none' some'

/- The lookahead comes to an extent, or fails at the sector wanted. -/
theorem lookaheadReaches (fuel : Nat) {sectors : Nat} {inode : Inode σ} (here : Reaches fine failed inode)
    (some' : 0 < sectors) (inside : inode.thisExtent.lstart + sectors ≤ total)
    (enough : sectors ≤ inode.thisExtent.len + fuel) :
    ∃ count inode', lookahead fs fuel sectors inode = some (count,inode') ∧
      ((count = sectors ∧ Reaches fine failed inode' ∧ inode'.thisExtent.lstart = inode.thisExtent.lstart ∧
          0 < inode'.thisExtent.len) ∨
        (count = 0 ∧ inode'.thisExtent.len = 0 ∧ failed inode.thisExtent.lstart inode'.pvt)) := by
  induction fuel generalizing inode with
  | zero => exact ⟨sectors,inode,by rw [lookahead,if_pos (by omega)],Or.inl ⟨rfl,here,rfl,by omega⟩⟩
  | succ fuel ih =>
    rw [lookahead]
    by_cases held : sectors ≤ inode.thisExtent.len
    · exact ⟨sectors,inode,by rw [if_pos held],Or.inl ⟨rfl,here,rfl,by omega⟩⟩
    · rw [if_neg held]
      simp only
      generalize eq : (if inode.nextExtent.len = 0 ∨
        inode.nextExtent.lstart ≠ add32 inode.thisExtent.lstart inode.thisExtent.len then getNextExtent fs inode
        else inode) = inode1
      obtain ⟨same,after⟩ := fetched fails here (by omega) eq.symm
      by_cases empty : inode.thisExtent.len = 0
      · rw [if_pos empty]
        rw [empty,Nat.add_zero] at after
        rcases after with ⟨ok,more,at',fits⟩ | ⟨bad,none',_⟩
        · rw [if_neg (by omega)]
          have moved : Reaches fine failed { inode1 with thisExtent := inode1.nextExtent } := ⟨fits,Or.inl ⟨ok,Or.inr fits⟩⟩
          obtain ⟨count,inode2,run,result⟩ := ih moved (by simp only; omega) (by simp only; omega)
          simp only [at'] at result
          exact ⟨count,inode2,run,result⟩
        · rw [if_pos none']
          exact ⟨0,_,rfl,Or.inr ⟨rfl,none',bad⟩⟩
      · rw [if_neg empty]
        by_cases joins : inode1.nextExtent.len ≠ 0 ∧ inode1.nextExtent.pstart = nextPstart inode.thisExtent
        · rw [if_pos joins]
          rcases after with ⟨ok,more,at',fits⟩ | ⟨_,none',_⟩
          · rw [add32Eq (by omega)]
            have joined : Reaches fine failed { inode1 with thisExtent :=
                { inode.thisExtent with len := inode.thisExtent.len + inode1.nextExtent.len } } :=
              ⟨by simp only; omega,Or.inl ⟨ok,Or.inr fits⟩⟩
            obtain ⟨count,inode2,run,result⟩ := ih joined inside (by simp only; omega)
            exact ⟨count,inode2,run,result⟩
          · exact absurd none' joins.1
        · rw [if_neg joins]
          refine ⟨sectors,inode1,rfl,Or.inl ⟨rfl,⟨by rw [same]; exact here.this,?_⟩,by rw [same],by rw [same]; omega⟩⟩
          rw [same]
          rcases after with ⟨ok,_,_,fits⟩ | ⟨bad,none',_⟩
          · exact Or.inl ⟨ok,Or.inr fits⟩
          · exact Or.inr ⟨bad,none'⟩

/- The whole loop reads all sectors, or those in front of the failure. -/
theorem readLoopReaches (fuel sectors : Nat) (buf : List UInt8) (bytesRead : Nat) {inode : Inode σ}
    (here : Reaches fine failed inode) (inside : inode.thisExtent.lstart + sectors ≤ total) (word : total < 2^32)
    (counts : bytesRead + sectors*fs.sectorSize < 2^32) (enough : sectors ≤ fuel) :
    ∃ k data inode', readLoop fs fuel sectors buf bytesRead inode = some (buf ++ data,bytesRead + k*fs.sectorSize,inode') ∧
      data.length = k*fs.sectorSize ∧ k ≤ sectors ∧ (k = sectors ∨ failed (inode.thisExtent.lstart + k) inode'.pvt) := by
  induction fuel generalizing sectors buf bytesRead inode with
  | zero =>
    obtain rfl : sectors = 0 := by omega
    exact ⟨0,[],inode,by rw [readLoop]; simp,by simp,Nat.le_refl _,Or.inl rfl⟩
  | succ fuel ih =>
    by_cases none' : sectors = 0
    · subst none'
      exact ⟨0,[],inode,by rw [readLoop]; simp,by simp,Nat.le_refl _,Or.inl rfl⟩
    · rw [readLoop,if_neg none']
      obtain ⟨count,inode1,looked,result⟩ := lookaheadReaches fails (sectors + 1) here (by omega) inside (by omega)
      simp only [looked,Option.bind_eq_bind,Option.bind_some]
      rcases result with ⟨rfl,reaches,lstart,more⟩ | ⟨rfl,empty,bad⟩
      · generalize least : min count inode1.thisExtent.len = chunk
        have this := reaches.this
        have all : count*fs.sectorSize = chunk*fs.sectorSize + (count - chunk)*fs.sectorSize := by
          rw [← Nat.add_mul]
          congr 1
          omega
        rw [Nat.mod_eq_of_lt (by omega),add32Eq (by omega : bytesRead + chunk*fs.sectorSize < 2^32),
          add32Eq (by omega : inode1.thisExtent.lstart + chunk < 2^32)]
        generalize (if inode1.thisExtent.pstart = extentZero then inode1.thisExtent.pstart
          else (inode1.thisExtent.pstart + chunk) % 2^64) = pstart
        have rest : inode1.thisExtent.lstart + chunk + (inode1.thisExtent.len - chunk) =
            inode1.thisExtent.lstart + inode1.thisExtent.len := by omega
        have behind : Reaches fine failed
            { inode1 with thisExtent := ⟨pstart,inode1.thisExtent.lstart + chunk,inode1.thisExtent.len - chunk⟩ } :=
          ⟨by simp only; omega,by simp only [rest]; exact reaches.pvt⟩
        obtain ⟨k,data,inode2,run,length,le,result⟩ := ih (count - chunk) (buf ++ readSectors fs inode1.thisExtent.pstart chunk)
          (bytesRead + chunk*fs.sectorSize) behind (by simp only; omega) (by omega) (by omega)
        have first : (readSectors fs inode1.thisExtent.pstart chunk).length = chunk*fs.sectorSize := by simp [readSectors]
        refine ⟨chunk + k,readSectors fs inode1.thisExtent.pstart chunk ++ data,inode2,?_,?_,by omega,?_⟩
        · rw [run,List.append_assoc,Nat.add_mul,← Nat.add_assoc]
        · rw [List.length_append,first,length,Nat.add_mul]
        · rcases result with all' | bad
          · exact Or.inl (by omega)
          · refine Or.inr ?_
            simp only [lstart] at bad
            rwa [← Nat.add_assoc]
      · refine ⟨0,[],?_⟩
        simp only [Nat.zero_min,Nat.zero_mul,Nat.zero_mod,Nat.sub_zero,readSectors,read,List.range_zero,List.map_nil,
          List.append_nil,Nat.add_zero,add32Eq (show bytesRead + 0 < 2^32 by omega)]
        refine ⟨_,by unfold readLoop; rw [if_pos rfl],rfl,Nat.zero_le _,Or.inr ?_⟩
        exact bad

omit fails in
theorem seekEmpty {inode : Inode σ} (this : inode.thisExtent.len = 0) (next : inode.nextExtent.len = 0) (lsector : Nat) :
    seek inode lsector = { inode with thisExtent := ⟨inode.nextExtent.pstart,lsector,0⟩ } := by
  have notThis : ¬inode.thisExtent.has lsector := notHasEmpty this
  have notNext : ¬inode.nextExtent.has lsector := notHasEmpty next
  simp only [seek,if_neg notThis,if_neg notNext]

/- The first call on a file, for at least all its sectors: `k` of them are read. -/
theorem firstCallReaches {file : File σ} (start : file.offset = 0) (this : file.inode.thisExtent.len = 0)
    (next : file.inode.nextExtent.len = 0) (ok : fine file.inode.pvt) {size sectors : Nat} (bytes : file.inode.size = size)
    (some' : 0 < size) (fits : size + (fs.sectorSize - 1) < 2^32)
    (all : (size + (fs.sectorSize - 1)) / fs.sectorSize = total) (enough : total ≤ sectors) :
    ∃ k data inode, genericGetfssec fs file sectors = some ⟨data,min (k*fs.sectorSize) size,
        some (min (k*fs.sectorSize) size < size),⟨min (k*fs.sectorSize) size,inode⟩⟩ ∧
      data.length = k*fs.sectorSize ∧ (size ≤ k*fs.sectorSize ∨ k*fs.sectorSize < size ∧ failed k inode.pvt) := by
  have unit := sectorSizePos fs
  have whole := Nat.div_add_mod (size + (fs.sectorSize - 1)) fs.sectorSize
  have rest := Nat.mod_lt (size + (fs.sectorSize - 1)) unit
  rw [all,Nat.mul_comm] at whole
  have positive : 0 < total := by
    by_contra none'
    rw [Nat.eq_zero_of_not_pos none'] at whole
    omega
  have few := Nat.le_mul_of_pos_right total unit
  have first : Reaches fine failed { file.inode with thisExtent := ⟨file.inode.nextExtent.pstart,0,0⟩ } :=
    ⟨by simp,Or.inl ⟨ok,Or.inl next⟩⟩
  obtain ⟨k,data,inode,run,length,le,result⟩ :=
    readLoopReaches fails total total [] 0 first (by simp) (by omega) (by omega) (Nat.le_refl _)
  have most := Nat.mul_le_mul_right fs.sectorSize le
  refine ⟨k,data,inode,?_,length,?_⟩
  · have left : (file.inode.size + 2^64 - file.offset) % 2^32 = size := by omega
    have count : (if total < sectors then total else sectors) = total := by
      split <;> omega
    rw [genericGetfssec]
    simp only [left,add32Eq fits,all,count]
    rw [if_neg (by omega),start,Nat.zero_div,seekEmpty this next,run]
    simp only [Option.bind_eq_bind,Option.bind_some,Nat.zero_add,List.nil_append]
    rw [add32Eq (by omega),Nat.zero_add]
  · rcases result with rfl | bad
    · exact Or.inl (by omega)
    · rw [Nat.zero_add] at bad
      by_cases read : size ≤ k*fs.sectorSize
      · exact Or.inl read
      · exact Or.inr ⟨by omega,bad⟩

end
end Syslinux.Getfssec
