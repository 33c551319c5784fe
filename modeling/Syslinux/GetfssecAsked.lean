import Syslinux.GetfssecFailure

/-! The sectors that generic_getfssec asks next_extent for when a file is read from its start,
whatever it is answered. -/
namespace Syslinux.Getfssec

variable {σ : Type}

/- A call of next_extent: the sector, the value returned and what is left in
inode->next_extent. -/
structure Ask where
  lstart : Nat
  rv : Int
  extent : Extent
  deriving DecidableEq, Repr

def logged (fs : Fs σ) : Fs (σ × List Ask) where
  sectorShift := fs.sectorShift
  nextExtent := fun pvt prev lstart =>
    let (rv,e,next) := fs.nextExtent pvt.1 prev lstart
    (rv,e,(next,pvt.2 ++ [⟨lstart,rv,e⟩]))
  disk := fs.disk

def opened (size : Nat) (pvt : σ) : File σ := ⟨0,⟨size,⟨0,0,0⟩,⟨0,0,0⟩,pvt⟩⟩

def readOn (fs : Fs σ) : File σ → List Nat → Option (File σ)
  | file,[] => some file
  | file,n::counts => (genericGetfssec fs file n).bind fun r => readOn fs r.file counts

def Counted (counts : List Nat) : Prop := ∀ n ∈ counts, 0 < n ∧ n < 2^31

/- next_extent is called so in some sequence of reads. -/
def Asked (fs : Fs σ) (size : Nat) (pvt : σ) (ask : Ask) : Prop :=
  ∃ counts file, Counted counts ∧ readOn (logged fs) (opened size (pvt,[])) counts = some file ∧ ask ∈ file.inode.pvt.2

/- The sectors there are to read. Sizes count modulo 2^32. -/
def sectorsOf (fs : Fs σ) (size : Nat) : Nat := add32 (size % 2^32) (fs.sectorSize - 1) / fs.sectorSize

/- What next_extent does to its private data below a sector: while that is `good` for the
place asked it returns an extent and stays good behind it, or else turns and stays `bad`. -/
structure Follows (fs : Fs σ) (total : Nat) (good : Nat → σ → Prop) (bad : σ → Prop) : Prop where
  step : ∀ p pvt prev, good p pvt → p < total → bad (fs.nextExtent pvt prev p).2.2 ∨
    (fs.nextExtent pvt prev p).1 = 0 ∧ 0 < (fs.nextExtent pvt prev p).2.1.len ∧
      p + (fs.nextExtent pvt prev p).2.1.len < 2^32 ∧
      good (p + (fs.nextExtent pvt prev p).2.1.len) (fs.nextExtent pvt prev p).2.2
  keep : ∀ p pvt prev, bad pvt → p < total → bad (fs.nextExtent pvt prev p).2.2

def Extent.end' (e : Extent) : Nat := e.lstart + e.len

inductive Along (good : Nat → σ → Prop) (bad : σ → Prop) (inode : Inode σ) : Prop where
  | turned (is : bad inode.pvt)
  | last (word : inode.thisExtent.end' < 2^32) (is : good inode.thisExtent.end' inode.pvt)
      (next : inode.nextExtent.len = 0 ∨ inode.nextExtent.end' ≤ inode.thisExtent.end')
  | ahead (word : inode.nextExtent.end' < 2^32) (is : good inode.nextExtent.end' inode.pvt)
      (behind : inode.nextExtent.lstart = inode.thisExtent.end') (some' : 0 < inode.nextExtent.len)

section
variable {fs : Fs σ} {total : Nat} {good : Nat → σ → Prop} {bad : σ → Prop} (follows : Follows fs total good bad)
include follows

/- Behind this_extent: an extent, or the turn to bad. -/
theorem fetchedAlong {inode : Inode σ} (along : Along good bad inode) {sectors : Nat}
    (inside : inode.thisExtent.lstart + sectors ≤ total) (word : total < 2^32) (more : inode.thisExtent.len < sectors)
    {inode' : Inode σ} (eq : inode' = if inode.nextExtent.len = 0 ∨
      inode.nextExtent.lstart ≠ add32 inode.thisExtent.lstart inode.thisExtent.len then getNextExtent fs inode else inode) :
    inode'.size = inode.size ∧ inode'.thisExtent = inode.thisExtent ∧ inode'.nextExtent.lstart = inode.thisExtent.end' ∧
    (bad inode'.pvt ∨ 0 < inode'.nextExtent.len ∧ inode'.nextExtent.end' < 2^32 ∧
      good inode'.nextExtent.end' inode'.pvt) := by
  have place : add32 inode.thisExtent.lstart inode.thisExtent.len = inode.thisExtent.end' := add32Eq (by omega)
  have below : inode.thisExtent.end' < total := by
    unfold Extent.end'
    omega
  rw [place] at eq
  by_cases needed : inode.nextExtent.len = 0 ∨ inode.nextExtent.lstart ≠ inode.thisExtent.end'
  · rw [if_pos needed] at eq
    have keep := follows.keep inode.thisExtent.end' inode.pvt inode.nextExtent
    have step := follows.step inode.thisExtent.end' inode.pvt inode.nextExtent
    unfold getNextExtent at eq
    rw [place] at eq
    obtain ⟨⟨rv,e,pvt⟩,returned⟩ :
      ∃ result, fs.nextExtent inode.pvt inode.nextExtent inode.thisExtent.end' = result := ⟨_,rfl⟩
    simp only [returned] at keep step eq
    subst eq
    refine ⟨rfl,rfl,rfl,?_⟩
    cases along with
    | turned is => exact Or.inl (keep is below)
    | last _ is _ =>
      rcases step is below with turn | ⟨ok,some',fits,is⟩
      · exact Or.inl turn
      · refine Or.inr ?_
        simp only [ok,ne_eq,not_true_eq_false,if_false,Extent.end']
        exact ⟨some',fits,is⟩
    | ahead _ _ behind some' =>
      rcases needed with none' | other
      · omega
      · exact absurd behind other
  · rw [if_neg needed] at eq
    obtain ⟨some',at'⟩ := not_or.mp needed
    have at' := not_not.mp at'
    subst eq
    refine ⟨rfl,rfl,at',?_⟩
    cases along with
    | turned is => exact Or.inl is
    | last _ is next =>
      rcases next with none' | before
      · exact absurd none' some'
      · unfold Extent.end' at before at'
        omega
    | ahead word is _ some' => exact Or.inr ⟨some',word,is⟩

theorem lookaheadAlong (fuel : Nat) {sectors count : Nat} {inode inode' : Inode σ} (along : Along good bad inode)
    (inside : inode.thisExtent.lstart + sectors ≤ total) (word : total < 2^32)
    (run : lookahead fs fuel sectors inode = some (count,inode')) :
    Along good bad inode' ∧ inode'.size = inode.size ∧ inode'.thisExtent.lstart = inode.thisExtent.lstart ∧
      (count = sectors ∨ count = 0 ∧ bad inode'.pvt) := by
  induction fuel generalizing inode with
  | zero =>
    rw [lookahead] at run
    split at run
    · cases run
      exact ⟨along,rfl,rfl,Or.inl rfl⟩
    · cases run
  | succ fuel ih =>
    rw [lookahead] at run
    by_cases held : sectors ≤ inode.thisExtent.len
    · rw [if_pos held] at run
      cases run
      exact ⟨along,rfl,rfl,Or.inl rfl⟩
    rw [if_neg held] at run
    simp only at run
    generalize eq : (if inode.nextExtent.len = 0 ∨
      inode.nextExtent.lstart ≠ add32 inode.thisExtent.lstart inode.thisExtent.len then getNextExtent fs inode
      else inode) = inode1 at run
    obtain ⟨bytes,same,behind,after⟩ := fetchedAlong follows along inside word (by omega) eq.symm
    by_cases empty : inode.thisExtent.len = 0
    · rw [if_pos empty] at run
      have start : inode1.nextExtent.lstart = inode.thisExtent.lstart := by
        rw [behind,Extent.end',empty,Nat.add_zero]
      by_cases none' : inode1.nextExtent.len = 0
      · rw [if_pos none'] at run
        cases run
        rcases after with turn | ⟨some',_⟩
        · exact ⟨.turned turn,bytes,start,Or.inr ⟨rfl,turn⟩⟩
        · omega
      · rw [if_neg none'] at run
        have moved : Along good bad { inode1 with thisExtent := inode1.nextExtent } := by
          rcases after with turn | ⟨_,fits,is⟩
          · exact .turned turn
          · exact .last fits is (Or.inr (Nat.le_refl _))
        obtain ⟨along',bytes',at',result⟩ := ih moved (by simp only; omega) run
        exact ⟨along',bytes'.trans bytes,at'.trans start,result⟩
    · rw [if_neg empty] at run
      by_cases joins : inode1.nextExtent.len ≠ 0 ∧ inode1.nextExtent.pstart = nextPstart inode.thisExtent
      · rw [if_pos joins] at run
        have joined : Along good bad { inode1 with thisExtent :=
            { inode.thisExtent with len := add32 inode.thisExtent.len inode1.nextExtent.len } } := by
          rcases after with turn | ⟨_,fits,is⟩
          · exact .turned turn
          · unfold Extent.end' at behind fits is
            rw [behind] at fits is
            rw [add32Eq (by omega)]
            refine .last ?_ ?_ (Or.inr ?_) <;> simp only [Extent.end',behind,← Nat.add_assoc]
            · exact fits
            · exact is
            · exact Nat.le_refl _
        obtain ⟨along',bytes',at',result⟩ := ih joined inside run
        exact ⟨along',bytes'.trans bytes,at',result⟩
      · rw [if_neg joins] at run
        cases run
        refine ⟨?_,bytes,by rw [same],Or.inl rfl⟩
        rcases after with turn | ⟨some',fits,is⟩
        · exact .turned turn
        · exact .ahead fits is (by rw [same]; exact behind) some'

theorem readLoopAlong (fuel : Nat) {sectors : Nat} {buf buf' : List UInt8} {bytesRead bytesRead' : Nat}
    {inode inode' : Inode σ}
    (along : Along good bad inode) (inside : inode.thisExtent.lstart + sectors ≤ total) (word : total < 2^32)
    (counts : bytesRead + sectors*fs.sectorSize < 2^32)
    (run : readLoop fs fuel sectors buf bytesRead inode = some (buf',bytesRead',inode')) :
    Along good bad inode' ∧ inode'.size = inode.size ∧ ∃ k ≤ sectors, bytesRead' = bytesRead + k*fs.sectorSize ∧
      inode'.thisExtent.lstart = inode.thisExtent.lstart + k ∧ (k = sectors ∨ bad inode'.pvt) := by
  induction fuel generalizing sectors buf bytesRead inode with
  | zero =>
    rw [readLoop] at run
    split at run
    · rename_i none'
      cases run
      exact ⟨along,rfl,0,Nat.zero_le _,by simp,rfl,Or.inl none'.symm⟩
    · cases run
  | succ fuel ih =>
    rw [readLoop] at run
    by_cases none' : sectors = 0
    · rw [if_pos none'] at run
      cases run
      exact ⟨along,rfl,0,Nat.zero_le _,by simp,rfl,Or.inl none'.symm⟩
    rw [if_neg none'] at run
    simp only [Option.bind_eq_bind,Option.bind_eq_some_iff,Prod.exists] at run
    obtain ⟨count,inode1,looked,run⟩ := run
    obtain ⟨along1,bytes1,start,result⟩ := lookaheadAlong follows _ along inside word looked
    generalize least : min count inode1.thisExtent.len = chunk at run
    have few : count ≤ sectors := by
      rcases result with h | h <;> omega
    have all : sectors*fs.sectorSize = chunk*fs.sectorSize + (sectors - chunk)*fs.sectorSize := by
      rw [← Nat.add_mul]
      congr 1
      omega
    have fewer : (count - chunk)*fs.sectorSize ≤ (sectors - chunk)*fs.sectorSize := Nat.mul_le_mul_right _ (by omega)
    rw [Nat.mod_eq_of_lt (by omega),add32Eq (by omega : bytesRead + chunk*fs.sectorSize < 2^32),
      add32Eq (by omega : inode1.thisExtent.lstart + chunk < 2^32)] at run
    generalize (if inode1.thisExtent.pstart = extentZero then inode1.thisExtent.pstart
      else (inode1.thisExtent.pstart + chunk) % 2^64) = pstart at run
    have rest : inode1.thisExtent.lstart + chunk + (inode1.thisExtent.len - chunk) = inode1.thisExtent.end' := by
      unfold Extent.end'
      omega
    have behind : Along good bad
        { inode1 with thisExtent := ⟨pstart,inode1.thisExtent.lstart + chunk,inode1.thisExtent.len - chunk⟩ } := by
      cases along1 with
      | turned is => exact .turned is
      | last word is next =>
        refine .last ?_ ?_ ?_ <;> simp only [Extent.end',rest]
        · exact word
        · exact is
        · exact next
      | ahead word is next some' => exact .ahead word is (next.trans rest.symm) some'
    obtain ⟨along2,bytes2,k,le,bytes,place,result'⟩ := ih behind (by simp only; omega) (by omega) run
    refine ⟨along2,bytes2.trans bytes1,chunk + k,by omega,by rw [bytes,Nat.add_mul,← Nat.add_assoc],
      by rw [place,start,Nat.add_assoc],?_⟩
    rcases result with all' | ⟨none'',turn⟩
    · rcases result' with rest' | turn
      · exact Or.inl (by omega)
      · exact Or.inr turn
    · -- after a failure no turn is left
      rw [none'',Nat.zero_sub] at run
      unfold readLoop at run
      rw [if_pos rfl] at run
      cases run
      exact Or.inr turn

end

/- The extents that next_extent returns below a limit end before sector 2^32. -/
def BoundedTo (fs : Fs σ) (limit : Nat) : Prop :=
  ∀ pvt prev lstart, lstart < limit → (fs.nextExtent pvt prev lstart).1 = 0 →
    lstart + (fs.nextExtent pvt prev lstart).2.1.len < 2^32

structure Placed (inode : Inode σ) : Prop where
  this : inode.thisExtent.lstart + inode.thisExtent.len < 2^32
  next : inode.nextExtent.lstart + inode.nextExtent.len < 2^32

section
variable {fs : Fs σ} {limit : Nat} {inode : Inode σ}

theorem seekStart {lsector : Nat} : (seek inode lsector).thisExtent.lstart = lsector := by
  unfold seek
  simp only
  split_ifs <;> rfl

theorem seekKeeps (inode : Inode σ) (lsector : Nat) :
    (seek inode lsector).size = inode.size ∧ (seek inode lsector).pvt = inode.pvt := by
  unfold seek
  simp only
  split_ifs <;> exact ⟨rfl,rfl⟩

theorem getNextPlaced (bounded : BoundedTo fs limit) (placed : Placed inode)
    (inside : inode.thisExtent.lstart + inode.thisExtent.len < limit) :
    Placed (getNextExtent fs inode) ∧ (getNextExtent fs inode).thisExtent = inode.thisExtent ∧
      (getNextExtent fs inode).nextExtent.lstart = inode.thisExtent.lstart + inode.thisExtent.len := by
  have here := placed.this
  unfold getNextExtent
  rw [add32Eq here]
  refine ⟨⟨here,?_⟩,rfl,rfl⟩
  simp only
  split_ifs with error
  · exact here
  · exact bounded _ _ _ inside (not_not.mp error)

theorem lookaheadReturns (bounded : BoundedTo fs limit) (fuel : Nat) {sectors : Nat} (placed : Placed inode)
    (inside : inode.thisExtent.lstart + sectors ≤ limit) (enough : sectors ≤ inode.thisExtent.len + fuel) :
    ∃ count inode', lookahead fs fuel sectors inode = some (count,inode') ∧ Placed inode' ∧
      (count = sectors ∧ (0 < sectors → 0 < inode'.thisExtent.len) ∧ inode'.thisExtent.lstart = inode.thisExtent.lstart ∨
        count = 0) := by
  induction fuel generalizing inode with
  | zero => exact ⟨sectors,inode,by rw [lookahead,if_pos (by omega)],placed,Or.inl ⟨rfl,by omega,rfl⟩⟩
  | succ fuel ih =>
    rw [lookahead]
    by_cases held : sectors ≤ inode.thisExtent.len
    · exact ⟨sectors,inode,by rw [if_pos held],placed,Or.inl ⟨rfl,by omega,rfl⟩⟩
    rw [if_neg held]
    simp only
    generalize eq : (if inode.nextExtent.len = 0 ∨
      inode.nextExtent.lstart ≠ add32 inode.thisExtent.lstart inode.thisExtent.len then getNextExtent fs inode
      else inode) = inode1
    have fetched : Placed inode1 ∧ inode1.thisExtent = inode.thisExtent ∧
        inode1.nextExtent.lstart = inode.thisExtent.lstart + inode.thisExtent.len := by
      rw [← eq]
      by_cases needed : inode.nextExtent.len = 0 ∨
        inode.nextExtent.lstart ≠ add32 inode.thisExtent.lstart inode.thisExtent.len
      · rw [if_pos needed]
        exact getNextPlaced bounded placed (by omega)
      · rw [if_neg needed]
        refine ⟨placed,rfl,?_⟩
        rw [add32Eq placed.this] at needed
        exact not_not.mp (not_or.mp needed).2
    obtain ⟨placed1,same,behind⟩ := fetched
    have next := placed1.next
    by_cases empty : inode.thisExtent.len = 0
    · rw [if_pos empty]
      by_cases none' : inode1.nextExtent.len = 0
      · rw [if_pos none']
        exact ⟨0,_,rfl,⟨next,next⟩,Or.inr rfl⟩
      · rw [if_neg none']
        rw [empty,Nat.add_zero] at behind
        obtain ⟨count,inode2,run,placed2,result⟩ := @ih { inode1 with thisExtent := inode1.nextExtent } ⟨next,next⟩
          (by simp only; omega) (by simp only; omega)
        simp only [behind] at result
        exact ⟨count,inode2,run,placed2,result⟩
    · rw [if_neg empty]
      by_cases joins : inode1.nextExtent.len ≠ 0 ∧ inode1.nextExtent.pstart = nextPstart inode.thisExtent
      · rw [if_pos joins,add32Eq (by omega)]
        obtain ⟨count,inode2,run,placed2,result⟩ := @ih { inode1 with thisExtent :=
            { inode.thisExtent with len := inode.thisExtent.len + inode1.nextExtent.len } } ⟨by simp only; omega,next⟩
          (by simp only; omega) (by simp only; omega)
        exact ⟨count,inode2,run,placed2,result⟩
      · rw [if_neg joins]
        exact ⟨sectors,inode1,rfl,placed1,Or.inl ⟨rfl,fun _ => by rw [same]; omega,by rw [same]⟩⟩

theorem readLoopReturns (bounded : BoundedTo fs limit) (word : limit ≤ 2^32) (fuel sectors : Nat) (buf : List UInt8)
    (bytesRead : Nat) (placed : Placed inode) (inside : inode.thisExtent.lstart + sectors ≤ limit)
    (counts : bytesRead + sectors*fs.sectorSize < 2^32) (enough : sectors ≤ fuel) :
    ∃ k data inode', readLoop fs fuel sectors buf bytesRead inode = some (data,bytesRead + k*fs.sectorSize,inode') ∧
      k ≤ sectors := by
  induction fuel generalizing sectors buf bytesRead inode with
  | zero =>
    obtain rfl : sectors = 0 := by omega
    exact ⟨0,buf,inode,by rw [readLoop]; simp,Nat.le_refl _⟩
  | succ fuel ih =>
    by_cases none' : sectors = 0
    · subst none'
      exact ⟨0,buf,inode,by rw [readLoop]; simp,Nat.le_refl _⟩
    rw [readLoop,if_neg none']
    obtain ⟨count,inode1,looked,placed1,result⟩ := @lookaheadReturns σ fs limit inode bounded (sectors + 1) sectors placed
      inside (by omega)
    simp only [looked,Option.bind_eq_bind,Option.bind_some]
    rcases result with ⟨rfl,progress,start⟩ | rfl
    · have this := placed1.this
      generalize least : min count inode1.thisExtent.len = chunk
      have all : count*fs.sectorSize = chunk*fs.sectorSize + (count - chunk)*fs.sectorSize := by
        rw [← Nat.add_mul]
        congr 1
        omega
      rw [Nat.mod_eq_of_lt (by omega),add32Eq (by omega : bytesRead + chunk*fs.sectorSize < 2^32),
        add32Eq (by omega : inode1.thisExtent.lstart + chunk < 2^32)]
      generalize (if inode1.thisExtent.pstart = extentZero then inode1.thisExtent.pstart
        else (inode1.thisExtent.pstart + chunk) % 2^64) = pstart
      have placed2 : Placed
          { inode1 with thisExtent := ⟨pstart,inode1.thisExtent.lstart + chunk,inode1.thisExtent.len - chunk⟩ } :=
        ⟨by simp only; omega,placed1.next⟩
      obtain ⟨k,data,inode2,run,less⟩ := ih (count - chunk) (buf ++ readSectors fs inode1.thisExtent.pstart chunk)
        (bytesRead + chunk*fs.sectorSize) placed2 (by simp only; omega) (by omega) (by omega)
      refine ⟨chunk + k,data,inode2,?_,by omega⟩
      rw [run,Nat.add_mul,← Nat.add_assoc]
    · -- the failure leaves no sectors
      simp only [Nat.zero_min,Nat.zero_mul,Nat.zero_mod,Nat.sub_zero,add32Eq (show bytesRead + 0 < 2^32 by omega)]
      refine ⟨0,_,_,by unfold readLoop; rw [if_pos rfl,Nat.zero_mul],Nat.zero_le _⟩

end

section
variable {fs : Fs σ} {total : Nat} {good : Nat → σ → Prop} {bad : σ → Prop}

/- At the start of a call this_extent begins where the last call ended. -/
theorem seekAlong {inode : Inode σ} (along : Along good bad inode) {lsector : Nat}
    (here : inode.thisExtent.lstart = lsector ∨ bad inode.pvt) : Along good bad (seek inode lsector) := by
  have pvt := (seekKeeps inode lsector).2
  rcases here with here | turn
  swap
  · exact .turned (by rw [pvt]; exact turn)
  cases along with
  | turned is => exact .turned (by rw [pvt]; exact is)
  | last word is next =>
    by_cases empty : inode.thisExtent.len = 0
    · have notThis : ¬ inode.thisExtent.has lsector := notHasEmpty empty
      have place : inode.thisExtent.end' = lsector := by rw [Extent.end',empty,here,Nat.add_zero]
      have notNext : ¬ inode.nextExtent.has lsector := by
        rcases next with none' | before
        · exact notHasEmpty none'
        · unfold Extent.has Extent.end' at *
          rw [add32Eq (by omega)]
          omega
      simp only [seek,if_neg notThis,if_neg notNext]
      rw [place] at is word next
      refine .last ?_ ?_ ?_ <;> simp only [Extent.end',Nat.add_zero]
      · exact word
      · exact is
      · exact next
    · have has : inode.thisExtent.has lsector := by
        unfold Extent.has Extent.end' at *
        rw [add32Eq word]
        omega
      simp only [seek,if_pos has,here,Nat.sub_self,sub32Eq (Nat.zero_le _),Nat.sub_zero]
      unfold Extent.end' at word is next
      rw [here] at word is next
      exact .last word is next
  | ahead word is behind some' =>
    by_cases empty : inode.thisExtent.len = 0
    · have notThis : ¬ inode.thisExtent.has lsector := notHasEmpty empty
      have place : inode.nextExtent.lstart = lsector := by rw [behind,Extent.end',empty,here,Nat.add_zero]
      have has : inode.nextExtent.has lsector := by
        unfold Extent.has Extent.end' at *
        rw [add32Eq word]
        omega
      simp only [seek,if_neg notThis,if_pos has,place,Nat.sub_self,sub32Eq (Nat.zero_le _),Nat.sub_zero]
      unfold Extent.end' at word is
      rw [place] at word is
      refine .last word is (Or.inr ?_)
      simp only [Extent.end',place]
      exact Nat.le_refl _
    · have has : inode.thisExtent.has lsector := by
        unfold Extent.has Extent.end' at *
        rw [add32Eq (by omega)]
        omega
      simp only [seek,if_pos has,here,Nat.sub_self,sub32Eq (Nat.zero_le _),Nat.sub_zero]
      refine .ahead word is ?_ some'
      rw [behind,Extent.end',here]
      rfl

structure Between (fs : Fs σ) (good : Nat → σ → Prop) (bad : σ → Prop) (size : Nat) (file : File σ) : Prop where
  bytes : file.inode.size = size
  bound : file.offset ≤ size % 2^32
  along : Along good bad file.inode
  place : file.offset = size % 2^32 ∨ file.offset % fs.sectorSize = 0 ∧
    (file.inode.thisExtent.lstart = file.offset / fs.sectorSize ∨ bad file.inode.pvt)

theorem callAlong (follows : Follows fs total good bad) {size : Nat} (total' : sectorsOf fs size = total)
    (fits : size % 2^32 + (fs.sectorSize - 1) < 2^32) {file : File σ} (reading : Between fs good bad size file) {n : Nat}
    {r : Result σ} (run : genericGetfssec fs file n = some r) : Between fs good bad size r.file ∧
      (file.offset = 0 → total ≤ n → r.file.inode.thisExtent.lstart = total ∨ total = 0 ∨ bad r.file.inode.pvt) := by
  have unit := sectorSizePos fs
  have bound := reading.bound
  have word := Nat.mod_lt size (Nat.two_pow_pos 32)
  have left : (file.inode.size + 2^64 - file.offset) % 2^32 = size % 2^32 - file.offset := by
    rw [reading.bytes]
    omega
  rw [genericGetfssec] at run
  simp only [left] at run
  rw [sectorsOf,add32Eq fits] at total'
  rw [add32Eq (show size % 2^32 - file.offset + (fs.sectorSize - 1) < 2^32 by omega)] at run
  generalize count' : (if (size % 2^32 - file.offset + (fs.sectorSize - 1)) / fs.sectorSize < n then
    (size % 2^32 - file.offset + (fs.sectorSize - 1)) / fs.sectorSize else n) = count at run
  by_cases none' : count = 0
  · rw [if_pos none'] at run
    cases run
    refine ⟨reading,fun start enough => ?_⟩
    rw [start,Nat.sub_zero,total'] at count'
    refine Or.inr (Or.inl ?_)
    split at count' <;> omega
  rw [if_neg none'] at run
  simp only [Option.bind_eq_bind,Option.bind_eq_some_iff,Prod.exists] at run
  obtain ⟨buf,bytesRead,inode,loop,run⟩ := run
  cases run
  have whole := Nat.div_add_mod (size % 2^32 - file.offset + (fs.sectorSize - 1)) fs.sectorSize
  have part := Nat.mod_lt (size % 2^32 - file.offset + (fs.sectorSize - 1)) unit
  have more : file.offset < size % 2^32 := by
    by_contra done
    have zero : (size % 2^32 - file.offset + (fs.sectorSize - 1)) / fs.sectorSize = 0 := Nat.div_eq_of_lt (by omega)
    rw [zero] at count'
    split at count' <;> omega
  obtain ⟨aligned,start⟩ := reading.place.resolve_left (by omega)
  have offset : fs.sectorSize*(file.offset / fs.sectorSize) = file.offset := by
    have := Nat.div_add_mod file.offset fs.sectorSize
    omega
  generalize file.offset / fs.sectorSize = lsector at *
  have sectors : lsector + (size % 2^32 - file.offset + (fs.sectorSize - 1)) / fs.sectorSize = total := by
    rw [← total',← Nat.mul_add_div unit,offset]
    congr 1
    omega
  generalize (size % 2^32 - file.offset + (fs.sectorSize - 1)) / fs.sectorSize = rest at *
  have few : count ≤ rest ∧ count ≤ n ∧ (count = rest ∨ count = n) := by
    rw [← count']
    split <;> omega
  have most : fs.sectorSize*count ≤ fs.sectorSize*rest := Nat.mul_le_mul_left _ few.1
  have large : total ≤ fs.sectorSize*total := Nat.le_mul_of_pos_left total unit
  have wholeTotal : fs.sectorSize*total = file.offset + fs.sectorSize*rest := by
    rw [← sectors,Nat.mul_add,offset]
  have along := seekAlong reading.along start
  obtain ⟨along',bytes,k,le,amount,place,result⟩ := readLoopAlong follows count along (by rw [seekStart]; omega) (by omega)
    (by rw [Nat.mul_comm,Nat.zero_add]; omega) loop
  have size' := (seekKeeps file.inode lsector).1
  rw [seekStart] at place
  rw [Nat.zero_add,Nat.mul_comm] at amount
  have read' : fs.sectorSize*k ≤ fs.sectorSize*count := Nat.mul_le_mul_left _ le
  have next : add32 file.offset (min bytesRead (size % 2^32 - file.offset)) =
    file.offset + min bytesRead (size % 2^32 - file.offset) :=
    add32Eq (by omega)
  refine ⟨⟨by rw [bytes,size']; exact reading.bytes,by simp only [next]; omega,along',?_⟩,?_⟩
  · simp only [next]
    by_cases ends : size % 2^32 - file.offset ≤ bytesRead
    · exact Or.inl (by omega)
    · have here : file.offset + min bytesRead (size % 2^32 - file.offset) = fs.sectorSize*(lsector + k) := by
        rw [Nat.mul_add,offset]
        omega
      rw [here,Nat.mul_mod_right,Nat.mul_div_cancel_left _ unit]
      exact Or.inr ⟨rfl,Or.inl place⟩
  · intro first enough
    have zero : lsector = 0 := by
      by_contra some'
      have := Nat.le_mul_of_pos_right fs.sectorSize (Nat.pos_of_ne_zero some')
      omega
    rcases result with all | turn
    · exact Or.inl (by simp only [place]; omega)
    · exact Or.inr (Or.inr turn)

theorem readAlong (follows : Follows fs total good bad) {size : Nat} (total' : sectorsOf fs size = total)
    (fits : size % 2^32 + (fs.sectorSize - 1) < 2^32) {counts : List Nat} {file file' : File σ}
    (reading : Between fs good bad size file) (run : readOn fs file counts = some file') :
      Between fs good bad size file' := by
  induction counts generalizing file with
  | nil =>
    cases run
    exact reading
  | cons n counts ih =>
    rw [readOn,Option.bind_eq_some_iff] at run
    obtain ⟨r,call,run⟩ := run
    exact ih (callAlong follows total' fits reading call).1 run

theorem openedReading {size : Nat} {pvt : σ} (start : good 0 pvt ∨ bad pvt) :
    Between fs good bad size (opened size pvt) := by
  refine ⟨rfl,Nat.zero_le _,?_,Or.inr ⟨Nat.zero_mod _,Or.inl (Nat.zero_div _).symm⟩⟩
  rcases start with is | is
  · exact .last (Nat.two_pow_pos 32) is (Or.inl rfl)
  · exact .turned is

/- One read of the whole file: it ends behind the last sector, or something has turned. -/
theorem wholeRead (follows : Follows fs total good bad) (bounded : BoundedTo fs total) {size : Nat}
    (total' : sectorsOf fs size = total)
    (fits : size % 2^32 + (fs.sectorSize - 1) < 2^32) {pvt : σ} (start : good 0 pvt) (some' : 0 < total) {n : Nat}
    (enough : total ≤ n) :
    ∃ r, genericGetfssec fs (opened size pvt) n = some r ∧ Along good bad r.file.inode ∧
      (r.file.inode.thisExtent.lstart = total ∨ bad r.file.inode.pvt) := by
  have unit := sectorSizePos fs
  have whole := Nat.mul_div_le (size % 2^32 + (fs.sectorSize - 1)) fs.sectorSize
  have large : total ≤ fs.sectorSize*total := Nat.le_mul_of_pos_left total unit
  have left : ((opened size pvt).inode.size + 2^64 - (opened size pvt).offset) % 2^32 = size % 2^32 := by
    simp only [opened]
    omega
  have count : (if total < n then total else n) = total := by
    split <;> omega
  have all : (size % 2^32 + (fs.sectorSize - 1)) / fs.sectorSize = total := by
    rw [← total',sectorsOf,add32Eq fits]
  rw [all] at whole
  have first : seek (opened size pvt).inode ((opened size pvt).offset / fs.sectorSize) =
      { (opened size pvt).inode with thisExtent := ⟨0,0,0⟩ } := by
    rw [seekEmpty rfl rfl]
    simp only [opened,Nat.zero_div]
  obtain ⟨k,data,inode,loop,_⟩ := @readLoopReturns σ fs total { (opened size pvt).inode with thisExtent := ⟨0,0,0⟩ } bounded
    (by omega) total total [] 0 ⟨Nat.two_pow_pos 32,Nat.two_pow_pos 32⟩ (by simp)
    (by rw [Nat.mul_comm,Nat.zero_add]; omega) (Nat.le_refl _)
  have call : ∃ r, genericGetfssec fs (opened size pvt) n = some r := by
    rw [genericGetfssec]
    simp only [left,add32Eq fits,all,count,first,loop]
    rw [if_neg (by omega)]
    exact ⟨_,rfl⟩
  obtain ⟨r,call⟩ := call
  obtain ⟨reading,result⟩ := callAlong follows total' fits (openedReading (Or.inl start)) call
  refine ⟨r,call,reading.along,?_⟩
  rcases result rfl enough with place | none' | turn
  · exact Or.inl place
  · omega
  · exact Or.inr turn

/- A size whose rounding wraps: nothing is read. -/
theorem readNothing {size : Nat} {pvt : σ} (wide : fs.sectorShift < 32) (wraps : 2^32 ≤ size % 2^32 + (fs.sectorSize - 1))
    {counts : List Nat} (counted : Counted counts) : readOn fs (opened size pvt) counts = some (opened size pvt) := by
  induction counts with
  | nil => rfl
  | cons n counts ih =>
    have left : ((opened size pvt).inode.size + 2^64 - (opened size pvt).offset) % 2^32 = size % 2^32 := by
      simp only [opened]
      omega
    rw [readOn,firstCallEmpty _ (counted n List.mem_cons_self).1 left wide (Or.inr wraps)]
    exact ih fun m mem => counted m (List.mem_cons_of_mem _ mem)

end

theorem readKeeps {fs : Fs σ} {size : Nat} {pvt : σ} {bad : σ → Prop} (wide : fs.sectorShift < 32)
    (keep : ∀ p pvt prev, bad pvt → p < sectorsOf fs size → bad (fs.nextExtent pvt prev p).2.2) (start : bad pvt)
    {counts : List Nat} {file : File σ} (counted : Counted counts) (run : readOn fs (opened size pvt) counts = some file) :
    bad file.inode.pvt := by
  have follows : Follows fs (sectorsOf fs size) (fun _ _ => False) bad := ⟨fun _ _ _ is => is.elim,keep⟩
  by_cases fits : size % 2^32 + (fs.sectorSize - 1) < 2^32
  · cases (readAlong follows rfl fits (openedReading (Or.inr start)) run).along with
    | turned is => exact is
    | last _ is _ => exact is.elim
    | ahead _ is _ _ => exact is.elim
  · rw [readNothing wide (Nat.le_of_not_lt fits) counted] at run
    cases run
    exact start

theorem askedAll {fs : Fs σ} {size : Nat} {pvt : σ} (wide : fs.sectorShift < 32) {kept : σ → Prop} {answer : Ask → Prop}
    (step : ∀ p pvt prev, kept pvt → p < sectorsOf fs size → kept (fs.nextExtent pvt prev p).2.2 ∧
      answer ⟨p,(fs.nextExtent pvt prev p).1,(fs.nextExtent pvt prev p).2.1⟩) (start : kept pvt) {ask : Ask}
    (asked : Asked fs size pvt ask) : answer ask := by
  obtain ⟨counts,file,counted,run,mem⟩ := asked
  have all := @readKeeps _ (logged fs) size (pvt,[]) (fun pvt => kept pvt.1 ∧ ∀ ask ∈ pvt.2, answer ask) wide ?_
    ⟨start,fun _ none' => absurd none' List.not_mem_nil⟩ _ _ counted run
  · exact all.2 ask mem
  rintro p ⟨pvt,log⟩ prev ⟨is,all⟩ inside
  obtain ⟨next,last⟩ := step p pvt prev is inside
  refine ⟨next,fun ask mem => ?_⟩
  rcases List.mem_append.mp mem with earlier | here
  · exact all ask earlier
  · cases List.mem_singleton.mp here
    exact last

/- No sectors are left when the rounding of the size wraps. -/
theorem sectorsFit {fs : Fs σ} {size : Nat} (some' : 0 < sectorsOf fs size) : size % 2^32 + (fs.sectorSize - 1) < 2^32 := by
  by_contra wraps
  have word := Nat.mod_lt size (Nat.two_pow_pos 32)
  have unit := sectorSizePos fs
  rw [sectorsOf,add32,Nat.mod_eq_sub_mod (by omega)] at some'
  have small := Nat.mod_le (size % 2^32 + (fs.sectorSize - 1) - 2^32) (2^32)
  rw [Nat.div_eq_of_lt (by omega)] at some'
  omega

theorem sectorsBelow {fs : Fs σ} {size lstart : Nat} (inside : lstart < sectorsOf fs size) :
    lstart*fs.sectorSize < size % 2^32 := by
  have unit := sectorSizePos fs
  have fits : size % 2^32 + (fs.sectorSize - 1) < 2^32 := sectorsFit (by omega)
  rw [sectorsOf,add32,Nat.mod_eq_of_lt fits] at inside
  have whole := Nat.mul_le_of_le_div _ _ _ (Nat.succ_le_of_lt inside)
  rw [Nat.succ_mul] at whole
  omega

end Syslinux.Getfssec
