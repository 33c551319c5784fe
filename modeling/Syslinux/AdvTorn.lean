import Syslinux.AdvWriters

/-! The two copies of the ADV on the disk: how libinstaller writes them, and what it makes of them when
the write was interrupted. -/
namespace Syslinux.Adv.Libinstaller

def syslinuxResetAdv (advbuf : List UInt8) : List UInt8 := cleanupAdv (copyTo advbuf (2*4) (List.replicate advLen 0))

def advConsistent (p : List UInt8) : Prop :=
  get32 p 0 = advMagic1 ∧ get32 p (advSize - 4) = advMagic3 ∧
    (List.range ((advSize - 8) / 4)).foldl (fun csum k => add32 csum (get32 p (4 + 4*k))) 0 = advMagic2
instance (p : List UInt8) : Decidable (advConsistent p) := by unfold advConsistent; infer_instance

def syslinuxValidateAdv (advbuf : List UInt8) : Int × List UInt8 :=
  if advConsistent advbuf then (0,copyTo advbuf advSize (advbuf.take advSize))
  else if advConsistent (advbuf.drop advSize) then (0,copyTo advbuf 0 ((advbuf.drop advSize).take advSize))
  else (-1,syslinuxResetAdv advbuf)

/- What syslinux_setadv and syslinux_reset_adv leave in the buffer that write_adv writes. -/
inductive Written : List UInt8 → Prop where
  | set {turns : Nat} {adv adv' : List UInt8} {tag : Int32} {size : Nat} {data : Nat → UInt8} (whole : adv.length = 2*advSize)
      (ok : syslinuxSetadv turns adv tag size data = some (.ok (),adv')) : Written adv'
  | reset {adv : List UInt8} (whole : adv.length = 2*advSize) : Written (syslinuxResetAdv adv)

/- The file as xpwrite leaves it when it is interrupted: pwrite writes some bytes of what bufp has left,
from the first on, or fails with EINTR and is called again. -/
inductive Xpwrite (file' : List UInt8) : List UInt8 → Nat → List UInt8 → Prop where
  | stopped {offset : Nat} {bufp : List UInt8} : Xpwrite file' file' offset bufp
  | eintr {file : List UInt8} {offset : Nat} {bufp : List UInt8} (again : Xpwrite file' file offset bufp) : Xpwrite file' file offset bufp
  | wrote {file : List UInt8} {offset rv : Nat} {bufp : List UInt8} (some' : rv ≤ bufp.length)
      (rest : Xpwrite file' (copyTo file offset (bufp.take rv)) (offset + rv) (bufp.drop rv)) : Xpwrite file' file offset bufp

def torn (old new : List UInt8) (k : Nat) : List UInt8 := new.take k ++ old.drop k

section
variable {adv bytes file old new done bufp p : List UInt8} {i j k n : Nat}

theorem get32Here (adv : List UInt8) (i : Nat) : get32 adv i = get32 ((adv.drop i).take 4) 0 := by
  have byte (m : Nat) (small : m < 4) : ((adv.drop i).take 4).getD m 0 = adv.getD (i + m) 0 := by
    rw [List.getD_eq_getElem?_getD,List.getD_eq_getElem?_getD,List.getElem?_take_of_lt small,List.getElem?_drop]
  simp only [get32,Nat.zero_add,byte 0 (by decide),byte 1 (by decide),byte 2 (by decide),byte 3 (by decide),Nat.add_zero]

theorem get32Take (inside : i + 4 ≤ n) : get32 (adv.take n) i = get32 adv i := by
  rw [get32Here,get32Here adv,List.drop_take,List.take_take,Nat.min_eq_left (by omega)]

theorem set32Apart (room : i + 4 ≤ adv.length) (apart : j + 4 ≤ i ∨ i + 4 ≤ j) : get32 (set32 adv i n) j = get32 adv j := by
  rw [get32Here,get32Here adv,set32]
  rcases apart with before | behind
  · rw [copyToBefore (by omega) before]
  · rw [copyToBehind room behind]

theorem copyToHere (room : i ≤ adv.length) : ((copyTo adv i bytes).drop i).take bytes.length = bytes := by
  have front : (adv.take i).length = i := by simp [room]
  rw [copyTo,List.append_assoc,List.drop_append,front,Nat.sub_self,List.drop_eq_nil_of_le (by omega),List.nil_append,List.drop_zero,List.take_left]

theorem get32Set32 (room : i ≤ adv.length) (small : n < 2^32) : get32 (set32 adv i n) i = n := by
  have bytes := @copyToHere adv [UInt8.ofNat n,UInt8.ofNat (n / 2^8),UInt8.ofNat (n / 2^16),UInt8.ofNat (n / 2^24)] i room
  rw [get32Here,set32,show 4 = [UInt8.ofNat n,UInt8.ofNat (n / 2^8),UInt8.ofNat (n / 2^16),UInt8.ofNat (n / 2^24)].length from rfl,bytes]
  simp only [get32,List.getD_cons_zero,List.getD_cons_succ,Nat.zero_add,UInt8.toNat_ofNat']
  omega

theorem set32Length (room : i + 4 ≤ adv.length) : (set32 adv i n).length = adv.length := copyToLength room

theorem addFold (word : Nat → Nat) (ks : List Nat) (csum : Nat) (low : csum < 2^32) :
    ks.foldl (fun csum k => add32 csum (word k)) csum = (csum + (ks.map word).sum) % 2^32 := by
  induction ks generalizing csum with
  | nil => exact (Nat.mod_eq_of_lt low).symm
  | cons k ks ih =>
    have below : add32 csum (word k) < 2^32 := Nat.mod_lt _ (by decide)
    rw [List.foldl_cons,ih _ below,List.map_cons,List.sum_cons]
    unfold add32
    omega

theorem subFold (word : Nat → Nat) (small : ∀ k, word k < 2^32) (ks : List Nat) (csum : Nat) (low : csum < 2^32) :
    ks.foldl (fun csum k => sub32 csum (word k)) csum < 2^32 ∧
      (ks.foldl (fun csum k => sub32 csum (word k)) csum + (ks.map word).sum) % 2^32 = csum := by
  induction ks generalizing csum with
  | nil => exact ⟨low,Nat.mod_eq_of_lt low⟩
  | cons k ks ih =>
    have step : sub32 csum (word k) < 2^32 ∧ (sub32 csum (word k) + word k) % 2^32 = csum := by
      have := small k
      unfold sub32
      split <;> omega
    obtain ⟨below,sum⟩ := ih _ step.1
    rw [List.foldl_cons,List.map_cons,List.sum_cons]
    exact ⟨below,by omega⟩

theorem get32Small (adv : List UInt8) (i : Nat) : get32 adv i < 2^32 := by
  have byte (b : UInt8) : b.toNat < 2^8 := b.toNat_lt
  have := byte (adv.getD i 0)
  have := byte (adv.getD (i + 1) 0)
  have := byte (adv.getD (i + 2) 0)
  have := byte (adv.getD (i + 3) 0)
  unfold get32
  omega

theorem consistentTake : advConsistent (p.take advSize) ↔ advConsistent p := by
  have sum : (List.range ((advSize - 8) / 4)).foldl (fun csum k => add32 csum (get32 (p.take advSize) (4 + 4*k))) 0 =
      (List.range ((advSize - 8) / 4)).foldl (fun csum k => add32 csum (get32 p (4 + 4*k))) 0 := by
    refine List.foldl_ext _ _ _ fun csum k mem => ?_
    have := List.mem_range.mp mem
    rw [get32Take (by unfold advSize at *; omega)]
  unfold advConsistent
  rw [sum,get32Take (by decide),get32Take (by decide)]

/- cleanup_adv makes the first copy consistent, and the second one like it. -/
theorem cleanupLaid (whole : adv.length = 2*advSize) :
    ∃ copy, copy.length = advSize ∧ advConsistent copy ∧ cleanupAdv adv = copy ++ copy := by
  unfold advSize at whole
  generalize headed : set32 adv 0 advMagic1 = adv₁
  have length₁ : adv₁.length = 1024 := headed ▸ (set32Length (by omega)).trans whole
  generalize summed : set32 adv₁ 4 (checksum adv₁) = adv₂
  have length₂ : adv₂.length = 1024 := summed ▸ (set32Length (by omega)).trans length₁
  generalize tailed : set32 adv₂ (advSize - 4) advMagic3 = adv₃
  have length₃ : adv₃.length = 1024 := tailed ▸ (set32Length (by unfold advSize; omega)).trans length₂
  obtain ⟨low,cancels⟩ := subFold (fun k => get32 adv₁ (8 + 4*k)) (fun k => get32Small _ _) (List.range ((advSize - 12) / 4)) advMagic2 (by decide)
  have word (k : Nat) (small : k < 125) : get32 adv₃ (8 + 4*k) = get32 adv₁ (8 + 4*k) := by
    rw [← tailed,set32Apart (by unfold advSize; omega) (by unfold advSize; omega),← summed,set32Apart (by omega) (by omega)]
  have consistent : advConsistent adv₃ := by
    refine ⟨?_,?_,?_⟩
    · rw [← tailed,set32Apart (by unfold advSize; omega) (by decide),← summed,set32Apart (by omega) (by decide),← headed]
      exact get32Set32 (by omega) (by decide)
    · rw [← tailed]
      exact get32Set32 (by unfold advSize; omega) (by decide)
    · have first : get32 adv₃ (4 + 4*0) = checksum adv₁ := by
        rw [← tailed,set32Apart (by unfold advSize; omega) (by decide),← summed]
        exact get32Set32 (by omega) low
      have words : (List.range 125).map (fun k => get32 adv₃ (4 + 4*(k + 1))) = (List.range 125).map (fun k => get32 adv₁ (8 + 4*k)) :=
        List.map_congr_left fun k mem => word k (List.mem_range.mp mem) ▸ congrArg _ (by omega)
      rw [addFold _ _ _ (by decide),show (advSize - 8) / 4 = 125 + 1 from rfl,List.range_succ_eq_map,List.map_cons,List.map_map,
        List.sum_cons,first,Nat.zero_add]
      exact (congrArg (fun sums => (checksum adv₁ + List.sum sums) % 2^32) words).trans cancels
  refine ⟨adv₃.take advSize,by simp [advSize,length₃],consistentTake.2 consistent,?_⟩
  have clean : cleanupAdv adv = copyTo adv₃ advSize (adv₃.take advSize) := by
    rw [← tailed,← summed,← headed]
    rfl
  have size : (adv₃.take advSize).length = 512 := by simp [advSize,length₃]
  rw [clean,copyTo,List.drop_eq_nil_of_le (by rw [size,length₃]; decide),List.append_nil]

theorem writtenLaid (written : Written adv) : ∃ copy, copy.length = advSize ∧ advConsistent copy ∧ adv = copy ++ copy := by
  cases written with
  | @set turns adv _ tag size data whole ok =>
    unfold syslinuxSetadv at ok
    split at ok
    · cases ok
    split at ok
    · cases ok
    simp only [Option.bind_eq_bind,Option.bind_eq_some_iff] at ok
    obtain ⟨⟨before,here⟩,walked,put⟩ := ok
    cases item : putItem before here tag size data with
    | error e =>
      rw [item] at put
      cases put
    | ok advtmp =>
      rw [item] at put
      have area : advtmp.length = advLen := by
        obtain ⟨kept,_,grown,sum⟩ := walkReads walked
        rw [putItemLength item,grown,List.nil_append,Nat.add_comm,sum]
        exact dataAreaLength whole
      obtain ⟨copy,size,consistent,laid⟩ := @cleanupLaid (copyTo adv (2*4) advtmp)
        ((copyToLength (by rw [area,whole]; decide)).trans whole)
      cases put
      exact ⟨copy,size,consistent,laid⟩
  | @reset adv whole =>
    exact cleanupLaid ((copyToLength (by rw [List.length_replicate,whole]; decide)).trans whole)

theorem xpwriteTorn {disk : List UInt8} (run : Xpwrite disk (torn file (done ++ bufp) done.length) done.length bufp) :
    ∃ k, disk = torn file (done ++ bufp) k := by
  generalize start : torn file (done ++ bufp) done.length = begun at run
  generalize place : done.length = offset at run
  induction run generalizing done with
  | stopped => exact ⟨_,start.symm⟩
  | eintr _ ih => exact ih start place
  | @wrote begun offset rv bufp some' rest ih =>
    have join : (done ++ bufp.take rv) ++ bufp.drop rv = done ++ bufp := by rw [List.append_assoc,List.take_append_drop]
    have length : (done ++ bufp.take rv).length = offset + rv := by simp [place,some']
    obtain ⟨k,reached⟩ := @ih (done ++ bufp.take rv) (by
      rw [← start,join,length,torn,torn,copyTo,place,← place,List.take_left,List.take_left,List.drop_length_add_append,
        List.drop_drop,List.length_take,Nat.min_eq_left some',List.take_length_add_append]) length
    exact ⟨k,join ▸ reached⟩

theorem tornXpwrite (inside : k ≤ new.length) : Xpwrite (torn old new k) old 0 new := by
  refine .wrote inside ?_
  have first : copyTo old 0 (new.take k) = torn old new k := by
    rw [copyTo,torn,List.take_zero,List.nil_append,Nat.zero_add,List.length_take,Nat.min_eq_left inside]
  rw [first]
  exact .stopped

theorem tornWhole (least : advSize ≤ k) (long : advSize ≤ new.length) : (torn old new k).take advSize = new.take advSize := by
  have inside : advSize ≤ (new.take k).length := by
    rw [List.length_take]
    omega
  rw [torn,List.take_append_of_le_length inside,List.take_take,Nat.min_eq_left least]

theorem tornCopies {o n : List UInt8} (oldSize : o.length = advSize) (newSize : n.length = advSize) (k : Nat) :
    (torn (o ++ o) (n ++ n) k).take advSize = n ∨ (torn (o ++ o) (n ++ n) k).drop advSize = o := by
  rcases Nat.lt_or_ge k advSize with less | least
  · refine Or.inr ?_
    have front : ((n ++ n).take k).length = k := by simp [newSize]; omega
    rw [torn,List.drop_append,front,List.drop_eq_nil_of_le (by omega),List.nil_append,List.drop_drop,Nat.add_sub_cancel' (by omega),
      ← oldSize,List.drop_left]
  · refine Or.inl ?_
    rw [tornWhole least (by simp [newSize]),← newSize,List.take_left]

theorem tornLength {o n : List UInt8} (same : o.length = n.length) (k : Nat) : (torn o n k).length = n.length := by
  simp only [torn,List.length_append,List.length_take,List.length_drop]
  omega

theorem validateAdvTorn {disk : List UInt8} (writtenOld : Written old) (writtenNew : Written new) (write : Xpwrite disk old 0 new)
    (chance : advConsistent (disk.take advSize) → disk.take advSize = old.take advSize ∨ disk.take advSize = new.take advSize) :
    (syslinuxValidateAdv disk).1 = 0 ∧ ((syslinuxValidateAdv disk).2 = old ∨ (syslinuxValidateAdv disk).2 = new) := by
  obtain ⟨o,oldSize,oldConsistent,rfl⟩ := writtenLaid writtenOld
  obtain ⟨n,newSize,newConsistent,rfl⟩ := writtenLaid writtenNew
  obtain ⟨k,rfl⟩ := @xpwriteTorn (o ++ o) [] (n ++ n) disk write
  have length := @tornLength (o ++ o) (n ++ n) (by simp [oldSize,newSize]) k
  rw [List.nil_append] at *
  have copies := tornCopies oldSize newSize k
  generalize torn (o ++ o) (n ++ n) k = disk at *
  rw [← oldSize,List.take_left,oldSize,← newSize,List.take_left,newSize] at chance
  have front : (disk.take advSize).length = advSize := by simp [length,newSize]
  -- The first copy is taken when it is consistent, which it is when it is whole.
  by_cases first : advConsistent disk
  · have taken : (syslinuxValidateAdv disk) = (0,disk.take advSize ++ disk.take advSize) := by
      rw [syslinuxValidateAdv,if_pos first,copyTo,front,List.drop_eq_nil_of_le (by simp [length,newSize]),List.append_nil]
    rw [taken]
    rcases chance (consistentTake.2 first) with same | same
    · exact ⟨rfl,Or.inl (by rw [same])⟩
    · exact ⟨rfl,Or.inr (by rw [same])⟩
  · have second : disk.drop advSize = o := by
      rcases copies with whole | untouched
      · exact absurd (consistentTake.1 (whole ▸ newConsistent)) first
      · exact untouched
    have whole : o.take advSize = o := List.take_of_length_le (Nat.le_of_eq oldSize)
    have taken : (syslinuxValidateAdv disk) = (0,o ++ o) := by
      rw [syslinuxValidateAdv,if_neg first,second,if_pos oldConsistent,whole,copyTo,List.take_zero,List.nil_append,Nat.zero_add,oldSize,second]
    rw [taken]
    exact ⟨rfl,Or.inl rfl⟩

/- A new item over an empty ADV, cut off in the second copy. -/
def zeroed : List UInt8 := syslinuxResetAdv (List.replicate 1024 0)
def itemSet : List UInt8 := ((syslinuxSetadv 1 zeroed 1 2 fun _ => 7).getD (.ok (),[])).2

set_option maxRecDepth 8000 in
theorem validateAdvTornItem : (syslinuxValidateAdv (torn zeroed itemSet 600)).1 = 0 ∧
    ((syslinuxValidateAdv (torn zeroed itemSet 600)).2 = zeroed ∨ (syslinuxValidateAdv (torn zeroed itemSet 600)).2 = itemSet) := by
  have okay : (syslinuxSetadv 1 zeroed 1 2 fun _ => 7).any (·.1.toBool) = true := by decide
  have ok : syslinuxSetadv 1 zeroed 1 2 (fun _ => 7) = some (.ok (),itemSet) := by
    unfold itemSet
    revert okay
    generalize syslinuxSetadv 1 zeroed 1 2 (fun _ => 7) = outcome
    rintro okay
    rcases outcome with _ | ⟨_ | _,adv⟩
    · cases okay
    · cases okay
    · rfl
  refine validateAdvTorn (.reset (by decide)) (.set (by decide) ok) (tornXpwrite (by decide)) ?_
  exact fun _ => Or.inr (tornWhole (by decide) (by decide))

end
end Syslinux.Adv.Libinstaller
