import Syslinux.AdvMap

/-! The two writers of the vector side by side. libinstaller's counts the bytes behind a
deleted item as still to be read, so that it goes on over what the shift left behind. -/
namespace Syslinux.Adv
open Libinstaller

def Agree (adv : List UInt8) (tag : Int32) (size : Nat) (data : Nat → UInt8) : Prop :=
  ∃ turns status adv', Libinstaller.syslinuxSetadv turns adv tag size data = some (status,adv') ∧
    (status = .ok () ↔ (Com32.syslinuxSetadv (dataArea adv) tag size data).1 = .ok ()) ∧
    (status = .ok () → dataArea adv' = (Com32.syslinuxSetadv (dataArea adv) tag size data).2)

/- What follows the items when those of the tag have been shifted out one by one, each
over the whole rest of the working copy: the bytes of the last places stay there. -/
def leftBehind (tag : Int32) : List Item → List UInt8 → List UInt8
  | [],here => here
  | i::items,here =>
    if (i.tag.toNat : Int) = tag.toInt then
      if here.length ≤ i.encode.length then here
      else leftBehind tag items (memmove here i.encode.length (here.length - i.encode.length))
    else leftBehind tag items (here.drop i.encode.length)

/- Reading goes on over these bytes, and ends having kept `kept` of them as items of
other tags. -/
inductive ReadsOn (tag : Int32) : List UInt8 → List UInt8 → Prop where
  | short {here : List UInt8} (few : here.length < 2) : ReadsOn tag here []
  | ended (len : UInt8) (rest : List UInt8) : ReadsOn tag (advEnd::len::rest) []
  | last {ptag len : UInt8} {rest : List UInt8} (nonzero : ptag ≠ advEnd) (own : (ptag.toNat : Int) = tag.toInt)
      (all : rest.length ≤ len.toNat) : ReadsOn tag (ptag::len::rest) []
  | overrun {ptag len : UInt8} {rest : List UInt8} (nonzero : ptag ≠ advEnd) (other : (ptag.toNat : Int) ≠ tag.toInt)
      (long : rest.length < len.toNat) : ReadsOn tag (ptag::len::rest) []
  | deleted {ptag len : UInt8} {rest kept : List UInt8} (nonzero : ptag ≠ advEnd)
      (own : (ptag.toNat : Int) = tag.toInt) (more : len.toNat < rest.length)
      (later : ReadsOn tag (memmove (ptag::len::rest) (len.toNat + 2) (rest.length - len.toNat)) kept) :
      ReadsOn tag (ptag::len::rest) kept
  | kept {ptag len : UInt8} {rest kept : List UInt8} (nonzero : ptag ≠ advEnd)
      (other : (ptag.toNat : Int) ≠ tag.toInt) (whole : len.toNat ≤ rest.length)
      (later : ReadsOn tag (rest.drop len.toNat) kept) :
      ReadsOn tag (ptag::len::rest) (ptag::len::(rest.take len.toNat ++ kept))

def NoRoom (area : List UInt8) (tag : Int32) (size : Nat) : Prop :=
  size ≠ 0 ∧ area.length < (encode (without (items area) tag)).length + (size + 2)

/- The arguments are refused, or reading on keeps nothing; where there is no room for the
item in any case, it is enough that it ends. -/
def Undisturbed (area : List UInt8) (tag : Int32) (size : Nat) : Prop :=
  impossibleTag tag ∨ 255 < size ∨
    ∃ kept, ReadsOn tag (leftBehind tag (items area) area) kept ∧ (kept = [] ∨ NoRoom area tag size)

theorem memmoveLength {here : List UInt8} {plen n : Nat} (room : plen + n ≤ here.length) :
    (memmove here plen n).length = here.length := by
  simp only [memmove,List.length_append,List.length_take,List.length_drop]
  omega

theorem readsOnHead {tag : Int32} {here kept : List UInt8} (reads : ReadsOn tag here kept) :
    kept = [] ∨ ∃ b rest, kept = b::rest ∧ b ≠ advEnd ∧ (b.toNat : Int) ≠ tag.toInt := by
  induction reads with
  | short few => exact Or.inl rfl
  | ended len rest => exact Or.inl rfl
  | last nonzero own all => exact Or.inl rfl
  | overrun nonzero other long => exact Or.inl rfl
  | deleted nonzero own more later ih => exact ih
  | kept nonzero other whole later ih => exact Or.inr ⟨_,_,rfl,nonzero,other⟩

section
variable {tag : Int32} {before here : List UInt8}

theorem walkCons (turns : Nat) (ptag len : UInt8) (rest : List UInt8) :
    walk tag (turns + 1) before (ptag::len::rest) =
      if ptag = advEnd then some (before,ptag::len::rest)
      else if (ptag.toNat : Int) = tag.toInt then
        if rest.length ≤ len.toNat then some (before,ptag::len::rest)
        else walk tag turns before (memmove (ptag::len::rest) (len.toNat + 2) (rest.length - len.toNat))
      else if rest.length < len.toNat then some (before,ptag::len::rest)
      else walk tag turns (before ++ ptag::len::rest.take len.toNat) (rest.drop len.toNat) := by
  simp only [walk,List.length_cons,Nat.add_le_add_iff_right,Nat.add_lt_add_iff_right,Nat.add_sub_add_right,
    List.take_succ_cons,List.drop_succ_cons]

theorem walkShort (turns : Nat) (few : here.length < 2) : walk tag (turns + 1) before here = some (before,here) := by
  match here with
  | [] => rfl
  | [b] => rfl
  | _::_::_ => simp at few

theorem walkReads {turns : Nat} {before' here' : List UInt8} (ok : walk tag turns before here = some (before',here')) :
    ∃ kept, ReadsOn tag here kept ∧ before' = before ++ kept ∧ here'.length + kept.length = here.length := by
  induction turns generalizing before here with
  | zero => simp [walk] at ok
  | succ turns ih =>
    match here with
    | [] =>
      rw [walkShort turns (by simp)] at ok
      cases ok
      exact ⟨[],.short (by simp),by simp,rfl⟩
    | [b] =>
      rw [walkShort turns (by simp)] at ok
      cases ok
      exact ⟨[],.short (by simp),by simp,rfl⟩
    | ptag::len::rest =>
      rw [walkCons] at ok
      split at ok
      · rename_i ended
        cases ok
        exact ⟨[],by rw [ended]; exact .ended len rest,by simp,by simp⟩
      · rename_i nonzero
        split at ok
        · rename_i own
          split at ok
          · rename_i all
            cases ok
            exact ⟨[],.last nonzero own all,by simp,by simp⟩
          · rename_i more
            obtain ⟨kept,reads,grown,sum⟩ := ih ok
            refine ⟨kept,.deleted nonzero own (by omega) reads,grown,?_⟩
            rw [sum,memmoveLength (by simp; omega)]
        · rename_i other
          split at ok
          · rename_i long
            cases ok
            exact ⟨[],.overrun nonzero other long,by simp,by simp⟩
          · rename_i whole
            obtain ⟨kept,reads,grown,sum⟩ := ih ok
            refine ⟨_,.kept nonzero other (by omega) reads,by rw [grown]; simp,?_⟩
            simp only [List.length_drop,List.length_cons,List.length_append,List.length_take] at sum ⊢
            omega

theorem readsWalk {kept : List UInt8} (reads : ReadsOn tag here kept) (before : List UInt8) :
    ∃ turns here', walk tag (turns + 1) before here = some (before ++ kept,here') := by
  induction reads generalizing before with
  | @short here few => exact ⟨0,here,by rw [walkShort 0 few,List.append_nil]⟩
  | ended len rest => exact ⟨0,_,by rw [walkCons,if_pos rfl,List.append_nil]⟩
  | last nonzero own all => exact ⟨0,_,by rw [walkCons,if_neg nonzero,if_pos own,if_pos all,List.append_nil]⟩
  | overrun nonzero other long =>
    exact ⟨0,_,by rw [walkCons,if_neg nonzero,if_neg other,if_pos long,List.append_nil]⟩
  | deleted nonzero own more later ih =>
    obtain ⟨turns,here',ok⟩ := ih before
    exact ⟨turns + 1,here',by rw [walkCons,if_neg nonzero,if_pos own,if_neg (by omega),ok]⟩
  | @kept ptag len rest kept nonzero other whole later ih =>
    obtain ⟨turns,here',ok⟩ := ih (before ++ ptag::len::rest.take len.toNat)
    refine ⟨turns + 1,here',?_⟩
    rw [walkCons,if_neg nonzero,if_neg other,if_neg (by omega),ok]
    simp

/- Over the items both writers do the same; what differs is what they then have in front
of them. -/
theorem walkItems (tag : Int32) {rest items tail} (scanned : Scanned rest items tail) (turns : Nat) (before junk : List UInt8) :
    walk tag (items.length + (turns + 1)) before (rest ++ junk) =
      walk tag (turns + 1) (before ++ encode (without items tag)) (leftBehind tag items (rest ++ junk)) := by
  induction scanned generalizing before junk with
  | stop stops => simp [without,encode,leftBehind]
  | @item rest tail items i valid later ih =>
    have length := itemLength valid
    have bytes : i.encode ++ rest ++ junk = i.tag::UInt8.ofNat i.data.length::(i.data ++ (rest ++ junk)) := by
      simp [Item.encode]
    have dropped : (i.encode ++ rest ++ junk).drop i.encode.length = rest ++ junk := by
      rw [List.append_assoc,List.drop_left]
    have count : (i::items).length + (turns + 1) = items.length + (turns + 1) + 1 := by simp; omega
    have room : (i.data ++ (rest ++ junk)).length = i.data.length + (rest ++ junk).length := List.length_append
    have whole : (i.encode ++ rest ++ junk).length = i.encode.length + (rest ++ junk).length := by simp
    rw [count,leftBehind]
    by_cases own : (i.tag.toNat : Int) = tag.toInt
    · have kept : without (i::items) tag = without items tag := by simp [without,own]
      rw [if_pos own,kept]
      by_cases last : (rest ++ junk).length = 0
      · obtain ⟨rfl,rfl⟩ := List.append_eq_nil_iff.mp (List.eq_nil_of_length_eq_zero last)
        have none' : items = [] := by
          cases later
          rfl
        subst none'
        rw [if_pos (by omega),bytes]
        have stops : ∀ n before, walk tag (n + 1) before (i.tag::UInt8.ofNat i.data.length::(i.data ++ ([] ++ []))) =
            some (before,i.tag::UInt8.ofNat i.data.length::(i.data ++ ([] ++ []))) := by
          intro n before
          rw [walkCons,if_neg valid.tag,if_pos own,length,if_pos (by simp)]
        rw [stops,stops]
        simp [without,encode]
      · rw [if_neg (by omega)]
        have shifted : memmove (i.encode ++ rest ++ junk) i.encode.length
            ((i.encode ++ rest ++ junk).length - i.encode.length) =
              rest ++ (junk ++ (i.encode ++ rest ++ junk).drop (rest ++ junk).length) := by
          rw [memmove,dropped,whole,Nat.add_sub_cancel_left,List.take_length,List.append_assoc]
        rw [shifted,← ih,bytes,walkCons,if_neg valid.tag,if_pos own,length,if_neg (by omega)]
        rw [bytes] at shifted
        rw [← shifted]
        simp [encodeLength]
    · have kept : encode (without (i::items) tag) = i.encode ++ encode (without items tag) := by
        simp [without,own,encode]
      rw [if_neg own,dropped,kept,← List.append_assoc,← ih,bytes,walkCons,if_neg valid.tag,if_neg own,length,
        if_neg (by omega),List.take_left,List.drop_left]
      rfl

end

section
variable {adv bytes : List UInt8} {i j n : Nat}

theorem copyToLength (room : i + bytes.length ≤ adv.length) : (copyTo adv i bytes).length = adv.length := by
  simp only [copyTo,List.length_append,List.length_take,List.length_drop]
  omega

theorem copyToBehind (room : i + bytes.length ≤ adv.length) (behind : i + bytes.length ≤ j) :
    (copyTo adv i bytes).drop j = adv.drop j := by
  have front : (adv.take i ++ bytes).length = i + bytes.length := by simp; omega
  rw [copyTo,List.drop_append,List.drop_eq_nil_of_le (by omega),List.nil_append,front,List.drop_drop]
  congr 1
  omega

theorem copyToBefore (room : i ≤ adv.length) (before : j + n ≤ i) :
    ((copyTo adv i bytes).drop j).take n = (adv.drop j).take n := by
  have front : (adv.take i).length = i := by simp; omega
  rw [copyTo,List.append_assoc,List.drop_append_of_le_length (by omega),List.take_append_of_le_length (by simp; omega),
    List.drop_take,List.take_take,Nat.min_eq_left (by omega)]

theorem dataAreaCleanup (whole : adv.length = 2*advSize) : dataArea (cleanupAdv adv) = dataArea adv := by
  unfold advSize at whole
  have one : (set32 adv 0 advMagic1).length = 1024 := (copyToLength (by simp [whole])).trans whole
  generalize two : set32 (set32 adv 0 advMagic1) 4 (checksum (set32 adv 0 advMagic1)) = adv2
  have length2 : adv2.length = 1024 := by
    rw [← two]
    exact (copyToLength (by simp [one])).trans one
  have same : adv2.drop 8 = adv.drop 8 := by
    rw [← two,set32,copyToBehind (by simp [one]) (by simp),set32,copyToBehind (by simp [whole]) (by simp)]
  have length3 : (set32 adv2 (512 - 4) advMagic3).length = 1024 := (copyToLength (by simp [length2])).trans length2
  simp only [dataArea,cleanupAdv,advLen,advSize,two]
  rw [copyToBefore (by omega) (by omega),set32,copyToBefore (by omega) (by omega),same]

theorem dataAreaCopy (whole : adv.length = 2*advSize) (size : bytes.length = advLen) :
    dataArea (copyTo adv (2*4) bytes) = bytes := by
  unfold advSize at whole
  have front : (adv.take (2*4)).length = 2*4 := by simp; omega
  rw [dataArea,copyTo,List.append_assoc,List.drop_append,front,List.drop_eq_nil_of_le (by omega),List.nil_append,
    Nat.sub_self,List.drop_zero,← size,List.take_left]

theorem dataAreaLength (whole : adv.length = 2*advSize) : (dataArea adv).length = advLen := by
  unfold advSize at whole
  simp [dataArea,advLen,advSize,whole]

end

theorem putItemLength {before here bytes : List UInt8} {tag : Int32} {size : Nat} {data : Nat → UInt8}
    (ok : putItem before here tag size data = .ok bytes) : bytes.length = before.length + here.length := by
  unfold putItem at ok
  split at ok
  · split at ok
    · contradiction
    · cases ok
      simp only [List.length_append,List.length_cons,readLength,List.length_replicate]
      omega
  · cases ok
    simp

theorem putItemFails {before here : List UInt8} {tag : Int32} {size : Nat} {data : Nat → UInt8} :
    (∃ e, putItem before here tag size data = .error e) ↔ size ≠ 0 ∧ here.length < size + 2 := by
  unfold putItem
  split
  · rename_i some'
    split
    · rename_i short
      exact ⟨fun _ => ⟨some',short⟩,fun _ => ⟨_,rfl⟩⟩
    · rename_i room
      simp [room]
  · rename_i none'
    simp [none']

theorem putItemDiffers {before kept here here' : List UInt8} {tag : Int32} {size : Nat} {data : Nat → UInt8} {b : UInt8}
    (nonzero : b ≠ advEnd) (other : (b.toNat : Int) ≠ tag.toInt) (possible : ¬ impossibleTag tag)
    (same : here.length = (b::kept).length + here'.length) {bytes bytes' : List UInt8}
    (ok : putItem before here tag size data = .ok bytes)
    (ok' : putItem (before ++ b::kept) here' tag size data = .ok bytes') : bytes' ≠ bytes := by
  intro equal
  have own := (tagByte possible).1
  unfold putItem at ok ok'
  split at ok
  · rename_i some'
    rw [if_pos some'] at ok'
    split at ok
    · contradiction
    · split at ok'
      · contradiction
      · cases ok
        cases ok'
        rw [List.append_assoc] at equal
        have first := (List.cons.inj (List.append_cancel_left equal)).1
        exact other (first ▸ own)
  · rename_i none'
    rw [if_neg none'] at ok'
    cases ok
    cases ok'
    rw [List.append_assoc] at equal
    have rest := List.append_cancel_left equal
    rw [same,List.length_cons,Nat.add_right_comm,List.replicate_succ] at rest
    exact nonzero (List.cons.inj rest).1

theorem walkLonger {tag : Int32} {before here : List UInt8} {turns : Nat} {place : List UInt8 × List UInt8} (more : Nat)
    (ok : walk tag turns before here = some place) : walk tag (turns + more) before here = some place := by
  induction turns generalizing before here with
  | zero => simp [walk] at ok
  | succ turns ih =>
    rw [Nat.add_right_comm]
    match here with
    | [] => rwa [walkShort _ (by simp)] at ok ⊢
    | [b] => rwa [walkShort _ (by simp)] at ok ⊢
    | ptag::len::rest =>
      rw [walkCons] at ok ⊢
      by_cases ended : ptag = advEnd
      · rwa [if_pos ended] at ok ⊢
      · rw [if_neg ended] at ok ⊢
        by_cases own : (ptag.toNat : Int) = tag.toInt
        · rw [if_pos own] at ok ⊢
          by_cases all : rest.length ≤ len.toNat
          · rwa [if_pos all] at ok ⊢
          · rw [if_neg all] at ok ⊢
            exact ih ok
        · rw [if_neg own] at ok ⊢
          by_cases long : rest.length < len.toNat
          · rwa [if_pos long] at ok ⊢
          · rw [if_neg long] at ok ⊢
            exact ih ok

section
variable {area : List UInt8} {tag : Int32}

theorem walkArea {turns : Nat} {before' here' : List UInt8} (ok : walk tag turns [] area = some (before',here')) :
    ∃ kept, ReadsOn tag (leftBehind tag (items area) area) kept ∧ before' = encode (without (items area) tag) ++ kept ∧
      here'.length + before'.length = area.length := by
  obtain ⟨tail,scanned⟩ := scannedItems area
  obtain ⟨all,_,grown,sum⟩ := walkReads ok
  have longer := walkLonger ((items area).length + 1) ok
  have split := walkItems tag scanned turns [] []
  rw [List.append_nil,List.nil_append] at split
  rw [show turns + ((items area).length + 1) = (items area).length + (turns + 1) by omega,split] at longer
  obtain ⟨kept,reads,grown',_⟩ := walkReads longer
  refine ⟨kept,reads,grown',?_⟩
  rw [grown,List.nil_append]
  exact sum

theorem areaWalks {kept : List UInt8} (reads : ReadsOn tag (leftBehind tag (items area) area) kept) :
    ∃ turns here', walk tag turns [] area = some (encode (without (items area) tag) ++ kept,here') := by
  obtain ⟨tail,scanned⟩ := scannedItems area
  obtain ⟨turns,here',ok⟩ := readsWalk reads (encode (without (items area) tag))
  refine ⟨(items area).length + (turns + 1),here',?_⟩
  have split := walkItems tag scanned turns [] []
  rw [List.append_nil,List.nil_append] at split
  exact split.trans ok

end

/- Once both loops have ended: libinstaller's with `kept` behind the items. -/
theorem outcomesAgree {adv here here' kept before : List UInt8} {tag : Int32} (size : Nat) (data : Nat → UInt8)
    (whole : adv.length = 2*advSize) (possible : ¬ impossibleTag tag)
    (reads : kept = [] ∨ ∃ b rest, kept = b::rest ∧ b ≠ advEnd ∧ (b.toNat : Int) ≠ tag.toInt)
    (sum : here.length + before.length = advLen) (sum' : here'.length + (before ++ kept).length = advLen) :
    let lib := commit adv (putItem (before ++ kept) here' tag size data)
    let com := Com32.commit (dataArea adv) (putItem before here tag size data)
    ((lib.1 = .ok () ↔ com.1 = .ok ()) ∧ (lib.1 = .ok () → dataArea lib.2 = com.2)) ↔
      (kept = [] ∨ size ≠ 0 ∧ here.length < size + 2) := by
  rw [List.length_append] at sum'
  cases comPut : putItem before here tag size data with
  | error e =>
    have short := putItemFails.1 ⟨e,comPut⟩
    have short' : size ≠ 0 ∧ here'.length < size + 2 := ⟨short.1,by omega⟩
    obtain ⟨e',libPut⟩ : ∃ e', putItem (before ++ kept) here' tag size data = .error e' := putItemFails.2 short'
    rw [libPut]
    simp [commit,Com32.commit,short]
  | ok bytes =>
    have room : ¬ (size ≠ 0 ∧ here.length < size + 2) := by
      intro short
      obtain ⟨e,fails⟩ := putItemFails.2 short
      rw [comPut] at fails
      contradiction
    rcases reads with rfl | ⟨b,rest,rfl,nonzero,other⟩
    · have same : here'.length = here.length := by simp at sum'; omega
      have libPut : putItem (before ++ []) here' tag size data = .ok bytes := by
        rw [List.append_nil,← comPut,putItem,putItem,same]
      have area : dataArea (cleanupAdv (copyTo adv (2*4) bytes)) = bytes := by
        have size := putItemLength comPut
        have copied := dataAreaCopy whole (show bytes.length = advLen by omega)
        rw [dataAreaCleanup ((copyToLength (by unfold advLen advSize at *; omega)).trans whole),copied]
      rw [libPut]
      simp only [commit,Com32.commit,area]
      simp
    · refine ⟨?_,fun h => absurd h (by simpa using room)⟩
      rintro ⟨status,areas⟩
      cases libPut : putItem (before ++ b::rest) here' tag size data with
      | error e => simp [libPut,commit,Com32.commit] at status
      | ok bytes' =>
        have size := putItemLength libPut
        rw [List.length_append] at size
        have copied := dataAreaCopy whole (show bytes'.length = advLen by omega)
        have room : 2*4 + bytes'.length ≤ adv.length := by unfold advLen advSize at *; omega
        rw [libPut] at areas
        have equal := areas rfl
        simp only [commit,Com32.commit] at equal
        rw [dataAreaCleanup ((copyToLength room).trans whole),copied] at equal
        exact absurd equal (putItemDiffers nonzero other possible (by omega) comPut libPut)

theorem advWritersAgree {adv : List UInt8} (whole : adv.length = 2*advSize) (tag : Int32) (size : Nat)
    (data : Nat → UInt8) : Agree adv tag size data ↔ Undisturbed (dataArea adv) tag size := by
  unfold Agree Undisturbed
  by_cases possible : impossibleTag tag
  · refine ⟨fun _ => Or.inl possible,fun _ => ⟨0,.error .einval,adv,by rw [syslinuxSetadv,if_pos possible],?_⟩⟩
    simp [Com32.syslinuxSetadv,possible]
  by_cases large : 255 < size
  · refine ⟨fun _ => Or.inr (Or.inl large),
      fun _ => ⟨0,.error .enospc,adv,by rw [syslinuxSetadv,if_neg possible,if_pos large],?_⟩⟩
    simp [Com32.syslinuxSetadv,possible,large]
  obtain ⟨tail,scanned⟩ := scannedItems (dataArea adv)
  obtain ⟨here,walked,sum⟩ := com32WalkSpec scanned tag [] []
  simp only [List.append_nil,List.nil_append,dataAreaLength whole] at walked sum
  have com : Com32.syslinuxSetadv (dataArea adv) tag size data =
      Com32.commit (dataArea adv) (putItem (encode (without (items (dataArea adv)) tag)) here tag size data) := by
    rw [Com32.syslinuxSetadv,if_neg possible,if_neg large,dataAreaLength whole,walked]
  have noRoom : NoRoom (dataArea adv) tag size ↔ size ≠ 0 ∧ here.length < size + 2 := by
    rw [NoRoom,dataAreaLength whole]
    omega
  rw [com]
  constructor
  · rintro ⟨turns,status,adv',ran,same⟩
    refine Or.inr (Or.inr ?_)
    rw [syslinuxSetadv,if_neg possible,if_neg large] at ran
    obtain ⟨⟨before',here'⟩,libWalked,ran⟩ := Option.bind_eq_some_iff.mp ran
    obtain ⟨kept,reads,rfl,sum'⟩ := walkArea libWalked
    rw [dataAreaLength whole] at sum'
    have outcome := Option.some.inj ran
    have agree := outcomesAgree size data whole possible (readsOnHead reads) sum sum'
    rw [outcome] at agree
    exact ⟨kept,reads,(agree.1 same).imp_right noRoom.mpr⟩
  · rintro (refused | refused | ⟨kept,reads,harmless⟩)
    · exact absurd refused possible
    · exact absurd refused large
    · obtain ⟨turns,here',libWalked⟩ := areaWalks reads
      obtain ⟨_,_,_,sum'⟩ := walkArea libWalked
      rw [dataAreaLength whole] at sum'
      have agree := outcomesAgree size data whole possible (readsOnHead reads) sum sum'
      refine ⟨turns,_,_,?_,agree.2 (harmless.imp_right noRoom.mp)⟩
      rw [syslinuxSetadv,if_neg possible,if_neg large,libWalked]
      rfl

/- Items of the tags 2, 1 and 3, and nothing behind them. -/
def threeItems : List UInt8 := [2,1,9,1,2,7,7,3,1,8] ++ List.replicate 490 0

theorem threeItemsRead (rest : List UInt8) :
    items (2::1::9::1::2::7::7::3::1::8::0::0::rest) = [⟨2,[9]⟩,⟨1,[7,7]⟩,⟨3,[8]⟩] := by
  simp [items,advEnd]

/- The item of tag 1 gives way to one of five bytes behind the others. -/
set_option maxRecDepth 8000 in
theorem advWritersAgreeReplaced : (List.replicate 8 0 ++ threeItems ++ List.replicate 516 0 : List UInt8).length = 2*advSize ∧
    Agree (List.replicate 8 0 ++ threeItems ++ List.replicate 516 0) 1 5 (fun _ => 7) := by
  have whole : (List.replicate 8 0 ++ threeItems ++ List.replicate 516 0 : List UInt8).length = 2*advSize := by decide
  have area : dataArea (List.replicate 8 0 ++ threeItems ++ List.replicate 516 0) = threeItems := by rfl
  have left : leftBehind 1 [⟨2,[9]⟩,⟨1,[7,7]⟩,⟨3,[8]⟩] threeItems = 0::0::List.replicate 492 0 := by rfl
  refine ⟨whole,(advWritersAgree whole 1 5 (fun _ => 7)).mpr (Or.inr (Or.inr ⟨[],?_,Or.inl rfl⟩))⟩
  rw [area,show items threeItems = _ from threeItemsRead (List.replicate 488 0),left]
  exact .ended 0 _

/- An area of nothing but empty items of tag 1. -/
def emptyItems : Nat → List UInt8
  | 0 => []
  | n+1 => 1::0::emptyItems n

theorem emptyItemsLength (n : Nat) : (emptyItems n).length = 2*n := by
  induction n with
  | zero => rfl
  | succ n ih =>
    rw [emptyItems,List.length_cons,List.length_cons,ih]
    omega

theorem emptyItemsSnoc (n : Nat) : emptyItems (n + 1) = emptyItems n ++ [1,0] := by
  induction n with
  | zero => rfl
  | succ n ih =>
    calc emptyItems (n + 1 + 1) = 1::0::emptyItems (n + 1) := rfl
      _ = 1::0::(emptyItems n ++ [1,0]) := by rw [ih]
      _ = emptyItems (n + 1) ++ [1,0] := rfl

theorem deletesForever (turns n : Nat) : walk 1 turns [] (emptyItems (n + 2)) = none := by
  have step : memmove (1::0::emptyItems (n + 1)) 2 (2*(n + 1)) = emptyItems (n + 2) := by
    have length := emptyItemsLength (n + 1)
    have same : (1::0::emptyItems (n + 1) : List UInt8).drop (2*(n + 1)) = [1,0] := by
      show (emptyItems (n + 1 + 1)).drop (2*(n + 1)) = [1,0]
      rw [emptyItemsSnoc,← length,List.drop_left]
    rw [memmove,same,List.drop_succ_cons,List.drop_succ_cons,List.drop_zero,← length,List.take_length]
    exact (emptyItemsSnoc (n + 1)).symm
  induction turns with
  | zero => rfl
  | succ turns ih =>
    have first : (UInt8.toNat 1 : Int) = (1 : Int32).toInt := by decide
    rw [emptyItems,walkCons,if_neg (by decide),if_pos first,emptyItemsLength,if_neg (by simp)]
    exact (congrArg (walk 1 turns []) step).trans ih

/- 250 of them fill the data area: libinstaller's loop does not end. -/
theorem advWritersDisagree : ¬ ∀ (adv : List UInt8) (tag : Int32) (size : Nat) (data : Nat → UInt8),
    adv.length = 2*advSize → Agree adv tag size data := by
  intro claim
  obtain ⟨bytes,length,stuck⟩ : ∃ bytes : List UInt8, bytes.length = advLen ∧ ∀ turns, walk 1 turns [] bytes = none :=
    ⟨emptyItems 250,emptyItemsLength 250,fun turns => deletesForever turns 248⟩
  have area : dataArea (List.replicate 8 0 ++ bytes ++ List.replicate 516 0) = bytes := by
    rw [dataArea,List.append_assoc,List.drop_left' List.length_replicate,List.take_left' length]
  have whole : (List.replicate 8 0 ++ bytes ++ List.replicate 516 0).length = 2*advSize := by
    rw [List.length_append,List.length_append,length,List.length_replicate,List.length_replicate]
    rfl
  obtain ⟨turns,status,adv',ran,_⟩ := claim _ 1 0 (fun _ => 0) whole
  rw [syslinuxSetadv,if_neg (by decide),if_neg (by decide),area,stuck] at ran
  contradiction

end Syslinux.Adv
