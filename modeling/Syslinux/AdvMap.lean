import Syslinux.Adv

/-! The area as a list of items: what a reader finds is the first item of a tag, and the
com32 writer takes the items of its tag out and puts the new one behind the others. -/
namespace Syslinux.Adv

structure Item where
  tag : UInt8
  data : List UInt8
  deriving DecidableEq, Repr

def Item.encode (i : Item) : List UInt8 := i.tag::UInt8.ofNat i.data.length::i.data

structure Item.Valid (i : Item) : Prop where
  tag : i.tag ≠ advEnd
  length : i.data.length < 256

def encode (items : List Item) : List UInt8 := items.flatMap Item.encode

def lookup (items : List Item) (tag : Int32) : Option (List UInt8) :=
  (items.find? (fun i => (i.tag.toNat : Int) = tag.toInt)).map Item.data

def without (items : List Item) (tag : Int32) : List Item := items.filter (fun i => (i.tag.toNat : Int) ≠ tag.toInt)

/- Where reading ends: no room for a tag and a length, the end tag, or an item that runs
past the end. -/
inductive Stops : List UInt8 → Prop where
  | empty : Stops []
  | single (b : UInt8) : Stops [b]
  | ended (len : UInt8) (rest : List UInt8) : Stops (advEnd::len::rest)
  | overrun (tag len : UInt8) (rest : List UInt8) (nonzero : tag ≠ advEnd) (short : rest.length < len.toNat) :
      Stops (tag::len::rest)

inductive Scanned : List UInt8 → List Item → List UInt8 → Prop where
  | stop {tail : List UInt8} (stops : Stops tail) : Scanned tail [] tail
  | item {rest tail : List UInt8} {items : List Item} (i : Item) (valid : i.Valid) (later : Scanned rest items tail) :
      Scanned (i.encode ++ rest) (i::items) tail

def items : List UInt8 → List Item
  | tag::len::rest =>
    if tag = advEnd then []
    else if rest.length < len.toNat then []
    else ⟨tag,rest.take len.toNat⟩::items (rest.drop len.toNat)
  | _ => []
  termination_by area => area.length

theorem scannedItems (area : List UInt8) : ∃ tail, Scanned area (items area) tail := by
  induction size : area.length using Nat.strong_induction_on generalizing area with
  | _ n ih =>
    match area with
    | [] => exact ⟨[],by rw [items]; exact .stop .empty; simp⟩
    | [b] => exact ⟨[b],by rw [items]; exact .stop (.single b); simp⟩
    | tag::len::rest =>
      rw [items]
      by_cases ended : tag = advEnd
      · rw [if_pos ended,ended]
        exact ⟨_,.stop (.ended len rest)⟩
      · rw [if_neg ended]
        by_cases short : rest.length < len.toNat
        · rw [if_pos short]
          exact ⟨_,.stop (.overrun tag len rest ended short)⟩
        · rw [if_neg short]
          obtain ⟨tail,later⟩ := ih _ (by simp at size ⊢; omega) (rest.drop len.toNat) rfl
          have small := len.toNat_lt
          have length : (rest.take len.toNat).length = len.toNat := by simp; omega
          have whole := Scanned.item ⟨tag,rest.take len.toNat⟩ ⟨ended,by simp only [length]; omega⟩ later
          exact ⟨tail,by simpa [Item.encode,length] using whole⟩

theorem scannedValid {area items tail} (scanned : Scanned area items tail) : ∀ i ∈ items, i.Valid := by
  induction scanned with
  | stop => simp
  | item i valid later ih =>
    intro j m
    rcases List.mem_cons.mp m with rfl | m
    · exact valid
    · exact ih j m

theorem scannedOf {items : List Item} {tail : List UInt8} (valid : ∀ i ∈ items, i.Valid) (stops : Stops tail) :
    Scanned (encode items ++ tail) items tail := by
  induction items with
  | nil => exact .stop stops
  | cons i items ih =>
    rw [encode,List.flatMap_cons,List.append_assoc]
    exact .item i (valid i (by simp)) (ih (fun j m => valid j (by simp [m])))

theorem itemLength {i : Item} (valid : i.Valid) : (UInt8.ofNat i.data.length).toNat = i.data.length :=
  UInt8.toNat_ofNat_of_lt' valid.length

theorem encodeLength (i : Item) : i.encode.length = i.data.length + 2 := rfl

theorem getadvScanned {area items tail} (scanned : Scanned area items tail) (tag : Int32) :
    item area tag = lookup items tag := by
  induction scanned with
  | stop stops =>
    cases stops with
    | empty => simp [item,syslinuxGetadv,getadvFrom,lookup]
    | single b => simp [item,syslinuxGetadv,getadvFrom,lookup]
    | ended len rest => simp [item,syslinuxGetadv,getadvFrom,lookup]
    | overrun tag len rest nonzero short => simp [item,syslinuxGetadv,getadvFrom,lookup,nonzero,short]
  | @item rest tail items i valid later ih =>
    have length := itemLength valid
    have room : ¬ (i.data ++ rest).length < i.data.length := by simp
    rw [item,syslinuxGetadv,Item.encode,List.cons_append,List.cons_append,getadvFrom]
    rw [if_neg valid.tag,length,if_neg room]
    by_cases own : (i.tag.toNat : Int) = tag.toInt
    · simp [own,lookup]
    · rw [if_neg own,List.drop_left]
      rw [item,syslinuxGetadv] at ih
      simp [ih,lookup,own]

theorem lookupWithout (items : List Item) {tag other : Int32} (ne : other ≠ tag) :
    lookup (without items tag) other = lookup items other := by
  unfold lookup without
  rw [List.find?_filter]
  congr 2
  funext i
  have differ : ¬ other.toInt = tag.toInt := fun same => ne (Int32.toInt_inj.mp same)
  by_cases here : (i.tag.toNat : Int) = other.toInt
  · simp [here,differ]
  · simp [here]

theorem lookupOwn (items : List Item) (tag : Int32) : lookup (without items tag) tag = none := by
  unfold lookup without
  simp

theorem lookupAppend (items more : List Item) (tag : Int32) :
    lookup (items ++ more) tag = (lookup items tag).or (lookup more tag) := by
  unfold lookup
  rw [List.find?_append,Option.map_or]

theorem com32WalkShort {tag : Int32} {before here : List UInt8} {rleft : Nat} (short : rleft < 2) :
    Com32.walk tag before here rleft = (before,here) := by
  unfold Com32.walk
  rw [if_pos short]

theorem com32WalkStep (tag : Int32) (before : List UInt8) (ptag len : UInt8) (rest : List UInt8) {rleft : Nat}
    (more : ¬ rleft < 2) : Com32.walk tag before (ptag::len::rest) rleft =
      if ptag = advEnd then (before,ptag::len::rest)
      else if (ptag.toNat : Int) = tag.toInt then
        if rleft ≤ len.toNat + 2 then (before,ptag::len::rest)
        else Com32.walk tag before (memmove (ptag::len::rest) (len.toNat + 2) (rleft - (len.toNat + 2)))
          (rleft - (len.toNat + 2))
      else if rleft < len.toNat + 2 then (before,ptag::len::rest)
      else Com32.walk tag (before ++ (ptag::len::rest).take (len.toNat + 2)) ((ptag::len::rest).drop (len.toNat + 2))
        (rleft - (len.toNat + 2)) := by
  rw [Com32.walk,if_neg more]

/- `rest` is what is still to be read, `junk` what a deletion left behind it. -/
theorem com32WalkSpec {rest items tail} (scanned : Scanned rest items tail) (tag : Int32) (before junk : List UInt8) :
    ∃ here, Com32.walk tag before (rest ++ junk) rest.length = (before ++ encode (without items tag),here) ∧
      here.length + (encode (without items tag)).length = (rest ++ junk).length := by
  induction scanned generalizing before junk with
  | @stop tail stops =>
    refine ⟨tail ++ junk,?_,by simp [without,encode]⟩
    simp only [without,List.filter_nil,encode,List.flatMap_nil,List.append_nil]
    cases stops with
    | empty => exact com32WalkShort (by simp)
    | single b => exact com32WalkShort (by simp)
    | ended len rest =>
      rw [List.cons_append,List.cons_append,com32WalkStep _ _ _ _ _ (by simp),if_pos rfl]
    | overrun tag' len rest nonzero short =>
      rw [List.cons_append,List.cons_append,com32WalkStep _ _ _ _ _ (by simp),if_neg nonzero]
      simp only [List.length_cons]
      rw [if_pos (by omega : rest.length + 1 + 1 ≤ len.toNat + 2),if_pos (by omega : rest.length + 1 + 1 < len.toNat + 2),
        ite_self]
  | @item rest tail items i valid later ih =>
    have length := itemLength valid
    have size : (i.encode ++ rest).length = i.data.length + 2 + rest.length := by simp [encodeLength]
    have bytes : i.encode ++ rest ++ junk = i.tag::UInt8.ofNat i.data.length::(i.data ++ (rest ++ junk)) := by
      simp [Item.encode]
    rw [bytes,com32WalkStep _ _ _ _ _ (by omega),if_neg valid.tag,length,size,Nat.add_sub_cancel_left]
    have dropped : (i.tag::UInt8.ofNat i.data.length::(i.data ++ (rest ++ junk))).drop (i.data.length + 2) =
        rest ++ junk := by simp
    by_cases own : (i.tag.toNat : Int) = tag.toInt
    · have kept : without (i::items) tag = without items tag := by simp [without,own]
      rw [if_pos own,kept]
      by_cases last : rest.length = 0
      · rw [if_pos (by omega)]
        obtain rfl : rest = [] := List.eq_nil_of_length_eq_zero last
        have none' : items = [] := by
          cases later
          rfl
        subst none'
        refine ⟨i.tag::UInt8.ofNat i.data.length::(i.data ++ ([] ++ junk)),?_,by simp [without,encode]⟩
        simp [without,encode]
      · rw [if_neg (by omega),memmove,dropped,List.take_left]
        obtain ⟨here,ran,sum⟩ := ih before ((i.tag::UInt8.ofNat i.data.length::(i.data ++ (rest ++ junk))).drop rest.length)
        refine ⟨here,ran,?_⟩
        simp only [List.length_append,List.length_drop,List.length_cons] at sum ⊢
        omega
    · have kept : encode (without (i::items) tag) = i.encode ++ encode (without items tag) := by
        simp [without,own,encode]
      have taken : (i.tag::UInt8.ofNat i.data.length::(i.data ++ (rest ++ junk))).take (i.data.length + 2) =
          i.encode := by simp [Item.encode]
      rw [if_neg own,if_neg (by omega),dropped,taken]
      obtain ⟨here,ran,sum⟩ := ih (before ++ i.encode) junk
      refine ⟨here,by rw [ran,kept,List.append_assoc],?_⟩
      rw [kept]
      simp only [List.length_append,List.length_cons,encodeLength] at sum ⊢
      omega

theorem tagByte {tag : Int32} (possible : ¬ impossibleTag tag) :
    ((UInt8.ofNat tag.toInt.toNat).toNat : Int) = tag.toInt ∧ UInt8.ofNat tag.toInt.toNat ≠ advEnd := by
  have low := tag.le_toInt
  have high := tag.toInt_lt
  have range : 1 ≤ tag.toInt ∧ tag.toInt ≤ 255 := by
    unfold impossibleTag at possible
    omega
  have small : (UInt8.ofNat tag.toInt.toNat).toNat = tag.toInt.toNat := UInt8.toNat_ofNat_of_lt' (by show _ < 256; omega)
  refine ⟨by omega,?_⟩
  intro zero
  rw [zero] at small
  have : advEnd.toNat = 0 := rfl
  omega

theorem zerosStop (n : Nat) : Stops (List.replicate n 0) := by
  match n with
  | 0 => exact .empty
  | 1 => exact .single 0
  | n+2 => exact .ended 0 (List.replicate n 0)

def newItem (tag : Int32) (size : Nat) (data : Nat → UInt8) : List Item :=
  if size = 0 then [] else [⟨UInt8.ofNat tag.toInt.toNat,read data 0 size⟩]

theorem putItemScanned {tag : Int32} {size : Nat} {data : Nat → UInt8} {items : List Item} {here area' : List UInt8}
    (valid : ∀ i ∈ items, i.Valid) (possible : ¬ impossibleTag tag) (small : size ≤ 255)
    (ok : putItem (encode items) here tag size data = .ok area') :
    ∃ tail, Scanned area' (items ++ newItem tag size data) tail := by
  unfold putItem at ok
  by_cases none' : size = 0
  · rw [if_neg (by simp [none'])] at ok
    cases ok
    rw [newItem,if_pos none',List.append_nil]
    exact ⟨_,scannedOf valid (zerosStop _)⟩
  · rw [if_pos none'] at ok
    split at ok
    · contradiction
    · cases ok
      rw [newItem,if_neg none']
      have new : Item.Valid ⟨UInt8.ofNat tag.toInt.toNat,read data 0 size⟩ :=
        ⟨(tagByte possible).2,by simp only [readLength]; omega⟩
      have all : ∀ i ∈ items ++ [⟨UInt8.ofNat tag.toInt.toNat,read data 0 size⟩], i.Valid := by
        intro i m
        rcases List.mem_append.mp m with m | m
        · exact valid i m
        · rw [List.mem_singleton.mp m]
          exact new
      have whole := scannedOf all (zerosStop (here.length - (size + 2)))
      exact ⟨_,by simpa [encode,Item.encode] using whole⟩

theorem newItemOwn {tag : Int32} (possible : ¬ impossibleTag tag) (size : Nat) (data : Nat → UInt8) :
    lookup (newItem tag size data) tag = if size = 0 then none else some (read data 0 size) := by
  have own := (tagByte possible).1
  unfold newItem lookup
  by_cases none' : size = 0
  · simp [none']
  · rw [if_neg none',if_neg none',List.find?_cons_of_pos (by simpa using own)]
    rfl

theorem newItemOther {tag other : Int32} (possible : ¬ impossibleTag tag) (ne : other ≠ tag) (size : Nat)
    (data : Nat → UInt8) : lookup (newItem tag size data) other = none := by
  have own := (tagByte possible).1
  have differ : ¬ ((UInt8.ofNat tag.toInt.toNat).toNat : Int) = other.toInt := by
    rw [own]
    exact fun same => ne (Int32.toInt_inj.mp same).symm
  unfold newItem lookup
  by_cases none' : size = 0
  · simp [none']
  · rw [if_neg none',List.find?_cons_of_neg (by simpa using differ)]
    rfl

theorem com32SetadvOk {area area' : List UInt8} {tag : Int32} {size : Nat} {data : Nat → UInt8}
    (ok : Com32.syslinuxSetadv area tag size data = (.ok (),area')) {items tail} (scanned : Scanned area items tail) :
    ¬ impossibleTag tag ∧ ∃ tail', Scanned area' (without items tag ++ newItem tag size data) tail' := by
  unfold Com32.syslinuxSetadv at ok
  split at ok
  · simp at ok
  · rename_i possible
    refine ⟨possible,?_⟩
    split at ok
    · simp at ok
    · obtain ⟨here,walked,_⟩ := com32WalkSpec scanned tag [] []
      simp only [List.append_nil,List.nil_append] at walked
      simp only [walked] at ok
      cases done : putItem (encode (without items tag)) here tag size data with
      | error e => simp [done,Com32.commit] at ok
      | ok advtmp =>
        rw [done] at ok
        cases ok
        refine putItemScanned ?_ possible (by omega) done
        intro i m
        exact scannedValid scanned i (List.mem_of_mem_filter m)

/- The com32 vector is a finite map: a write that succeeds sets the item of its tag, and
only that; one that fails changes no item. -/
theorem advFiniteMap (area : List UInt8) (tag : Int32) (size : Nat) (data : Nat → UInt8) :
    match Com32.syslinuxSetadv area tag size data with
    | (.ok _,area') => item area' tag = (if size = 0 then none else some (read data 0 size)) ∧
        ∀ other, other ≠ tag → item area' other = item area other
    | (.error _,area') => ∀ other, item area' other = item area other := by
  generalize call : Com32.syslinuxSetadv area tag size data = result
  match result with
  | (.error e,area') =>
    intro other
    have same : area' = area := by
      unfold Com32.syslinuxSetadv at call
      split at call
      · exact (Prod.mk.inj call).2.symm
      · split at call
        · exact (Prod.mk.inj call).2.symm
        · simp only [Com32.commit] at call
          split at call
          · exact (Prod.mk.inj call).2.symm
          · simp at call
    rw [same]
  | (.ok (),area') =>
    obtain ⟨tail,scanned⟩ := scannedItems area
    obtain ⟨possible,tail',scanned'⟩ := com32SetadvOk call scanned
    refine ⟨?_,?_⟩
    · rw [getadvScanned scanned',lookupAppend,lookupOwn,newItemOwn possible]
      rfl
    · intro other ne
      rw [getadvScanned scanned',getadvScanned scanned,lookupAppend,lookupWithout _ ne,newItemOther possible ne,
        Option.or_none]

end Syslinux.Adv
