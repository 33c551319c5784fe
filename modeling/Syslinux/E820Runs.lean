import Syslinux.E820Insert

/-! The database over whole runs of insertions: always in order, and each address has the
type of the last range inserted over it. -/
namespace Syslinux.E820
open Runs

theorem overwriteInserts {start last type turns n old old' i : Nat} {low same here ranges spare : List Range} {r : Range}
    {s : Map} (ran : overwrite last type turns (low ++ ⟨start,type⟩::(here ++ sentinel::spare)) (low.length + 1) old =
      some (ranges,i,old')) (there : ranges[i]? = some r)
    (put : endToken ⟨ranges,n⟩ i last old' r = some s) (count : n = (low ++ ⟨start,type⟩::here).length) (oldtype : old = lastType 0 (low ++ same))
    (above : ∀ r ∈ here, start < r.start ∧ r.start < 2^64) (order : here.Pairwise (fun a b => a.start < b.start))
    (bound : last < 2^64) (below : ∀ r ∈ low, r.start < start) (same' : ∀ r ∈ same, r.start = start)
    (cut : low ++ same ≠ []) :
    ∃ covered high rest, here = covered ++ high ∧ Inserted start last type low same covered high rest ∧
      Holds s (result start type low covered high rest) := by
  have bytes : low ++ ⟨start,type⟩::(here ++ sentinel::spare) = (low ++ [⟨start,type⟩]) ++ (here ++ sentinel::spare) := by
    simp
  rw [bytes,show low.length + 1 = (low ++ [(⟨start,type⟩ : Range)]).length by simp] at ran
  have positive : ∀ r ∈ here, 0 < r.start ∧ r.start < 2^64 := by
    intro r m
    have := above r m
    omega
  obtain ⟨covered,high,rfl,rfl,rfl,lows,highs,rfl⟩ := overwriteSpec (by simp) positive bound ran
  have highAbove : ∀ r ∈ high, last < r.start := by
    cases high with
    | nil => simp
    | cons h later =>
      have first := highs h (by simp)
      have later' := (List.pairwise_cons.mp (List.pairwise_append.mp order).2.1).1
      intro r m
      rcases List.mem_cons.mp m with rfl | m
      · exact first
      · have := later' r m
        omega
  have inside : ∀ r ∈ covered, start < r.start ∧ r.start ≤ last := by
    intro r m
    exact ⟨(above r (by simp [m])).1,lows r m⟩
  have holds : Holds ⟨low ++ [⟨start,type⟩] ++ painted type covered ++ (high ++ sentinel::spare),n⟩
      (low ++ [⟨start,type⟩] ++ painted type covered ++ high) :=
    ⟨⟨spare,by simp⟩,by rw [count]; simp [painted]⟩
  have place : (low ++ [(⟨start,type⟩ : Range)] ++ covered).length =
      (low ++ [(⟨start,type⟩ : Range)] ++ painted type covered).length := by simp [painted]
  have plain : low ++ [⟨start,type⟩] ++ painted type covered ++ high = result start type low covered high [] := by
    simp [result]
  rw [place] at there put
  rw [oldtype,← lastTypeAppend] at put
  unfold endToken at put
  by_cases gap : last < before64 r.start
  · rw [if_pos gap] at put
    have room : last + 1 < 2^64 ∧ ∀ q ∈ high, last + 1 < q.start := by
      cases high with
      | nil =>
        rw [List.nil_append,readAt] at there
        cases there
        rw [before64Sentinel] at gap
        exact ⟨by omega,by simp⟩
      | cons h later =>
        rw [List.cons_append,readAt] at there
        obtain rfl : h = r := Option.some.inj there
        have := above h (by simp)
        rw [before64Pos (by omega) (by omega)] at gap
        have later' := (List.pairwise_cons.mp (List.pairwise_append.mp order).2.1).1
        refine ⟨by omega,?_⟩
        intro q m
        rcases List.mem_cons.mp m with rfl | m
        · omega
        · have := later' q m
          omega
    rw [Nat.mod_eq_of_lt room.1] at put
    refine ⟨covered,high,_,rfl,⟨below,same',cut,inside,highAbove,Or.inl ⟨rfl,room.1,room.2⟩⟩,?_⟩
    have inserted := insertrangeAtSpec holds put
    simpa [result] using inserted
  · rw [if_neg gap] at put
    cases put
    rw [plain] at holds
    refine ⟨covered,high,[],rfl,⟨below,same',cut,inside,highAbove,Or.inr ⟨rfl,?_⟩⟩,holds⟩
    cases high with
    | nil =>
      rw [List.nil_append,readAt] at there
      cases there
      rw [before64Sentinel] at gap
      exact Or.inl ⟨rfl,by omega⟩
    | cons h later =>
      rw [List.cons_append,readAt] at there
      obtain rfl : h = r := Option.some.inj there
      have := above h (by simp)
      have := highAbove h (by simp)
      rw [before64Pos (by omega) (by omega)] at gap
      exact Or.inr ⟨h,later,rfl,by omega⟩

theorem insertrangeInserts {s s' : Map} {l : List Range} {start len type : Nat} (holds : Holds s l) (sorted : Sorted l)
    (some' : 0 < len) (fits : start + len ≤ 2^64) (ok : insertrange s start len type = some s') :
    ∃ low same covered high rest, l = low ++ same ++ covered ++ high ∧
      Inserted start (start + len - 1) type low same covered high rest ∧
      ∃ s1, Holds s1 (result start type low covered high rest) ∧ removeRedundant s1 = some s' := by
  obtain ⟨spare,array⟩ := holds.array
  have last : (start + len + (2^64 - 1)) % 2^64 = start + len - 1 := by omega
  unfold insertrange at ok
  rw [if_neg (by omega)] at ok
  simp only [last,Option.bind_eq_bind] at ok
  obtain ⟨⟨i,old⟩,passed,ok⟩ := Option.bind_eq_some_iff.mp ok
  have passed' : passBelow s.ranges start maxranges ([] : List Range).length (2^32 - 2) = some (i,old) := passed
  obtain ⟨low,back,rfl,rfl,lows,backs,rfl⟩ := passBelowSpec (array.trans (List.nil_append _).symm)
    (fun r m => Nat.ne_of_lt (sorted.proper r m)) passed'
  simp only [List.nil_append] at ok
  obtain ⟨here,read',ok⟩ := Option.bind_eq_some_iff.mp ok
  obtain ⟨⟨s1,i1⟩,placed,ok⟩ := Option.bind_eq_some_iff.mp ok
  obtain ⟨⟨ranges,i2,old2⟩,overwritten,ok⟩ := Option.bind_eq_some_iff.mp ok
  obtain ⟨r,there,ok⟩ := Option.bind_eq_some_iff.mp ok
  obtain ⟨s2,put,removed⟩ := Option.bind_eq_some_iff.mp ok
  simp only at overwritten there put
  obtain ⟨_,backOrder,cross⟩ := List.pairwise_append.mp sorted.order
  rw [array,List.append_assoc] at read'
  unfold startToken at placed
  by_cases fresh : start < here.start ∨ here.type = noType
  · rw [if_pos fresh] at placed
    obtain ⟨s1',inserted,same⟩ := Option.map_eq_some_iff.mp placed
    cases same
    have holds1 := insertrangeAtSpec holds inserted
    obtain ⟨spare1,array1⟩ := holds1.array
    have above : ∀ r ∈ back, start < r.start := by
      cases back with
      | nil => simp
      | cons h back =>
        rw [List.cons_append,readAt] at read'
        obtain rfl : h = here := Option.some.inj read'
        have first : start < h.start := fresh.resolve_right (Nat.ne_of_lt (sorted.proper h (by simp)))
        intro r m
        rcases List.mem_cons.mp m with rfl | m
        · exact first
        · have := (List.pairwise_cons.mp backOrder).1 r m
          omega
    have cut : low ≠ [] := by
      rintro rfl
      obtain ⟨type0,others,eq⟩ := sorted.first
      have := above ⟨0,type0⟩ (by rw [List.nil_append] at eq; simp [eq])
      simp at this
    rw [array1,List.append_assoc,List.cons_append] at overwritten
    have old : lastType (2^32 - 2) low = lastType 0 (low ++ []) := by
      rw [List.append_nil]
      exact lastTypeAny cut
    obtain ⟨covered,high,rest,rfl,inserted,holds2⟩ := overwriteInserts overwritten there put holds1.count old
      (fun r m => ⟨above r m,sorted.below r (by simp [m])⟩) backOrder (by omega) lows (by simp) (by simpa using cut)
    exact ⟨low,[],covered,high,rest,by simp,inserted,s2,holds2,removed⟩
  · rw [if_neg fresh] at placed
    cases placed
    cases back with
    | nil =>
      rw [List.nil_append,readAt] at read'
      cases read'
      exact absurd (Or.inr rfl) fresh
    | cons h back =>
      rw [List.cons_append,readAt] at read'
      obtain rfl : h = here := Option.some.inj read'
      have begins : h.start = start := by
        have := backs h (by simp)
        omega
      -- the range that begins at start is overwritten, also where that is the first one
      have covers : low.length = 0 ∨ before64 h.start < start + len - 1 := by
        by_cases atZero : h.start = 0
        · refine Or.inl ?_
          cases low with
          | nil => rfl
          | cons r low =>
            have := lows r (by simp)
            omega
        · rw [before64Pos (by omega) (sorted.below h (by simp))]
          exact Or.inr (by omega)
      rw [array,List.append_assoc,List.cons_append,show maxranges = 1023 + 1 from rfl,overwrite,readAt] at overwritten
      simp only [Option.bind_eq_bind,Option.bind_some] at overwritten
      rw [if_pos covers,writeAt,Option.bind_some,begins] at overwritten
      have above : ∀ r ∈ back, start < r.start ∧ r.start < 2^64 := by
        intro r m
        have := (List.pairwise_cons.mp backOrder).1 r m
        exact ⟨by omega,sorted.below r (by simp [m])⟩
      have old : h.type = lastType 0 (low ++ [h]) := by simp [lastType]
      obtain ⟨covered,high,rest,rfl,inserted,holds2⟩ := overwriteInserts overwritten there put
        (holds.count.trans (by simp)) old above (List.pairwise_cons.mp backOrder).2 (by omega) lows
        (by simpa using begins) (by simp)
      exact ⟨low,[h],covered,high,rest,by simp,inserted,s2,holds2,removed⟩

section
variable {first : Range} {l : List Range}

theorem mergedType (order : (first::l).Pairwise (fun a b => a.start < b.start)) (old a : Nat) :
    typeFrom old (l.destutter' Differ first) a = typeFrom old (first::l) a := by
  induction l generalizing first old with
  | nil => rfl
  | cons r l ih =>
    obtain ⟨firstBelow,order'⟩ := List.pairwise_cons.mp order
    by_cases differ : Differ first r
    · rw [List.destutter'_cons_pos _ differ,typeFromCons,typeFromCons,ih order']
    · have same : r.type = first.type := (not_not.mp differ).symm
      have shorter : (first::l).Pairwise (fun a b => a.start < b.start) :=
        order.sublist ((List.sublist_cons_self r l).cons_cons first)
      rw [List.destutter'_cons_neg _ differ,ih shorter,typeFromCons,typeFromCons,typeFromCons]
      by_cases reached : r.start ≤ a
      · have := firstBelow r (by simp)
        rw [if_pos reached,if_pos (by omega),same]
      · rw [if_neg reached]

theorem mergedSorted (sorted : Sorted (first::l)) : Sorted (l.destutter' Differ first) := by
  have sub : List.Sublist (l.destutter' Differ first) (first::l) := List.destutter'_sublist l Differ first
  refine ⟨?_,sorted.order.sublist sub,fun r m => sorted.below r (sub.subset m),fun r m => sorted.proper r (sub.subset m)⟩
  obtain ⟨type,rest,eq⟩ := sorted.first
  rw [(List.cons.inj eq).1]
  clear sub eq sorted
  induction l with
  | nil => exact ⟨type,[],rfl⟩
  | cons r l ih =>
    by_cases differ : Differ ⟨0,type⟩ r
    · exact ⟨type,_,List.destutter'_cons_pos _ differ⟩
    · rw [List.destutter'_cons_neg _ differ]
      exact ih

end

/- The array holds a sorted list without redundant ranges, which gives these types. -/
def Kept (types : Nat → Nat) (s : Map) : Prop :=
  ∃ l, Holds s l ∧ Sorted l ∧ l.IsChain Differ ∧ ∀ a, a < 2^64 → typeAt l a = types a

def typeAfter (old : Nat) (e : Insert) (a : Nat) : Nat := if e.start ≤ a ∧ a < e.start + e.len then e.type else old

theorem stepKept {types : Nat → Nat} {s s' : Map} {e : Insert} (kept : Kept types s) (ok : step s e = some s') :
    Kept (fun a => typeAfter (types a) e a) s' := by
  obtain ⟨l,holds,sorted,chain,typed⟩ := kept
  by_cases none' : e.len = 0
  · rw [step,insertrange,if_pos none'] at ok
    cases ok
    refine ⟨l,holds,sorted,chain,?_⟩
    intro a small
    show typeAt l a = typeAfter (types a) e a
    rw [typed a small,typeAfter,if_neg (by omega)]
  · obtain ⟨low,same,covered,high,rest,rfl,inserted,s1,holds1,removed⟩ :=
      insertrangeInserts holds sorted (by omega) e.fits ok
    have fits := e.fits
    have sorted1 := insertedSorted inserted (by omega) (by omega) e.proper sorted
    have typed1 := fun {a} small => insertedType inserted (by omega) (a := a) small
    generalize result e.start e.type low covered high rest = l1 at holds1 sorted1 typed1
    obtain ⟨type,later,rfl⟩ := sorted1.first
    refine ⟨_,removeRedundantSpec holds1 removed,mergedSorted sorted1,List.isChain_destutter' Differ later _,?_⟩
    intro a small
    rw [typeAt,mergedType sorted1.order]
    refine (typed1 small).trans ?_
    show _ = typeAfter (types a) e a
    rw [typed a small,typeAfter]
    by_cases inside : e.start ≤ a ∧ a < e.start + e.len
    · rw [if_pos inside,if_pos (by omega)]
    · rw [if_neg inside,if_neg (by omega)]

/- The type of the last insert over an address, 0 where there is none. -/
def lastInserted (inserts : List Insert) (a : Nat) : Nat := inserts.foldl (fun old e => typeAfter old e a) 0

theorem runKept {types : Nat → Nat} {s s' : Map} {inserts : List Insert} (kept : Kept types s)
    (ok : run step s inserts = some s') : Kept (fun a => inserts.foldl (fun old e => typeAfter old e a) (types a)) s' := by
  induction inserts generalizing types s with
  | nil =>
    cases ok
    exact kept
  | cons e inserts ih =>
    obtain ⟨s1,first,later⟩ := Option.bind_eq_some_iff.mp ok
    exact ih (stepKept kept first) later

theorem initKept : Kept (fun _ => 0) e820mapInit :=
  ⟨[⟨0,0⟩],⟨⟨List.replicate (maxranges - 2) ⟨0,0⟩,rfl⟩,rfl⟩,⟨⟨0,[],rfl⟩,by simp,by simp,by simp [noType]⟩,by simp,
    fun a _ => by simp [typeAt,typeFrom]⟩

/- In order, no two neighbours of one type, closed by the sentinel that nranges counts up to,
and every address in a range of its type. -/
structure Database (s : Map) (types : Nat → Nat) : Prop where
  neighbours : ∀ i a b, i + 1 < s.nranges → s.ranges[i]? = some a → s.ranges[i + 1]? = some b →
    a.start < b.start ∧ a.type ≠ b.type
  entries : ∀ i, i < s.nranges → ∃ r, s.ranges[i]? = some r ∧ r.type ≠ noType
  ends : s.ranges[s.nranges]? = some sentinel
  typed : ∀ a, a < 2^64 → ∃ i r, i < s.nranges ∧ s.ranges[i]? = some r ∧ r.start ≤ a ∧
    (∀ next, i + 1 < s.nranges → s.ranges[i + 1]? = some next → a < next.start) ∧ r.type = types a

theorem typeOwner {r : Range} {l : List Range} {a : Nat} (order : (r::l).Pairwise (fun a b => a.start < b.start))
    (low : r.start ≤ a) (old : Nat) : ∃ front q back, r::l = front ++ q::back ∧ q.start ≤ a ∧ (∀ p ∈ back, a < p.start) ∧
      typeFrom old (r::l) a = q.type := by
  induction l generalizing r old with
  | nil => exact ⟨[],r,[],rfl,low,by simp,by rw [typeFromCons,if_pos low]; rfl⟩
  | cons p l ih =>
    obtain ⟨_,order'⟩ := List.pairwise_cons.mp order
    rw [typeFromCons]
    by_cases reached : p.start ≤ a
    · obtain ⟨front,q,back,eq,here,above,type⟩ := ih order' reached (if r.start ≤ a then r.type else old)
      exact ⟨r::front,q,back,by rw [eq]; rfl,here,above,type⟩
    · have above : ∀ q ∈ p::l, a < q.start := by
        intro q m
        rcases List.mem_cons.mp m with rfl | m
        · omega
        · have := (List.pairwise_cons.mp order').1 q m
          omega
      exact ⟨[],r,p::l,rfl,low,above,by rw [if_pos low,typeFromAbove above]⟩

theorem keptDatabase {types : Nat → Nat} {s : Map} (kept : Kept types s) : Database s types := by
  obtain ⟨l,holds,sorted,chain,typed⟩ := kept
  obtain ⟨spare,array⟩ := holds.array
  have entry : ∀ i, i < s.nranges → s.ranges[i]? = l[i]? := by
    intro i small
    rw [array,List.getElem?_append_left (by rw [← holds.count]; exact small)]
  have pairs : ∀ i a b, i + 1 < s.nranges → s.ranges[i]? = some a → s.ranges[i + 1]? = some b →
      a.start < b.start ∧ a.type ≠ b.type := by
    intro i a b small here next
    rw [entry i (by omega)] at here
    rw [entry (i + 1) small] at next
    obtain ⟨_,here⟩ := List.getElem?_eq_some_iff.mp here
    obtain ⟨bound,next⟩ := List.getElem?_eq_some_iff.mp next
    rw [← here,← next]
    exact ⟨List.pairwise_iff_getElem.mp sorted.order i (i + 1) _ bound (by omega),
      List.isChain_iff_getElem.mp chain i bound⟩
  refine ⟨pairs,?_,?_,?_⟩
  · intro i small
    have bound : i < l.length := by rw [← holds.count]; exact small
    refine ⟨l[i],by rw [entry i small]; exact List.getElem?_eq_getElem bound,?_⟩
    exact Nat.ne_of_lt (sorted.proper _ (List.getElem_mem bound))
  · rw [array,holds.count,readAt]
  · intro a small
    obtain ⟨type,rest,rfl⟩ := sorted.first
    obtain ⟨front,r,back,eq,here,above,owner⟩ := typeOwner sorted.order (Nat.zero_le a) 0
    have inside : front.length < s.nranges := by rw [holds.count,eq]; simp
    refine ⟨front.length,r,inside,by rw [entry _ inside,eq,readAt],here,?_,owner.symm.trans (typed a small)⟩
    intro next more there
    rw [entry _ more,eq,List.getElem?_append_right (by omega)] at there
    rw [show front.length + 1 - front.length = 1 by omega,List.getElem?_cons_succ] at there
    exact above next (List.mem_of_getElem? there)

theorem e820Database {inserts : List Insert} {s : Map} (ok : run step e820mapInit inserts = some s) :
    Database s (lastInserted inserts) :=
  keptDatabase (runKept initKept ok)

/- Memory up to 0x9fc00, of which the driver then takes the last kilobyte. -/
set_option maxRecDepth 8000 in
theorem e820DatabaseDriver :
    ∃ s, run step e820mapInit [⟨0,0x9fc00,1,by decide,by decide,by decide⟩,⟨0x9f800,0x400,2,by decide,by decide,by decide⟩] =
      some s ∧ Database s (lastInserted [⟨0,0x9fc00,1,by decide,by decide,by decide⟩,
        ⟨0x9f800,0x400,2,by decide,by decide,by decide⟩]) := by
  have ran : (run step e820mapInit [⟨0,0x9fc00,1,by decide,by decide,by decide⟩,
      ⟨0x9f800,0x400,2,by decide,by decide,by decide⟩]).isSome := by decide
  obtain ⟨s,eq⟩ := Option.isSome_iff_exists.mp ran
  exact ⟨s,eq,e820Database eq⟩

end Syslinux.E820
