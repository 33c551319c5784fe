import Mathlib.Data.List.Destutter
import Syslinux.E820

/-! What insertrange does to the list of ranges in front of the sentinel, and what that
makes of the type of each address. -/
namespace Syslinux.E820
open Runs

structure Holds (s : Map) (l : List Range) : Prop where
  array : ∃ spare, s.ranges = l ++ sentinel::spare
  count : s.nranges = l.length

def lastType (old : Nat) (l : List Range) : Nat := l.foldl (fun _ r => r.type) old

/- The type an address has: that of the last range which starts at or below it. -/
def typeFrom (old : Nat) (l : List Range) (a : Nat) : Nat := l.foldl (fun old r => if r.start ≤ a then r.type else old) old
def typeAt (l : List Range) (a : Nat) : Nat := typeFrom 0 l a

def painted (type : Nat) (l : List Range) : List Range := l.map (fun r => ⟨r.start,type⟩)

def Differ (a b : Range) : Prop := a.type ≠ b.type
instance : DecidableRel Differ := fun a b => inferInstanceAs (Decidable (a.type ≠ b.type))

section
variable {front back : List Range} {x r : Range}

theorem readAt : (front ++ x::back)[front.length]? = some x := by simp

theorem writeAt : write (front ++ x::back) front.length r = some (front ++ r::back) := by simp [write]

end

theorem shiftUpSpec (front : List Range) (back rest : List Range) (x : Range) :
    ∃ y, shiftUp front.length (front ++ back).length (front ++ back ++ x::rest) = some (front ++ y::back ++ rest) := by
  induction back using List.reverseRecOn generalizing x rest with
  | nil =>
    refine ⟨x,?_⟩
    rw [List.append_nil]
    cases count : front.length with
    | zero => simp [shiftUp]
    | succ n => simp [shiftUp]
  | append_singleton back y ih =>
    have length : (front ++ (back ++ [y])).length = (front ++ back).length + 1 := by simp; omega
    have bytes : front ++ (back ++ [y]) ++ x::rest = (front ++ back) ++ y::x::rest := by simp
    have above : write (front ++ back ++ y::x::rest) ((front ++ back).length + 1) y =
        some (front ++ back ++ y::y::rest) := by
      have here : write (front ++ back ++ [y] ++ x::rest) (front ++ back ++ [y]).length y =
          some (front ++ back ++ [y] ++ y::rest) := writeAt
      simpa [Nat.add_assoc] using here
    obtain ⟨z,shifted⟩ := ih (y::rest) y
    refine ⟨z,?_⟩
    rw [length,bytes,shiftUp,if_pos (by simp),readAt]
    simp only [Option.bind_eq_bind,Option.bind_some]
    rw [above,Option.bind_some,shifted]
    simp

theorem insertrangeAtSpec {s s' : Map} {front back : List Range} {start type : Nat}
    (holds : Holds s (front ++ back)) (ok : insertrangeAt s front.length start type = some s') :
    Holds s' (front ++ ⟨start,type⟩::back) := by
  obtain ⟨spare,array⟩ := holds.array
  obtain ⟨y,shifted⟩ := shiftUpSpec front back spare sentinel
  unfold insertrangeAt at ok
  rw [holds.count,array,shifted] at ok
  simp only [Option.bind_eq_bind,Option.bind_some] at ok
  rw [List.append_assoc,List.cons_append,writeAt,Option.bind_some] at ok
  cases spare with
  | nil =>
    rw [write,if_neg (by simp; omega)] at ok
    contradiction
  | cons z spare =>
    have bytes : front ++ ⟨start,type⟩::(back ++ z::spare) = (front ++ ⟨start,type⟩::back) ++ z::spare := by simp
    have length : (front ++ back).length + 1 = (front ++ ⟨start,type⟩::back).length := by simp; omega
    rw [bytes,length,writeAt,Option.bind_some] at ok
    cases ok
    exact ⟨⟨spare,rfl⟩,rfl⟩

theorem passBelowSpec {start turns old i old' : Nat} {ranges front here spare : List Range}
    (array : ranges = front ++ (here ++ sentinel::spare)) (proper : ∀ r ∈ here, r.type ≠ noType)
    (ok : passBelow ranges start turns front.length old = some (i,old')) :
    ∃ low high, here = low ++ high ∧ i = (front ++ low).length ∧ (∀ r ∈ low, r.start < start) ∧
      (∀ r ∈ high.head?, start ≤ r.start) ∧ old' = lastType old low := by
  induction turns generalizing front here old with
  | zero => simp [passBelow] at ok
  | succ turns ih =>
    unfold passBelow at ok
    cases here with
    | nil =>
      rw [array,List.nil_append,readAt] at ok
      simp only [Option.bind_eq_bind,Option.bind_some] at ok
      rw [if_neg (by simp [sentinel])] at ok
      cases ok
      exact ⟨[],[],rfl,by simp,by simp,by simp,rfl⟩
    | cons r here =>
      rw [array,List.cons_append,readAt] at ok
      simp only [Option.bind_eq_bind,Option.bind_some] at ok
      by_cases below : r.start < start
      · rw [if_pos ⟨below,proper r (by simp)⟩] at ok
        have array' : ranges = (front ++ [r]) ++ (here ++ sentinel::spare) := by rw [array]; simp
        rw [← List.cons_append,← array,show front.length + 1 = (front ++ [r]).length by simp] at ok
        obtain ⟨low,high,rfl,rfl,lows,highs,rfl⟩ := ih array' (fun q m => proper q (by simp [m])) ok
        refine ⟨r::low,high,rfl,by simp,?_,highs,rfl⟩
        simpa [below] using lows
      · rw [if_neg (fun h => below h.1)] at ok
        cases ok
        exact ⟨[],r::here,rfl,by simp,by simp,by simpa using below,rfl⟩

theorem before64Pos {start : Nat} (pos : 0 < start) (below : start < 2^64) : before64 start = start - 1 := by
  unfold before64
  omega

theorem before64Sentinel : before64 sentinel.start = 2^64 - 1 := by decide

theorem overwriteSpec {last type turns old i old' : Nat} {front here spare ranges' : List Range} (some' : front ≠ [])
    (above : ∀ r ∈ here, 0 < r.start ∧ r.start < 2^64) (bound : last < 2^64)
    (ok : overwrite last type turns (front ++ (here ++ sentinel::spare)) front.length old = some (ranges',i,old')) :
    ∃ low high, here = low ++ high ∧ ranges' = front ++ painted type low ++ (high ++ sentinel::spare) ∧
      i = (front ++ low).length ∧ (∀ r ∈ low, r.start ≤ last) ∧ (∀ r ∈ high.head?, last < r.start) ∧
      old' = lastType old low := by
  have notFirst : front.length ≠ 0 := by simpa using some'
  induction turns generalizing front here old with
  | zero => simp [overwrite] at ok
  | succ turns ih =>
    unfold overwrite at ok
    cases here with
    | nil =>
      rw [List.nil_append,readAt] at ok
      simp only [Option.bind_eq_bind,Option.bind_some] at ok
      rw [before64Sentinel,if_neg (by omega)] at ok
      cases ok
      exact ⟨[],[],rfl,by simp [painted],by simp,by simp,by simp,rfl⟩
    | cons r here =>
      have pos := above r (by simp)
      rw [List.cons_append,readAt] at ok
      simp only [Option.bind_eq_bind,Option.bind_some] at ok
      rw [before64Pos pos.1 pos.2] at ok
      by_cases covered : r.start ≤ last
      · rw [if_pos (Or.inr (by omega)),writeAt,Option.bind_some] at ok
        have bytes : front ++ ⟨r.start,type⟩::(here ++ sentinel::spare) =
            (front ++ [⟨r.start,type⟩]) ++ (here ++ sentinel::spare) := by simp
        rw [bytes,show front.length + 1 = (front ++ [(⟨r.start,type⟩ : Range)]).length by simp] at ok
        obtain ⟨low,high,rfl,rfl,rfl,lows,highs,rfl⟩ :=
          ih (by simp) (fun q m => above q (by simp [m])) ok (by simp)
        refine ⟨r::low,high,rfl,by simp [painted],by simp,?_,highs,rfl⟩
        simpa [covered] using lows
      · rw [if_neg (by omega)] at ok
        cases ok
        exact ⟨[],r::here,rfl,by simp [painted],by simp,by simp,by simp; omega,rfl⟩

/- `last` is the last range kept, `gap` what has been given up behind it. -/
theorem compactSpec {turns i j nranges : Nat} {kept gap unread tail ranges' : List Range} {last : Range}
    (count : nranges = (kept ++ last::gap ++ unread).length)
    (ok : compact nranges turns (kept ++ last::gap ++ (unread ++ tail)) (kept ++ last::gap).length (kept.length + 1)
      last.type = some (ranges',i,j)) :
    ∃ gap', ranges' = kept ++ unread.destutter' Differ last ++ (gap' ++ tail) ∧ i = nranges ∧
      j = (kept ++ unread.destutter' Differ last).length ∧
      i = j + gap'.length := by
  induction turns generalizing kept gap unread last with
  | zero => simp [compact] at ok
  | succ turns ih =>
    unfold compact at ok
    cases unread with
    | nil =>
      rw [if_neg (by rw [count]; simp)] at ok
      cases ok
      exact ⟨gap,by simp [List.destutter'_nil],by simp [count],by simp [List.destutter'_nil],by simp; omega⟩
    | cons r unread =>
      rw [if_pos (by rw [count]; simp),List.cons_append,readAt] at ok
      simp only [Option.bind_eq_bind,Option.bind_some] at ok
      by_cases same : r.type = last.type
      · rw [if_pos same] at ok
        have bytes : kept ++ last::gap ++ r::(unread ++ tail) = kept ++ last::(gap ++ [r]) ++ (unread ++ tail) := by simp
        rw [bytes,show (kept ++ last::gap).length + 1 = (kept ++ last::(gap ++ [r])).length by simp; omega] at ok
        rw [List.destutter'_cons_neg _ (by simp [Differ,same])]
        exact ih (by rw [count]; simp) ok
      · rw [if_neg same] at ok
        rw [List.destutter'_cons_pos _ (fun equal => same equal.symm)]
        cases gap with
        | nil =>
          rw [if_neg (by simp)] at ok
          have bytes : kept ++ [last] ++ r::(unread ++ tail) = (kept ++ [last]) ++ r::[] ++ (unread ++ tail) := by simp
          rw [bytes,show (kept ++ [last]).length + 1 = ((kept ++ [last]) ++ r::[]).length by simp,
            show kept.length + 1 + 1 = (kept ++ [last]).length + 1 by simp] at ok
          have later := ih (by rw [count]; simp) ok
          simpa using later
        | cons g gap =>
          have bytes : kept ++ last::g::gap ++ r::(unread ++ tail) =
              (kept ++ [last]) ++ g::(gap ++ r::(unread ++ tail)) := by simp
          have bytes' : (kept ++ [last]) ++ r::(gap ++ r::(unread ++ tail)) =
              (kept ++ [last]) ++ r::(gap ++ [r]) ++ (unread ++ tail) := by simp
          rw [if_pos (by simp),bytes,show kept.length + 1 = (kept ++ [last]).length by simp,writeAt,Option.bind_some,
            bytes',show (kept ++ last::g::gap).length + 1 = ((kept ++ [last]) ++ r::(gap ++ [r])).length by simp; omega] at ok
          have later := ih (by rw [count]; simp) ok
          simpa using later

theorem removeRedundantSpec {s s' : Map} {first : Range} {l : List Range} (holds : Holds s (first::l))
    (ok : removeRedundant s = some s') : Holds s' (l.destutter' Differ first) := by
  obtain ⟨spare,array⟩ := holds.array
  unfold removeRedundant at ok
  rw [array,List.cons_append,List.getElem?_cons_zero] at ok
  simp only [Option.bind_eq_bind,Option.bind_some] at ok
  obtain ⟨⟨ranges,i,j⟩,compacted,ok⟩ := Option.bind_eq_some_iff.mp ok
  have whole : compact s.nranges maxranges ([] ++ first::[] ++ (l ++ sentinel::spare)) ([] ++ first::[]).length
      (([] : List Range).length + 1) first.type = some (ranges,i,j) := compacted
  obtain ⟨gap,rfl,stop,kept,sum⟩ := compactSpec (by rw [holds.count]; simp) whole
  simp only [List.nil_append] at kept ok
  cases gap with
  | nil =>
    rw [if_neg (by simpa using sum)] at ok
    cases ok
    exact ⟨⟨spare,rfl⟩,by rw [← stop,sum,kept]; rfl⟩
  | cons g gap =>
    have last : i = (l.destutter' Differ first ++ g::gap).length := by rw [sum,kept]; simp
    have bytes : l.destutter' Differ first ++ (g::gap ++ sentinel::spare) =
        l.destutter' Differ first ++ g::gap ++ sentinel::spare := by simp
    have bytes' : l.destutter' Differ first ++ g::gap ++ sentinel::spare =
        l.destutter' Differ first ++ g::(gap ++ sentinel::spare) := by simp
    have copied : (l.destutter' Differ first ++ (g::gap ++ sentinel::spare))[i]? = some sentinel := by
      rw [bytes,last,readAt]
    rw [if_pos (by rw [sum]; simp),copied,Option.bind_some,bytes,bytes',kept,writeAt,Option.bind_some] at ok
    cases ok
    exact ⟨⟨_,rfl⟩,by simp only; omega⟩

section
variable {l more : List Range} {old old' a type : Nat}

theorem typeFromAppend : typeFrom old (l ++ more) a = typeFrom (typeFrom old l a) more a := List.foldl_append

theorem typeFromCons (r : Range) : typeFrom old (r::l) a = typeFrom (if r.start ≤ a then r.type else old) l a := rfl

theorem typeFromAbove (above : ∀ r ∈ l, a < r.start) : typeFrom old l a = old := by
  induction l with
  | nil => rfl
  | cons r l ih =>
    have here := above r (by simp)
    rw [typeFrom,List.foldl_cons,if_neg (by omega)]
    exact ih (fun q m => above q (by simp [m]))

theorem typeFromBelow (below : ∀ r ∈ l, r.start ≤ a) : typeFrom old l a = lastType old l := by
  induction l generalizing old with
  | nil => rfl
  | cons r l ih =>
    rw [typeFrom,List.foldl_cons,if_pos (below r (by simp))]
    exact ih (fun q m => below q (by simp [m]))

theorem typeFromPainted : typeFrom type (painted type l) a = type := by
  induction l with
  | nil => rfl
  | cons r l ih =>
    rw [typeFrom,painted,List.map_cons,List.foldl_cons,ite_self]
    exact ih

theorem lastTypeAppend : lastType old (l ++ more) = lastType (lastType old l) more := List.foldl_append

theorem lastTypeAny (some' : l ≠ []) : lastType old l = lastType old' l := by
  cases l with
  | nil => contradiction
  | cons r l => rfl

end
theorem lastTypeMem {l : List Range} (old : Nat) (some' : l ≠ []) : ∃ r ∈ l, lastType old l = r.type := by
  obtain ⟨front,r,rfl⟩ := List.eq_nil_or_concat l |>.resolve_left some'
  exact ⟨r,by simp,by simp [lastType]⟩

/- Ranges from 0 up, in order. -/
structure Sorted (l : List Range) : Prop where
  first : ∃ type rest, l = ⟨0,type⟩::rest
  order : l.Pairwise (fun a b => a.start < b.start)
  below : ∀ r ∈ l, r.start < 2^64
  proper : ∀ r ∈ l, r.type < noType

/- The list before the scan for redundant ranges: `low` in front of the new range, `same`
the range that began where it begins, `covered` those that begin inside it, `high` those
behind it, `rest` the rest of the last range it cut. -/
structure Inserted (start last type : Nat) (low same covered high rest : List Range) : Prop where
  below : ∀ r ∈ low, r.start < start
  here : ∀ r ∈ same, r.start = start
  cut : low ++ same ≠ []
  inside : ∀ r ∈ covered, start < r.start ∧ r.start ≤ last
  above : ∀ r ∈ high, last < r.start
  ends : rest = [⟨last + 1,lastType 0 (low ++ same ++ covered)⟩] ∧ last + 1 < 2^64 ∧ (∀ r ∈ high, last + 1 < r.start) ∨
    rest = [] ∧ (high = [] ∧ last + 1 = 2^64 ∨ ∃ r later, high = r::later ∧ r.start = last + 1)

def result (start type : Nat) (low covered high rest : List Range) : List Range :=
  low ++ ⟨start,type⟩::(painted type covered ++ (rest ++ high))

section
variable {start last type : Nat} {low same covered high rest : List Range}

theorem insertedType (h : Inserted start last type low same covered high rest) (ordered : start ≤ last) {a : Nat}
    (small : a < 2^64) : typeAt (result start type low covered high rest) a =
      if start ≤ a ∧ a ≤ last then type else typeAt (low ++ same ++ covered ++ high) a := by
  have split : typeAt (result start type low covered high rest) a =
      typeFrom (typeFrom (typeFrom (if start ≤ a then type else typeFrom 0 low a) (painted type covered) a) rest a) high a := by
    rw [typeAt,result,typeFromAppend,typeFromCons,typeFromAppend,typeFromAppend]
  have old : typeAt (low ++ same ++ covered ++ high) a = typeFrom (typeFrom 0 (low ++ same ++ covered) a) high a :=
    typeFromAppend
  have restAbove : a ≤ last → ∀ r ∈ rest, a < r.start := by
    intro inside r m
    rcases h.ends with ⟨rfl,_⟩ | ⟨rfl,_⟩
    · rw [List.mem_singleton.mp m]
      exact Nat.lt_succ_of_le inside
    · simp at m
  rw [split]
  by_cases front : a < start
  · have paintedAbove : ∀ r ∈ painted type covered, a < r.start := by
      intro r m
      obtain ⟨q,mq,rfl⟩ := List.mem_map.mp m
      have := (h.inside q mq).1
      simp only
      omega
    have highAbove : ∀ r ∈ high, a < r.start := fun r m => by have := h.above r m; omega
    have middleAbove : ∀ r ∈ same ++ covered, a < r.start := by
      intro r m
      rcases List.mem_append.mp m with m | m
      · rw [h.here r m]
        exact front
      · have := (h.inside r m).1
        omega
    rw [if_neg (by omega),if_neg (by omega),typeFromAbove paintedAbove,typeFromAbove (restAbove (by omega)),old,
      List.append_assoc,typeFromAppend,typeFromAbove middleAbove]
  · rw [if_pos (by omega),typeFromPainted]
    by_cases inside : a ≤ last
    · rw [if_pos ⟨by omega,inside⟩,typeFromAbove (restAbove inside),typeFromAbove]
      intro r m
      have := h.above r m
      omega
    · rw [if_neg (by omega),old]
      have belowAll : ∀ r ∈ low ++ same ++ covered, r.start ≤ a := by
        intro r m
        rcases List.mem_append.mp m with m | m
        · rcases List.mem_append.mp m with m | m
          · have := h.below r m
            omega
          · rw [h.here r m]
            omega
        · have := (h.inside r m).2
          omega
      rw [typeFromBelow belowAll]
      rcases h.ends with ⟨rfl,_⟩ | ⟨rfl,⟨rfl,top⟩ | ⟨r,later,rfl,next⟩⟩
      · rw [typeFromCons,if_pos (by simp only; omega)]
        rfl
      · omega
      · rw [typeFromCons,typeFromCons,if_pos (by omega),if_pos (by omega)]

theorem insertedSorted (h : Inserted start last type low same covered high rest) (ordered : start ≤ last)
    (bound : last < 2^64) (proper : type < noType) (sorted : Sorted (low ++ same ++ covered ++ high)) :
    Sorted (result start type low covered high rest) := by
  have order := sorted.order
  simp only [List.append_assoc,List.pairwise_append] at order
  obtain ⟨lowOrder,⟨_,⟨coveredOrder,highOrder,_⟩,_⟩,_⟩ := order
  have restOf : ∀ r ∈ rest, r.start = last + 1 ∧ last + 1 < 2^64 ∧ r.type = lastType 0 (low ++ same ++ covered) ∧
      ∀ q ∈ high, last + 1 < q.start := by
    intro r m
    rcases h.ends with ⟨rfl,room,beyond⟩ | ⟨rfl,_⟩
    · rw [List.mem_singleton.mp m]
      exact ⟨rfl,room,rfl,beyond⟩
    · simp at m
  have restOrder : rest.Pairwise (fun a b => a.start < b.start) := by
    rcases h.ends with ⟨rfl,_⟩ | ⟨rfl,_⟩
    · exact List.pairwise_singleton _ _
    · exact List.Pairwise.nil
  have paintedOf : ∀ r ∈ painted type covered, start < r.start ∧ r.start ≤ last ∧ r.type = type := by
    intro r m
    obtain ⟨q,mq,rfl⟩ := List.mem_map.mp m
    exact ⟨(h.inside q mq).1,(h.inside q mq).2,rfl⟩
  -- every range of the result behind `low` begins at or behind the new one
  have behind : ∀ r ∈ painted type covered ++ (rest ++ high), start < r.start := by
    intro r m
    simp only [List.mem_append] at m
    rcases m with m | m | m
    · exact (paintedOf r m).1
    · have := (restOf r m).1
      omega
    · have := h.above r m
      omega
  refine ⟨?_,?_,?_,?_⟩
  · obtain ⟨first,others,eq⟩ := sorted.first
    cases low with
    | cons r low =>
      simp only [List.cons_append,List.cons.injEq] at eq
      exact ⟨first,_,by rw [result,List.cons_append,eq.1]⟩
    | nil =>
      cases same with
      | nil => exact absurd rfl h.cut
      | cons r same =>
        simp only [List.nil_append,List.cons_append,List.cons.injEq] at eq
        have zero := h.here r (by simp)
        rw [eq.1] at zero
        exact ⟨type,_,by rw [result,List.nil_append,← zero]⟩
  · rw [result]
    simp only [List.pairwise_append,List.pairwise_cons]
    refine ⟨lowOrder,⟨behind,?_,⟨restOrder,highOrder,?_⟩,?_⟩,?_⟩
    · exact coveredOrder.map _ (fun a b less => less)
    · intro r m q mq
      have := restOf r m
      have := this.2.2.2 q mq
      omega
    · intro r m q mq
      have := (paintedOf r m).2.1
      rcases List.mem_append.mp mq with mq | mq
      · have := (restOf q mq).1
        omega
      · have := h.above q mq
        omega
    · intro r m q mq
      have := h.below r m
      rcases List.mem_cons.mp mq with rfl | mq
      · exact this
      · have := behind q mq
        omega
  · intro r m
    simp only [result,List.mem_append,List.mem_cons] at m
    rcases m with m | rfl | m | m | m
    · exact sorted.below r (by simp [m])
    · simp only
      omega
    · have := (paintedOf r m).2.1
      omega
    · have := restOf r m
      omega
    · exact sorted.below r (by simp [m])
  · intro r m
    simp only [result,List.mem_append,List.mem_cons] at m
    rcases m with m | rfl | m | m | m
    · exact sorted.proper r (by simp [m])
    · exact proper
    · rw [(paintedOf r m).2.2]
      exact proper
    · have cut : low ++ same ++ covered ≠ [] := by
        intro none'
        exact h.cut (List.append_eq_nil_iff.mp none').1
      obtain ⟨q,mq,type'⟩ := lastTypeMem 0 cut
      rw [(restOf r m).2.2.1,type']
      exact sorted.proper q (by rcases List.mem_append.mp mq with mq | mq <;> simp at mq ⊢ <;> tauto)
    · exact sorted.proper r (by simp [m])

end
end Syslinux.E820
