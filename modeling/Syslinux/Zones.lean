import Syslinux.Align
import Syslinux.MovebitsSpec

/-! The searches of com32/lib/syslinux/zonelist.c over a memory map: syslinux_memmap_type,
syslinux_memmap_highest, syslinux_memmap_find_type and syslinux_memmap_find. The end of a zone
is the start of the next one, so the last zone ends at 0 in every comparison. -/
namespace Syslinux.Zones
open Zonelist Zonelist.MemmapType Movebits Align

/- The inner loop: the type of the zone left behind is tested, that of the last one is not. -/
def crossing (last : Nat) : List Zone → MemmapType
  | [] => smtError
  | z::rest =>
      if validTerminalType z.type then
        if runEnds last rest.tail then smtTerminal else crossing last rest
      else smtError

def memmapTypeFrom (start last : Nat) : List Zone → MemmapType
  | [] => smtError
  | z::rest =>
      if z.type = smtEnd then smtError
      else if z.start ≤ start ∧ runEnds last rest then z.type
      else if z.start ≤ start ∧ runEnds start rest then crossing last (z::rest)
      else memmapTypeFrom start last rest

def syslinuxMemmapType (list : List Zone) (start len : Nat) : MemmapType :=
  memmapTypeFrom start (sub32 (add32 start len) 1) list

/- What a search is asked for: the minimum start is the value of *start on entry. -/
structure Query where
  type : MemmapType
  start : Nat
  len : Nat
  ceiling : Nat
  align : Nat
  deriving DecidableEq, Repr

structure Found where
  rv : Int
  start : Nat
  deriving DecidableEq, Repr

def highestFrom (q : Query) : Nat → List Zone → Nat
  | best,z::next::rest =>
      if z.type = smtEnd then best
      else
        let size := sub32 next.start z.start
        if z.type ≠ q.type ∨ add32 z.start size ≤ q.start ∨ q.ceiling ≤ add32 z.start q.len then
          highestFrom q best (next::rest)
        else
          let best := if add32 z.start size < q.ceiling then alignDown (sub32 (add32 z.start size) q.len) q.align
            else alignDown (sub32 q.ceiling q.len) q.align
          highestFrom q (if best < q.start then 0 else best) (next::rest)
  | best,_ => best

def syslinuxMemmapHighest (list : List Zone) (q : Query) : Found :=
  let best := highestFrom q 0 list
  if best = 0 then ⟨-1,q.start⟩ else ⟨0,best⟩

structure FoundType where
  rv : Int
  start : Nat
  len : Nat
  deriving DecidableEq, Repr

def findTypeFrom (type : MemmapType) (minStart minLen align : Nat) : List Zone → Option Area
  | z::next::rest =>
      if z.type = smtEnd then none
      else
        let xstart := alignUp (if z.start < minStart then minStart else z.start) align
        if z.type = type ∧ xstart < next.start ∧ minLen ≤ next.start - xstart then
          some ⟨xstart,next.start - xstart⟩
        else findTypeFrom type minStart minLen align (next::rest)
  | _ => none

def syslinuxMemmapFindType (list : List Zone) (type : MemmapType) (start len align : Nat) : FoundType :=
  match findTypeFrom type start len align list with
  | some area => ⟨0,area.start,area.len⟩
  | none => ⟨-1,start,len⟩

structure Bounds where
  startMin : Nat
  startMax : Nat
  endMin : Nat
  endMax : Nat
  deriving DecidableEq, Repr

def findFrom (size align : Nat) (b : Bounds) : List Zone → Option Nat
  | mp::next::rest =>
      if mp.type = smtEnd then none
      else if mp.type ≠ smtFree ∨ next.start ≤ b.endMin then findFrom size align b (next::rest)
      else
        let start := alignUp (if mp.start < b.startMin then b.startMin else mp.start) align
        let stop := if b.endMax < next.start then b.endMax else next.start
        if b.startMax < start ∨ stop ≤ start then findFrom size align b (next::rest)
        else if size ≤ stop - start then some start
        else findFrom size align b (next::rest)
  | _ => none

def syslinuxMemmapFind (mmap : List Zone) (base size : Nat) (relocate : Bool) (align : Nat) (b : Bounds) : Found :=
  if size = 0 then ⟨0,base⟩
  else if validTerminalType (syslinuxMemmapType mmap base size) then ⟨0,base⟩
  else if relocate = false then ⟨-1,base⟩
  else match findFrom size align b mmap with
  | some start => ⟨0,start⟩
  | none => ⟨-1,base⟩

/- A zone with its end, 2^32 for the last one. -/
structure Span where
  lo : Nat
  hi : Nat
  type : MemmapType
  deriving DecidableEq, Repr

def spans : List Zone → List Span
  | z::next::rest => if z.type = smtEnd then [] else ⟨z.start,zoneEnd next,z.type⟩::spans (next::rest)
  | _ => []

structure Spanned (list : List Zone) (s : Span) : Prop where
  nonempty : s.lo < s.hi
  top : s.hi ≤ 2^32
  typed : ∀ a, s.lo ≤ a → a < s.hi → typeAt list a = s.type

theorem nextStart {whole z next rest} (suffix : Suffix whole (z::next::rest)) (proper : z.type ≠ smtEnd) :
    next.start = zoneEnd next % 2^32 ∧ z.start < 2^32 := by
  obtain ⟨_,n,t,eq,above,top,_,start,stop⟩ := suffixNext suffix proper
  cases eq
  refine ⟨?_,by omega⟩
  by_cases isEnd : next.type = smtEnd
  · rw [stop isEnd]
    simp [zoneEnd,isEnd]
  · have low : next.start < 2^32 := by
      rcases (suffixNext suffix proper).1 with ⟨same,_⟩ | ⟨_,bound,_⟩
      · exact absurd (by rw [same]) isEnd
      · exact bound
    rw [← start isEnd,Nat.mod_eq_of_lt low]

theorem walkSpans {α : Type} (walk : List Zone → α) (turn : Span → α → α) (stop : α)
    (ends : ∀ z rest, z.type = smtEnd → walk (z::rest) = stop)
    (goes : ∀ z next rest, z.type ≠ smtEnd → next.start = zoneEnd next % 2^32 → z.start < zoneEnd next →
      zoneEnd next ≤ 2^32 → walk (z::next::rest) = turn ⟨z.start,zoneEnd next,z.type⟩ (walk (next::rest)))
    {whole list} (suffix : Suffix whole list) : walk list = (spans list).foldr turn stop := by
  induction list with
  | nil => exact absurd suffix (by simp [Suffix])
  | cons z rest ih =>
    by_cases proper : z.type = smtEnd
    · rw [ends z rest proper]
      cases rest with
      | nil => rfl
      | cons next tail => simp [spans,proper]
    · obtain ⟨later,next,tail,eq,above,top,_⟩ := suffixNext suffix proper
      subst eq
      rw [goes z next tail proper (nextStart suffix proper).1 above top,ih later]
      simp [spans,proper]

theorem spansOk {whole list} (suffix : Suffix whole list) :
    (∀ s ∈ spans list, Spanned whole s ∧ ∀ z rest, list = z::rest → z.type ≠ smtEnd → z.start ≤ s.lo) ∧
    (spans list).Pairwise (fun s t => s.hi ≤ t.lo) := by
  induction list with
  | nil => exact absurd suffix (by simp [Suffix])
  | cons z rest ih =>
    by_cases proper : z.type = smtEnd
    · cases rest with
      | nil => simp [spans]
      | cons next tail => simp [spans,proper]
    · obtain ⟨later,next,tail,eq,above,top,types,start,_⟩ := suffixNext suffix proper
      subst eq
      obtain ⟨each,order⟩ := ih later
      have split : spans (z::next::tail) = ⟨z.start,zoneEnd next,z.type⟩::spans (next::tail) := by
        simp [spans,proper]
      have behind : ∀ s ∈ spans (next::tail), zoneEnd next ≤ s.lo := by
        intro s mem
        by_cases isEnd : next.type = smtEnd
        · cases tail with
          | nil => simp [spans] at mem
          | cons n t => simp [spans,isEnd] at mem
        · rw [← start isEnd]
          exact (each s mem).2 next tail rfl isEnd
      rw [split]
      refine ⟨?_,List.Pairwise.cons behind order⟩
      intro s mem
      rcases List.mem_cons.mp mem with rfl | later
      · refine ⟨⟨above,top,types⟩,?_⟩
        intro y tail' eq _
        cases eq
        exact Nat.le_refl _
      · refine ⟨(each s later).1,?_⟩
        intro y tail' eq _
        cases eq
        have := behind s later
        omega

section
variable {list : List Zone}

theorem spanned (wf : WellFormed list) {s : Span} (mem : s ∈ spans list) : Spanned list s :=
  ((spansOk (suffixWhole wf)).1 s mem).1

theorem spansOrdered (wf : WellFormed list) : (spans list).Pairwise (fun s t => s.hi ≤ t.lo) :=
  (spansOk (suffixWhole wf)).2

theorem spansApart (wf : WellFormed list) {s t : Span} (memS : s ∈ spans list) (memT : t ∈ spans list) (differ : s ≠ t) :
    s.hi ≤ t.lo ∨ t.hi ≤ s.lo := by
  obtain ⟨i,hi,eqI⟩ := List.getElem_of_mem memS
  obtain ⟨j,hj,eqJ⟩ := List.getElem_of_mem memT
  have pair := List.pairwise_iff_getElem.mp (spansOrdered wf)
  rcases Nat.lt_trichotomy i j with less | eq | more
  · exact Or.inl (by have := pair i j hi hj less; rwa [eqI,eqJ] at this)
  · subst eq
    exact absurd (eqI.symm.trans eqJ) differ
  · exact Or.inr (by have := pair j i hj hi more; rwa [eqI,eqJ] at this)

end
end Syslinux.Zones
