import Syslinux.Zones

/-! syslinux_memmap_highest. Every zone that is not skipped overwrites the answer of the ones
before it, whether or not the range fits into it: the last such zone decides alone. -/
namespace Syslinux.Zones
open Zonelist Zonelist.MemmapType Movebits Align

/- The range at a lies in the zone and keeps to the constraints of the search. -/
structure Query.FitsIn (q : Query) (s : Span) (a : Nat) : Prop where
  type : s.type = q.type
  aligned : q.align ∣ a
  start : q.start ≤ a
  lo : s.lo ≤ a
  hi : a + q.len ≤ s.hi
  ceiling : a + q.len ≤ q.ceiling

structure HighestSpec (list : List Zone) (q : Query) (r : Found) : Prop where
  found : r.rv = 0 → (∃ s ∈ spans list, q.FitsIn s r.start) ∧ ∀ s ∈ spans list, ∀ a, q.FitsIn s a → a ≤ r.start
  none : r.rv = -1 → r.start = q.start ∧ ∀ s ∈ spans list, ∀ a, a ≠ 0 → q.FitsIn s a → ¬a + q.len < q.ceiling

def Query.considers (q : Query) (s : Span) : Prop :=
  s.type = q.type ∧ q.start < s.hi % 2^32 ∧ add32 s.lo q.len < q.ceiling
instance (q : Query) (s : Span) : Decidable (q.considers s) := by unfold Query.considers; infer_instance

/- What is left below the end of the zone or the ceiling, as a 32-bit difference. -/
def Query.room (q : Query) (s : Span) : Nat :=
  sub32 (if s.hi % 2^32 < q.ceiling then s.hi % 2^32 else q.ceiling) q.len

/- What the last zone leaves as the answer; 0 or an address below the start is none. -/
def Query.kept (q : Query) (s : Span) : Nat := alignDown (q.room s) q.align

def Query.last (q : Query) (list : List Zone) : Option Span := ((spans list).filter q.considers).getLast?

/- The highest aligned start of a range that ends with the zone, or at the ceiling. -/
def Query.top (q : Query) (s : Span) : Nat := alignDown (min s.hi q.ceiling - q.len) q.align

/- A zone large enough for a range, rounded down, that begins in it from the start on. -/
structure Query.Large (q : Query) (s : Span) : Prop where
  type : s.type = q.type
  size : q.len ≤ min s.hi q.ceiling
  lo : s.lo ≤ q.top s
  start : q.start ≤ q.top s

def Query.below (q : Query) : Query := { q with ceiling := q.ceiling - 1 }

/- A zone up to 2^32 is skipped, for its end is 0 in 32 bits: it must not be the one that is
large enough. -/
def Query.Untaken (q : Query) (list : List Zone) : Prop :=
  ∀ t ∈ spans list, t.hi = 2^32 → q.below.Large t → q.below.top t = 0

/- The last zone considered is large enough, or another one happens to lie where the range
ends up; and no zone behind is large enough (one up to 2^32, or with a range up to the
ceiling) for a higher one. -/
def Query.Decided (q : Query) (list : List Zone) : Prop :=
  match q.last list with
  | none => q.Untaken list
  | some s =>
      if q.kept s = 0 ∨ q.kept s < q.start then q.Untaken list
      else (q.Large s ∨ ∃ t ∈ spans list, t ≠ s ∧ t.type = q.type ∧ t.lo ≤ q.kept s ∧ q.kept s + q.len ≤ min t.hi q.ceiling) ∧
        ∀ t ∈ spans list, s.hi ≤ t.lo → q.Large t → q.top t ≤ q.kept s

def Query.turn (q : Query) (s : Span) (later : Nat → Nat) (best : Nat) : Nat :=
  if q.considers s then
    later (if q.kept s < q.start then 0 else q.kept s)
  else later best

theorem highestTurn (q : Query) {z next : Zone} {rest : List Zone} (proper : z.type ≠ smtEnd)
    (nstart : next.start = zoneEnd next % 2^32) (above : z.start < zoneEnd next) (top : zoneEnd next ≤ 2^32) :
    (fun best => highestFrom q best (z::next::rest)) =
      q.turn ⟨z.start,zoneEnd next,z.type⟩ (fun best => highestFrom q best (next::rest)) := by
  funext best
  have stop : add32 z.start (sub32 next.start z.start) = zoneEnd next % 2^32 := by
    rw [← nstart]
    unfold add32 sub32
    split <;> omega
  rw [highestFrom,if_neg proper,Query.turn]
  simp only [stop]
  by_cases considered : q.considers ⟨z.start,zoneEnd next,z.type⟩
  · have kept : ¬(z.type ≠ q.type ∨ zoneEnd next % 2^32 ≤ q.start ∨ q.ceiling ≤ add32 z.start q.len) := by
      obtain ⟨type,start,ceiling⟩ := considered
      simp only at type start ceiling
      simp only [type,ne_eq,not_true_eq_false,false_or,not_or]
      omega
    rw [if_pos considered,if_neg kept,Query.kept,Query.room]
    split <;> rfl
  · have skipped : z.type ≠ q.type ∨ zoneEnd next % 2^32 ≤ q.start ∨ q.ceiling ≤ add32 z.start q.len := by
      by_cases type : z.type = q.type
      · refine Or.inr ?_
        by_contra none'
        exact considered ⟨type,by simp only; omega,by simp only; omega⟩
      · exact Or.inl type
    rw [if_neg considered,if_pos skipped]

theorem highestLast (q : Query) (l : List Span) (best : Nat) :
    l.foldr q.turn id best = match (l.filter q.considers).getLast? with
      | none => best
      | some s => if q.kept s < q.start then 0 else q.kept s := by
  induction l generalizing best with
  | nil => rfl
  | cons s rest ih =>
    rw [List.foldr_cons,Query.turn]
    by_cases considered : q.considers s
    · rw [if_pos considered,ih,List.filter_cons_of_pos (by simpa using considered)]
      cases last : (rest.filter q.considers).getLast? with
      | none =>
        rw [List.getLast?_eq_none_iff.mp last]
        rfl
      | some t => rw [List.getLast?_cons,last]; rfl
    · rw [if_neg considered,ih,List.filter_cons_of_neg (by simpa using considered)]

theorem highestEq (q : Query) {list : List Zone} (wf : WellFormed list) : highestFrom q 0 list =
    match q.last list with
    | none => 0
    | some s => if q.kept s < q.start then 0 else q.kept s := by
  have walked := walkSpans (fun l best => highestFrom q best l) q.turn id
    (by
      intro z rest isEnd
      funext best
      cases rest with
      | nil => rfl
      | cons next tail => simp [highestFrom,isEnd])
    (fun z next rest proper nstart above top => highestTurn q proper nstart above top) (suffixWhole wf)
  exact (congrFun walked 0).trans (highestLast q (spans list) 0)

section
variable {list : List Zone} {q : Query} {k : Nat} {s : Span}

theorem lastConsidered (last : q.last list = some s) : s ∈ spans list ∧ q.considers s := by
  have mem := List.mem_of_getLast? last
  exact ⟨(List.mem_filter.mp mem).1,by simpa using (List.mem_filter.mp mem).2⟩

theorem roomSmall (ceiling : q.ceiling < 2^32) (some' : 0 < q.len) (len : q.len < 2^32) : q.room s < 2^32 := by
  unfold Query.room sub32
  split <;> split <;> omega

theorem belowTop (align : q.align = 2^k) (small : k < 32) (ceiling : q.ceiling < 2^32) {a : Nat} (fit : q.FitsIn s a) : a ≤ q.top s := by
  have down := @alignDownOk k (min s.hi q.ceiling - q.len) small (by omega)
  rw [← align] at down
  have := fit.hi
  have := fit.ceiling
  exact down.highest a fit.aligned (by omega)

theorem largeFits (align : q.align = 2^k) (small : k < 32) (ceiling : q.ceiling < 2^32) (large : q.Large s) : q.FitsIn s (q.top s) := by
  have down := @alignDownOk k (min s.hi q.ceiling - q.len) small (by omega)
  rw [← align] at down
  have size := large.size
  have le := down.le
  rw [← Query.top] at le
  exact ⟨large.type,down.aligned,large.start,large.lo,by omega,by omega⟩

theorem fitsLarge (align : q.align = 2^k) (small : k < 32) (ceiling : q.ceiling < 2^32) {a : Nat} (fit : q.FitsIn s a) : q.Large s := by
  have most := belowTop align small ceiling fit
  have := fit.hi
  have := fit.ceiling
  exact ⟨fit.type,by omega,Nat.le_trans fit.lo most,Nat.le_trans fit.start most⟩

theorem fitsBelow (some' : 0 < q.len) {a : Nat} : q.below.FitsIn s a ↔ q.FitsIn s a ∧ a + q.len < q.ceiling := by
  constructor
  · rintro ⟨type,aligned,start,lo,hi,ceiling⟩
    simp only [Query.below] at *
    exact ⟨⟨type,aligned,start,lo,hi,by omega⟩,by omega⟩
  · rintro ⟨⟨type,aligned,start,lo,hi,_⟩,under⟩
    exact ⟨type,aligned,start,lo,hi,by simp only [Query.below]; omega⟩

theorem consideredOf (wf : WellFormed list) (ceiling : q.ceiling < 2^32) {t : Span} {a : Nat} (mem : t ∈ spans list)
    (some' : 0 < q.len) (fit : q.FitsIn t a) (under : a + q.len < q.ceiling) (hi : t.hi ≠ 2^32) : q.considers t := by
  have top := (spanned wf mem).top
  have := fit.hi
  have := fit.lo
  refine ⟨fit.type,?_,?_⟩
  · have := fit.start
    omega
  · rw [add32Eq (by omega)]
    omega

theorem lastBehind (wf : WellFormed list) (last : q.last list = some s) {t : Span} (mem : t ∈ spans list) (considered : q.considers t) :
    ¬s.hi ≤ t.lo := by
  obtain ⟨earlier,eq⟩ := List.getLast?_eq_some_iff.mp last
  have ordered := (spansOrdered wf).filter q.considers
  rw [eq,List.pairwise_append] at ordered
  have here : t ∈ earlier ++ [s] := eq ▸ List.mem_filter.mpr ⟨mem,by simpa using considered⟩
  have nonempty := (spanned wf mem).nonempty
  rcases List.mem_append.mp here with before | same
  · have := ordered.2.2 t before s (by simp)
    have := (spanned wf (lastConsidered last).1).nonempty
    omega
  · obtain rfl := List.mem_singleton.mp same
    omega

theorem beforeKept (wf : WellFormed list) (align : q.align = 2^k) (small : k < 32) (fits : q.room s < 2^32)
    (last : q.last list = some s) {t : Span} {a : Nat} (mem : t ∈ spans list)
    (fit : q.FitsIn t a) (before : ¬s.hi ≤ t.lo) : a ≤ q.kept s := by
  obtain ⟨here,considered⟩ := lastConsidered last
  have hi : t.hi ≤ s.hi := by
    by_cases same : s = t
    · rw [same]
    · have apart := spansApart wf here mem same
      have := (spanned wf here).nonempty
      omega
  have top := (spanned wf here).top
  have below : s.hi % 2^32 = s.hi := by
    have := considered.2.1
    omega
  have down := alignDownOk small fits
  rw [← align] at down
  refine down.highest a fit.aligned ?_
  have := fit.hi
  have := fit.ceiling
  unfold Query.room
  rw [below]
  by_cases under : s.hi < q.ceiling
  · rw [if_pos under,sub32Eq (by omega)]
    omega
  · rw [if_neg under,sub32Eq (by omega)]
    omega

theorem untakenIff (align : q.align = 2^k) (small : k < 32) (ceiling : q.ceiling < 2^32) (some' : 0 < q.len)
    (others : ∀ t ∈ spans list, ∀ a, a ≠ 0 → q.FitsIn t a → a + q.len < q.ceiling → t.hi = 2^32) :
    (∀ t ∈ spans list, ∀ a, a ≠ 0 → q.FitsIn t a → ¬a + q.len < q.ceiling) ↔ q.Untaken list := by
  have lower : q.below.ceiling < 2^32 := Nat.lt_of_le_of_lt (Nat.sub_le _ _) ceiling
  constructor
  · intro full t mem _ large
    by_contra nonzero
    have fit := (fitsBelow some').mp (largeFits (q := q.below) align small lower large)
    exact full t mem _ nonzero fit.1 fit.2
  · intro untaken t mem a nonzero fit under
    have fit' := (fitsBelow some').mpr ⟨fit,under⟩
    have zero := untaken t mem (others t mem a nonzero fit under) (fitsLarge (q := q.below) align small lower fit')
    have := belowTop (q := q.below) align small lower fit'
    omega

theorem largeKept (wf : WellFormed list) (last : q.last list = some s) (large : q.Large s) :
    q.top s = q.kept s := by
  obtain ⟨here,considered⟩ := lastConsidered last
  have top := (spanned wf here).top
  have below : s.hi % 2^32 = s.hi := by
    have := considered.2.1
    omega
  have size := large.size
  rw [Query.top,Query.kept,Query.room,below]
  by_cases under : s.hi < q.ceiling
  · rw [if_pos under,sub32Eq (by omega),Nat.min_eq_left (by omega)]
  · rw [if_neg under,sub32Eq (by omega),Nat.min_eq_right (by omega)]

theorem memmapHighestExact (wf : WellFormed list) (ceiling : q.ceiling < 2^32) (some' : 0 < q.len)
    (len : q.len < 2^32) (align : q.align = 2^k) (small : k < 32) :
    HighestSpec list q (syslinuxMemmapHighest list q) ↔ q.Decided list := by
  have strict {t : Span} {a : Nat} (mem : t ∈ spans list) (fit : q.FitsIn t a) (under : a + q.len < q.ceiling) (hi : t.hi ≠ 2^32) :=
    consideredOf wf ceiling mem some' fit under hi
  unfold syslinuxMemmapHighest Query.Decided
  rw [highestEq q wf]
  cases last : q.last list with
  | none =>
    have others : ∀ t ∈ spans list, ∀ a, a ≠ 0 → q.FitsIn t a → a + q.len < q.ceiling → t.hi = 2^32 := by
      intro t mem a _ fit under
      by_contra hi
      have none' := List.filter_eq_nil_iff.mp (List.getLast?_eq_none_iff.mp last) t mem
      exact none' (by simpa using strict mem fit under hi)
    simp only [if_true]
    rw [← untakenIff align small ceiling some' others]
    constructor
    · intro spec
      exact (spec.none rfl).2
    · intro full
      exact ⟨by simp,fun _ => ⟨rfl,full⟩⟩
  | some s =>
    have before {t : Span} {a : Nat} (mem : t ∈ spans list) (fit : q.FitsIn t a) :=
      beforeKept wf align small (roomSmall ceiling some' len) last mem fit
    have down := @alignDownOk k (q.room s) small (roomSmall ceiling some' len)
    rw [← align,← Query.kept] at down
    simp only
    by_cases nothing : q.kept s = 0 ∨ q.kept s < q.start
    · have others : ∀ t ∈ spans list, ∀ a, a ≠ 0 → q.FitsIn t a → a + q.len < q.ceiling → t.hi = 2^32 := by
        intro t mem a nonzero fit under
        by_contra hi
        have le := before mem fit (lastBehind wf last mem (strict mem fit under hi))
        have := fit.start
        omega
      have zero : (if q.kept s < q.start then 0 else q.kept s) = 0 := by
        split <;> omega
      rw [if_pos nothing,zero,if_pos rfl,← untakenIff align small ceiling some' others]
      exact ⟨fun spec => (spec.none rfl).2,fun full => ⟨by simp,fun _ => ⟨rfl,full⟩⟩⟩
    · rw [if_neg nothing,if_neg (by omega : ¬q.kept s < q.start),if_neg (by omega : ¬q.kept s = 0)]
      constructor
      · intro spec
        obtain ⟨⟨t,mem,fit⟩,most⟩ := spec.found rfl
        simp only at fit
        refine ⟨?_,fun t mem _ large => most t mem _ (largeFits align small ceiling large)⟩
        by_cases same : t = s
        · exact Or.inl (fitsLarge align small ceiling (same ▸ fit))
        · have := fit.hi
          have := fit.ceiling
          exact Or.inr ⟨t,mem,same,fit.type,fit.lo,by omega⟩
      · rintro ⟨place,behind⟩
        refine ⟨fun _ => ⟨?_,?_⟩,by simp⟩
        · rcases place with large | ⟨t,mem,_,type,lo,inside⟩
          · exact ⟨s,(lastConsidered last).1,largeKept wf last large ▸ largeFits align small ceiling large⟩
          · exact ⟨t,mem,type,down.aligned,Nat.le_of_not_lt fun low => nothing (Or.inr low),lo,
              Nat.le_trans inside (Nat.min_le_left _ _),Nat.le_trans inside (Nat.min_le_right _ _)⟩
        · intro t mem a fit
          by_cases later : s.hi ≤ t.lo
          · exact Nat.le_trans (belowTop align small ceiling fit) (behind t mem later (fitsLarge align small ceiling fit))
          · exact before mem fit later

theorem highestRoom (wf : WellFormed list) (ok : (syslinuxMemmapHighest list q).rv = 0) :
    ∃ stop, (syslinuxMemmapHighest list q).start = alignDown (sub32 stop q.len) q.align ∧
      q.start ≤ (syslinuxMemmapHighest list q).start ∧ stop ≤ q.ceiling ∧ (q.start < stop ∨ stop = q.ceiling) := by
  unfold syslinuxMemmapHighest at ok ⊢
  rw [highestEq q wf] at ok ⊢
  cases last : q.last list with
  | none => simp [last] at ok
  | some s =>
    obtain ⟨_,_,above,_⟩ := lastConsidered last
    simp only [last] at ok ⊢
    by_cases early : q.kept s < q.start
    · simp [early] at ok
    by_cases zero : q.kept s = 0
    · simp [zero] at ok
    simp only [if_neg early,if_neg zero]
    refine ⟨if s.hi % 2^32 < q.ceiling then s.hi % 2^32 else q.ceiling,rfl,Nat.le_of_not_lt early,?_,?_⟩
    · split <;> omega
    · split
      · exact Or.inl above
      · exact Or.inr rfl

end

/- The map of the unit test, and its first search. -/
theorem memmapHighestExactFirst :
    let list : List Zone := [⟨0,smtUndefined⟩,⟨0x90000,smtFree⟩,⟨0x92000,smtReserved⟩,⟨0x192000,smtUndefined⟩,
      ⟨0x192001,smtTerminal⟩,⟨0x192022,smtUndefined⟩,⟨0,smtEnd⟩]
    let q : Query := ⟨smtFree,0x90000,0x20,0x192000,1⟩
    syslinuxMemmapHighest list q = ⟨0,0x91fe0⟩ ∧ (HighestSpec list q (syslinuxMemmapHighest list q) ↔ q.Decided list) :=
  ⟨by decide,memmapHighestExact (k := 0) (by simp [WellFormed,Follows]) (by decide) (by decide) (by decide)
    (by decide) (by decide)⟩

/- A free zone too small for the range lies behind one that takes it. -/
theorem memmapHighestOutside :
    ¬ ∀ (list : List Zone) (q : Query) (k : Nat), WellFormed list → q.start < 2^32 → q.ceiling < 2^32 → 0 < q.len →
      q.len < 2^32 → q.align = 2^k → k < 32 → HighestSpec list q (syslinuxMemmapHighest list q) := by
  intro claim
  have spec := claim [⟨0,smtUndefined⟩,⟨0x100000,smtFree⟩,⟨0x200000,smtReserved⟩,⟨0x300000,smtFree⟩,
      ⟨0x301000,smtReserved⟩,⟨0,smtEnd⟩] ⟨smtFree,0x100000,0x80000,0x400000,0x1000⟩ 12
    (by simp [WellFormed,Follows]) (by decide) (by decide) (by decide) (by decide) (by decide) (by decide)
  have answer : syslinuxMemmapHighest [⟨0,smtUndefined⟩,⟨0x100000,smtFree⟩,⟨0x200000,smtReserved⟩,⟨0x300000,smtFree⟩,
      ⟨0x301000,smtReserved⟩,⟨0,smtEnd⟩] ⟨smtFree,0x100000,0x80000,0x400000,0x1000⟩ = ⟨0,0x281000⟩ := by decide
  rw [answer] at spec
  obtain ⟨s,mem,fit⟩ := (spec.found rfl).1
  have type := fit.type
  have lo := fit.lo
  have hi := fit.hi
  simp [spans,zoneEnd] at mem
  rcases mem with rfl | rfl | rfl | rfl | rfl <;> simp at lo hi type

end Syslinux.Zones
