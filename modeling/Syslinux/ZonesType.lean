import Syslinux.Zones

/-! What syslinux_memmap_type answers. The zone in which the region ends is returned as
SMT_TERMINAL without a look at its own type, so a region that runs from usable memory into
memory of another type is reported usable. -/
namespace Syslinux.Zones
open Zonelist Zonelist.MemmapType Movebits

structure TypeSpec (list : List Zone) (start len : Nat) (answer : MemmapType) : Prop where
  uniform : ∀ t, (∀ a, start ≤ a → a < start + len → typeAt list a = t) → answer = t
  demoted : (∀ a, start ≤ a → a < start + len → typeAt list a = smtFree ∨ typeAt list a = smtTerminal) →
    (∃ a, start ≤ a ∧ a < start + len ∧ typeAt list a = smtFree) →
    (∃ a, start ≤ a ∧ a < start + len ∧ typeAt list a = smtTerminal) → answer = smtTerminal
  mixed : ¬(∃ t, ∀ a, start ≤ a → a < start + len → typeAt list a = t) →
    ¬((∀ a, start ≤ a → a < start + len → typeAt list a = smtFree ∨ typeAt list a = smtTerminal) ∧
      (∃ a, start ≤ a ∧ a < start + len ∧ typeAt list a = smtFree) ∧
      ∃ a, start ≤ a ∧ a < start + len ∧ typeAt list a = smtTerminal) → answer = smtError

/- Usable bytes, and behind them bytes of one other type up to the end of the region. -/
def EndsOutside (list : List Zone) (start len : Nat) : Prop :=
  ∃ m t, start < m ∧ m < start + len ∧ (∀ a, start ≤ a → a < m → validTerminalType (typeAt list a) = true) ∧
    validTerminalType t = false ∧ ∀ a, m ≤ a → a < start + len → typeAt list a = t

theorem neighboursDiffer {whole z next rest} (suffix : Suffix whole (z::next::rest)) (proper : z.type ≠ smtEnd)
    (below : zoneEnd next < 2^32) : next.type ≠ smtEnd ∧ next.type ≠ z.type ∧ next.start = zoneEnd next := by
  have nproper : next.type ≠ smtEnd := by
    intro isEnd
    simp [zoneEnd,isEnd] at below
  obtain ⟨_,n,t,eq,_,_,_,start,_⟩ := suffixNext suffix proper
  cases eq
  refine ⟨nproper,?_,start nproper⟩
  rcases suffix with ⟨stop,_⟩ | ⟨_,_,follows,_⟩
  · exact absurd (by rw [stop]) proper
  · rcases follows with ⟨stop,_⟩ | ⟨_,differ,_⟩
    · exact absurd (by rw [stop]) nproper
    · exact differ

/- The two ways out of the inner loop, seen from a byte of the zone it starts in. -/
inductive Crossed (list : List Zone) (first last : Nat) : MemmapType → Prop where
  | terminal {m t} (above : first < m) (reached : m ≤ last)
      (usable : ∀ a, first ≤ a → a < m → validTerminalType (typeAt list a) = true)
      (rest : ∀ a, m ≤ a → a ≤ last → typeAt list a = t) (differ : typeAt list (m - 1) ≠ t) :
      Crossed list first last smtTerminal
  | error {a} (above : first ≤ a) (before : a < last) (other : validTerminalType (typeAt list a) = false)
      (differ : typeAt list (a + 1) ≠ typeAt list a) : Crossed list first last smtError

theorem crossingOk {whole z next tail last first} (suffix : Suffix whole (z::next::tail)) (proper : z.type ≠ smtEnd)
    (bound : last < 2^32) (short : zoneEnd next ≤ last) (low : z.start ≤ first) (inside : first < zoneEnd next) :
    Crossed whole first last (crossing last (z::next::tail)) := by
  induction tail generalizing z next first with
  | nil =>
    have ends := (suffixNext suffix proper).1
    obtain ⟨nproper,_,_⟩ := neighboursDiffer suffix proper (by omega)
    obtain ⟨_,_,_,eq,_⟩ := suffixNext ends nproper
    exact absurd eq (by simp)
  | cons after tail ih =>
    obtain ⟨later,n,t,eq,above,_,types,_⟩ := suffixNext suffix proper
    cases eq
    obtain ⟨nproper,differ,start⟩ := neighboursDiffer suffix proper (by omega)
    obtain ⟨_,n,t,eq,above',_,types',_⟩ := suffixNext later nproper
    cases eq
    have firstType : ∀ a, first ≤ a → a < zoneEnd next → typeAt whole a = z.type :=
      fun a from' upto => types a (by omega) upto
    have boundary : typeAt whole (zoneEnd next) = next.type := by
      rw [← start]
      exact types' next.start (Nat.le_refl _) (by omega)
    have lastByte : typeAt whole (zoneEnd next - 1) = z.type := firstType _ (by omega) (by omega)
    rw [crossing]
    cases usable : validTerminalType z.type with
    | false =>
      refine .error (a := zoneEnd next - 1) (by omega) (by omega) ?_ ?_
      · rw [lastByte]
        exact usable
      · rw [show zoneEnd next - 1 + 1 = zoneEnd next by omega,boundary,lastByte]
        exact differ
    | true =>
      have ends : runEnds last (after::tail) = true ↔ last < zoneEnd after := runEndsOk later nproper bound
      rw [if_pos rfl]
      by_cases reached : last < zoneEnd after
      · rw [List.tail_cons,ends.mpr reached,if_pos rfl]
        refine .terminal (m := zoneEnd next) (t := next.type) inside short ?_ ?_ ?_
        · intro a from' upto
          rw [firstType a from' upto]
          exact usable
        · intro a from' upto
          exact types' a (by omega) (by omega)
        · rw [lastByte]
          exact differ.symm
      · rw [List.tail_cons,if_neg (fun h => reached (ends.mp h))]
        have crossed := ih later nproper (Nat.le_of_not_lt reached) (Nat.le_refl next.start) (by omega)
        generalize crossing last (next::after::tail) = answer at crossed
        cases crossed with
        | @terminal m t past reach usables rest differs =>
          refine .terminal (m := m) (t := t) (by omega) reach ?_ rest differs
          intro a from' upto
          by_cases early : a < zoneEnd next
          · rw [firstType a from' early]
            exact usable
          · exact usables a (by omega) upto
        | @error a past before other differs =>
          exact .error (a := a) (by omega) before other differs

inductive Walked (list : List Zone) (start last : Nat) : MemmapType → Prop where
  | inside {t} (whole : ∀ a, start ≤ a → a ≤ last → typeAt list a = t) : Walked list start last t
  | crossed {t} (past : Crossed list start last t) : Walked list start last t

theorem memmapTypeFromOk {whole list start last} (suffix : Suffix whole list) (span : start ≤ last)
    (bound : last < 2^32) (low : ∀ z rest, list = z::rest → z.type ≠ smtEnd ∧ z.start ≤ start) :
    Walked whole start last (memmapTypeFrom start last list) := by
  induction list with
  | nil => exact absurd suffix (by simp [Suffix])
  | cons z rest ih =>
    obtain ⟨proper,below⟩ := low z rest rfl
    obtain ⟨later,next,tail,eq,above,top,types,nstart,nend⟩ := suffixNext suffix proper
    subst eq
    have ends : ∀ {l}, l < 2^32 → (runEnds l (next::tail) = true ↔ l < zoneEnd next) := runEndsOk suffix proper
    rw [memmapTypeFrom,if_neg proper]
    by_cases all : last < zoneEnd next
    · rw [if_pos ⟨below,(ends bound).mpr all⟩]
      exact .inside (fun a from' upto => types a (by omega) (by omega))
    · rw [if_neg (fun h => all ((ends bound).mp h.2))]
      by_cases reached : start < zoneEnd next
      · rw [if_pos ⟨below,(ends (by omega)).mpr reached⟩]
        exact .crossed (crossingOk suffix proper bound (Nat.le_of_not_lt all) below reached)
      · rw [if_neg (fun h => reached ((ends (by omega)).mp h.2))]
        refine ih later ?_
        intro y rest' eq
        cases eq
        have nproper : next.type ≠ smtEnd := by
          intro isEnd
          simp [zoneEnd,isEnd] at reached
          omega
        exact ⟨nproper,by rw [nstart nproper]; omega⟩

theorem walkedOf {list start len} (wf : WellFormed list) (some' : 0 < len) (fits : start + len ≤ 2^32) :
    Walked list start (start + len - 1) (syslinuxMemmapType list start len) := by
  rw [syslinuxMemmapType,lastOf some' fits]
  refine memmapTypeFromOk (suffixWhole wf) (by omega) (by omega) ?_
  rintro z rest rfl
  obtain ⟨zero,proper,_⟩ := wf
  exact ⟨proper,by omega⟩

theorem usableIff {t : MemmapType} : validTerminalType t = true ↔ t = smtFree ∨ t = smtTerminal := by
  simp [validTerminalType]

theorem memmapTypeExact {list start len} (wf : WellFormed list) (some' : 0 < len) (fits : start + len ≤ 2^32) :
    TypeSpec list start len (syslinuxMemmapType list start len) ↔ ¬EndsOutside list start len := by
  have walked := walkedOf wf some' fits
  generalize syslinuxMemmapType list start len = answer at walked
  cases walked with
  | inside whole =>
    have same : ∀ a, start ≤ a → a < start + len → typeAt list a = answer :=
      fun a from' upto => whole a from' (by omega)
    constructor
    · rintro _ ⟨m,t,above,below,usable,other,rest⟩
      have first := usable start (Nat.le_refl _) above
      rw [same start (Nat.le_refl _) (by omega)] at first
      have last := rest m (Nat.le_refl _) below
      rw [same m (by omega) below] at last
      rw [last,other] at first
      contradiction
    · intro _
      refine ⟨?_,?_,?_⟩
      · intro t all
        rw [← same start (Nat.le_refl _) (by omega)]
        exact all start (Nat.le_refl _) (by omega)
      · rintro _ _ ⟨a,from',upto,type⟩
        rw [← same a from' upto,type]
      · intro none' _
        exact absurd ⟨answer,same⟩ none'
  | crossed past =>
    cases past with
    | @terminal m t above reached usable rest differ =>
      have notUniform : ¬∃ t, ∀ a, start ≤ a → a < start + len → typeAt list a = t := by
        rintro ⟨u,all⟩
        refine differ ?_
        rw [all (m - 1) (by omega) (by omega),← rest m (Nat.le_refl _) reached]
        exact (all m (by omega) (by omega)).symm
      cases ends : validTerminalType t with
      | false =>
        constructor
        · intro spec
          have outside : ¬∀ a, start ≤ a → a < start + len → typeAt list a = smtFree ∨ typeAt list a = smtTerminal := by
            intro all
            have last := all m (by omega) (by omega)
            rw [rest m (Nat.le_refl _) reached] at last
            rw [usableIff.2 last] at ends
            contradiction
          exact absurd (spec.mixed notUniform (fun h => outside h.1)) (by decide)
        · intro none'
          exact absurd ⟨m,t,above,by omega,usable,ends,fun a from' upto => rest a from' (by omega)⟩ none'
      | true =>
        have all : ∀ a, start ≤ a → a < start + len → validTerminalType (typeAt list a) = true := by
          intro a from' upto
          by_cases early : a < m
          · exact usable a from' early
          · rw [rest a (by omega) (by omega)]
            exact ends
        have both : (∃ a, start ≤ a ∧ a < start + len ∧ typeAt list a = smtFree) ∧
            ∃ a, start ≤ a ∧ a < start + len ∧ typeAt list a = smtTerminal := by
          have here := rest m (Nat.le_refl _) reached
          rcases usableIff.1 (usable (m - 1) (by omega) (by omega)) with free | terminal
          · rcases usableIff.1 ends with same | other
            · exact absurd (free.trans same.symm) differ
            · exact ⟨⟨m - 1,by omega,by omega,free⟩,⟨m,by omega,by omega,here.trans other⟩⟩
          · rcases usableIff.1 ends with other | same
            · exact ⟨⟨m,by omega,by omega,here.trans other⟩,⟨m - 1,by omega,by omega,terminal⟩⟩
            · exact absurd (terminal.trans same.symm) differ
        constructor
        · rintro _ ⟨m',t',above',below',_,other,rest'⟩
          have last := all m' (by omega) below'
          rw [rest' m' (Nat.le_refl _) below',other] at last
          contradiction
        · intro _
          refine ⟨?_,fun _ _ _ => rfl,?_⟩
          · intro u same
            exact absurd ⟨u,same⟩ notUniform
          · intro _ notBoth
            exact absurd ⟨fun a from' upto => usableIff.1 (all a from' upto),both⟩ notBoth
    | @error a above before other differ =>
      constructor
      · rintro _ ⟨m,t,_,below,usable,_,rest⟩
        -- an unusable byte lies in the last stretch, which is of one type
        have inRest : m ≤ a := by
          by_contra early
          have fine := usable a above (by omega)
          rw [other] at fine
          contradiction
        exact differ ((rest (a + 1) (by omega) (by omega)).trans (rest a inRest (by omega)).symm)
      · intro _
        refine ⟨?_,?_,fun _ _ => rfl⟩
        · intro t all
          exact absurd ((all (a + 1) (by omega) (by omega)).trans (all a above (by omega)).symm) differ
        · intro all _ _
          have fine := usableIff.2 (all a above (by omega))
          rw [other] at fine
          contradiction

/- The map of the unit test, and its region over three zones. -/
theorem memmapTypeExactDemoted :
    let list : List Zone := [⟨0,smtUndefined⟩,⟨0x100000,smtTerminal⟩,⟨0x400000,smtFree⟩,⟨0x720000,smtTerminal⟩,
      ⟨0x740000,smtUndefined⟩,⟨0,smtEnd⟩]
    TypeSpec list 0x100000 0x640000 (syslinuxMemmapType list 0x100000 0x640000) ↔ ¬EndsOutside list 0x100000 0x640000 :=
  memmapTypeExact (by simp [WellFormed,Follows]) (by decide) (by decide)

theorem memmapTypeMissesReserved :
    ¬ ∀ (list : List Zone) (start len : Nat), WellFormed list → 0 < len → start + len ≤ 2^32 →
      TypeSpec list start len (syslinuxMemmapType list start len) := by
  intro claim
  have spec := claim [⟨0,smtUndefined⟩,⟨0x100000,smtFree⟩,⟨0x200000,smtReserved⟩,⟨0,smtEnd⟩] 0x1ff000 0x2000
    (by simp [WellFormed,Follows]) (by decide) (by decide)
  have error := spec.mixed (by
    rintro ⟨t,all⟩
    have first := all 0x1ff000 (by decide) (by decide)
    have last := all 0x200000 (by decide) (by decide)
    exact absurd (first.trans last.symm) (by decide)) (by
    rintro ⟨all,_⟩
    exact absurd (all 0x200000 (by decide) (by decide)) (by decide))
  exact absurd error (by decide)

end Syslinux.Zones
