import Mathlib.Tactic

/-! Runs of a system given by a partial step function over events: a run stops short
where an event is not enabled. -/
namespace Syslinux.Runs

section
variable {State Event : Type}

@[grind =] def run (step : State → Event → Option State) : State → List Event → Option State
  | s,[] => some s
  | s,e::events => (step s e).bind (fun s => run step s events)

@[grind =] def Along (step : State → Event → Option State) (cond : State → Event → Prop) : State → List Event → Prop
  | _,[] => True
  | s,e::events => cond s e ∧ match step s e with
      | some s' => Along step cond s' events
      | none => True

instance decidableAlong (step : State → Event → Option State) (cond : State → Event → Prop)
    [∀ s e, Decidable (cond s e)] : ∀ s events, Decidable (Along step cond s events)
  | _,[] => isTrue trivial
  | s,e::events => by
      unfold Along
      have : Decidable (match step s e with
        | some s' => Along step cond s' events
        | none => True) := by
        split
        · exact decidableAlong step cond _ events
        · exact isTrue trivial
      infer_instance

variable {step : State → Event → Option State} {cond : State → Event → Prop} {Inv : State → Prop}

theorem runKeeps (keeps : ∀ s e s', Inv s → cond s e → step s e = some s' → Inv s')
    {s s' : State} {events : List Event} (start : Inv s) (along : Along step cond s events)
    (ok : run step s events = some s') : Inv s' := by
  induction events generalizing s with
  | nil =>
    cases Option.some.inj ok
    exact start
  | cons e events ih =>
    obtain ⟨s1,first,later⟩ := Option.bind_eq_some_iff.mp ok
    obtain ⟨here,after⟩ := along
    rw [first] at after
    exact ih (keeps s e s1 start here first) after later

/- Where the condition is what a step needs to keep the invariant, it says that every state
of the run has it. -/
theorem alongIff (exact' : ∀ s e s', Inv s → step s e = some s' → (cond s e ↔ Inv s'))
    {s s' : State} {events : List Event} (start : Inv s) (ok : run step s events = some s') :
    Along step cond s events ↔ ∀ n s1, run step s (events.take n) = some s1 → Inv s1 := by
  induction events generalizing s with
  | nil =>
    refine iff_of_true trivial fun n s1 here => ?_
    rw [List.take_nil] at here
    cases Option.some.inj here
    exact start
  | cons e events ih =>
    obtain ⟨s1,first,later⟩ := Option.bind_eq_some_iff.mp ok
    rw [Along,first]
    constructor
    · rintro ⟨here,after⟩ n s2 reached
      cases n with
      | zero =>
        cases Option.some.inj reached
        exact start
      | succ n =>
        rw [List.take_succ_cons,run,first] at reached
        exact (ih ((exact' s e s1 start first).mp here) later).mp after n s2 reached
    · intro always
      have inv := always 1 s1 (by rw [List.take_succ_cons,List.take_zero,run,first]; rfl)
      refine ⟨(exact' s e s1 start first).mpr inv,(ih inv later).mpr fun n s2 reached => ?_⟩
      exact always (n + 1) s2 (by rw [List.take_succ_cons,run,first]; exact reached)

theorem alongBoth {other : State → Event → Prop} {s : State} {events : List Event} (along : Along step cond s events)
    (along1 : Along step other s events) : Along step (fun s e => cond s e ∧ other s e) s events := by
  induction events generalizing s with
  | nil => trivial
  | cons e events ih =>
    refine ⟨⟨along.1,along1.1⟩,?_⟩
    have after := along.2
    have after1 := along1.2
    cases first : step s e with
    | none => trivial
    | some s' =>
      rw [first] at after after1
      exact ih after after1

theorem runProgress (steps : ∀ s e, Inv s → cond s e → ∃ s', step s e = some s' ∧ Inv s')
    {s : State} {events : List Event} (start : Inv s) (along : Along step cond s events) :
    ∃ s', run step s events = some s' ∧ Inv s' := by
  induction events generalizing s with
  | nil => exact ⟨s,rfl,start⟩
  | cons e events ih =>
    obtain ⟨here,after⟩ := along
    obtain ⟨s1,first,inv⟩ := steps s e start here
    rw [first] at after
    obtain ⟨s',later,last⟩ := ih inv after
    exact ⟨s',by rw [run,first]; exact later,last⟩

theorem runTotal (steps : ∀ s e, Inv s → ∃ s', step s e = some s' ∧ Inv s') {s : State} (events : List Event)
    (start : Inv s) : ∃ s', run step s events = some s' ∧ Inv s' := by
  induction events generalizing s with
  | nil => exact ⟨s,rfl,start⟩
  | cons e events ih =>
    obtain ⟨s1,first,inv⟩ := steps s e start
    obtain ⟨s',later,last⟩ := ih inv
    exact ⟨s',by rw [run,first]; exact later,last⟩

theorem runInvariant (keeps : ∀ s e s', Inv s → step s e = some s' → Inv s') {s s' : State} {events : List Event}
    (start : Inv s) (ok : run step s events = some s') : Inv s' := by
  induction events generalizing s with
  | nil =>
    cases Option.some.inj ok
    exact start
  | cons e events ih =>
    obtain ⟨s1,first,later⟩ := Option.bind_eq_some_iff.mp ok
    exact ih (keeps s e s1 start first) later

end

section
variable {Process : Type}

def tally (weight : Process → Nat) (processes : List Process) : Nat := (processes.map weight).sum

theorem tallySet (weight : Process → Nat) {processes : List Process} {i : Nat} {a : Process} (b : Process)
    (here : processes[i]? = some a) :
    tally weight (processes.set i b) + weight a = tally weight processes + weight b := by
  induction processes generalizing i with
  | nil => simp at here
  | cons p rest ih =>
    cases i with
    | zero =>
      cases Option.some.inj here
      simp only [tally,List.set_cons_zero,List.map_cons,List.sum_cons]
      omega
    | succ i =>
      have later := ih here
      simp only [tally,List.set_cons_succ,List.map_cons,List.sum_cons] at later ⊢
      omega

theorem tallySnoc (weight : Process → Nat) (processes : List Process) (a : Process) :
    tally weight (processes ++ [a]) = tally weight processes + weight a := by
  simp [tally]

theorem tallyOf (weight : Process → Nat) {processes : List Process} {i : Nat} {a : Process}
    (here : processes[i]? = some a) : weight a ≤ tally weight processes :=
  List.single_le_sum (by simp) _ (List.mem_map_of_mem (List.mem_of_getElem? here))

end
end Syslinux.Runs
