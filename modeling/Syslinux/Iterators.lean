import Mathlib.Tactic

/-! Resumable iterators over any type of state. A call either stops with a status or yields an
entry; `none` is a call without a result. One iterator may pass over entries another one yields. -/
namespace Syslinux.Iterators

inductive Answer (State Entry Status : Type) where
  | stop (s : Status)
  | yield (next : State) (e : Entry)

section
variable {C E S : Type} {next : C → Option (Answer C E S)} {keep : E → Bool}
variable {c c' : C} {es : List E} {s : S}

inductive Runs (next : C → Option (Answer C E S)) : C → List E → S → Prop where
  | stop {c : C} {s : S} : next c = some (.stop s) → Runs next c [] s
  | more {c c' : C} {e : E} {es : List E} {s : S} :
      next c = some (.yield c' e) → Runs next c' es s → Runs next c (e::es) s

theorem Runs.congr (same : next c = next c') (runs : Runs next c' es s) : Runs next c es s := by
  cases runs with
  | stop here => exact .stop (same.trans here)
  | more here later => exact .more (same.trans here) later

/- Two runs side by side, the second of which goes on past an entry it does not keep. A measure
that falls with every entry of the first brings both to their stop. -/
theorem Runs.filtered {R : C → C → Prop} (measure : C → Nat)
    (visit : ∀ a b, R a b → (∃ s, next a = some (.stop s) ∧ next b = some (.stop s)) ∨
      ∃ a' e b', next a = some (.yield a' e) ∧ measure a' < measure a ∧ R a' b' ∧
        next b = if keep e then some (.yield b' e) else next b')
    {a b : C} (related : R a b) : ∃ es s, Runs next a es s ∧ Runs next b (es.filter keep) s := by
  induction size : measure a using Nat.strong_induction_on generalizing a b with
  | _ n ih =>
    rcases visit a b related with ⟨s,here,there⟩ | ⟨a',e,b',here,smaller,related',there⟩
    · exact ⟨[],s,.stop here,.stop there⟩
    obtain ⟨es,s,later,rest⟩ := ih (measure a') (by omega) related' rfl
    refine ⟨e::es,s,.more here later,?_⟩
    cases kept : keep e with
    | true =>
      rw [List.filter_cons_of_pos kept]
      exact .more (by rw [there,if_pos kept]) rest
    | false =>
      rw [List.filter_cons_of_neg (by simp [kept])]
      exact rest.congr (by rw [there,if_neg (by simp [kept])])

end
end Syslinux.Iterators
