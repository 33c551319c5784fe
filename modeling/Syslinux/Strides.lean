import Mathlib.Algebra.BigOperators.Group.Finset.Basic
import Syslinux.Loops
import Syslinux.Machine

/-! Loops that go from place to place, each place the next of the one before, as long as the places
are passed by. Such a loop comes to an end just when no place comes up again. Where the next
place lies a length further, in memory of 32 bits, this is about the lengths. -/
namespace Syslinux.Strides
open Relation (ReflTransGen TransGen)
open Loops

section
variable {α : Type} (next : α → α) (pass : α → Prop) (start : α)

def Comes (k : Nat) : Prop := ∀ j < k, pass (next^[j] start)

def Reached (a : α) : Prop := ∃ k, Comes next pass start k ∧ next^[k] start = a

def Distinct : Prop := ∀ k n, 0 < n → Comes next pass start (k + n) → next^[k + n] start ≠ next^[k] start

variable {next pass start} {β : Type} {step : α → β ⊕ α → Prop} {a b : α} {k n : Nat}

theorem comesLess (comes : Comes next pass start k) (le : n ≤ k) : Comes next pass start n :=
  fun j less => comes j (by omega)

theorem comesNext (comes : Comes next pass start k) (more : pass (next^[k] start)) : Comes next pass start (k + 1) := by
  intro j less
  rcases Nat.lt_succ_iff_lt_or_eq.1 less with less | rfl
  · exact comes j less
  · exact more

theorem reachedOnly (first : Reached next pass start a) (stop : ¬ pass a) (first' : Reached next pass start b) (stop' : ¬ pass b) :
    a = b := by
  obtain ⟨k,comes,rfl⟩ := first
  obtain ⟨n,comes',rfl⟩ := first'
  rcases Nat.lt_trichotomy k n with less | rfl | less
  · exact absurd (comes' k less) stop
  · rfl
  · exact absurd (comes n less) stop'

section
variable (goes : ∀ c d, Goes step c d ↔ pass c ∧ d = next c)
include goes

theorem goesReach : ReflTransGen (Goes step) start a ↔ Reached next pass start a := by
  constructor
  · intro reach
    induction reach with
    | refl => exact ⟨0,fun j less => by omega,rfl⟩
    | tail _ last ih =>
      obtain ⟨k,comes,rfl⟩ := ih
      obtain ⟨more,rfl⟩ := (goes _ _).1 last
      exact ⟨k + 1,comesNext comes more,Function.iterate_succ_apply' next k start⟩
  · rintro ⟨k,comes,rfl⟩
    induction k with
    | zero => exact .refl
    | succ k ih =>
      refine .tail (ih (comesLess comes (Nat.le_succ k))) ((goes _ _).2 ⟨comes k (Nat.lt_succ_self k),?_⟩)
      exact Function.iterate_succ_apply' next k start

theorem goesAgain (comes : Comes next pass start k) : TransGen (Goes step) (next^[k] start) a ↔
    ∃ n, 0 < n ∧ Comes next pass start (k + n) ∧ next^[k + n] start = a := by
  have shift (j : Nat) : next^[j] (next^[k] start) = next^[k + j] start := by
    rw [Nat.add_comm k j,Function.iterate_add_apply]
  constructor
  · intro path
    obtain ⟨last,reach,go⟩ := TransGen.tail'_iff.1 path
    obtain ⟨j,comes',rfl⟩ := (goesReach goes).1 reach
    obtain ⟨more,rfl⟩ := (goes _ _).1 go
    rw [shift] at more ⊢
    refine ⟨j + 1,by omega,fun i less => ?_,Function.iterate_succ_apply' next (k + j) start⟩
    rcases Nat.lt_or_ge i k with before | behind
    · exact comes i before
    obtain ⟨d,rfl⟩ := Nat.exists_eq_add_of_le behind
    rcases Nat.lt_or_ge d j with less' | last
    · rw [← shift]
      exact comes' d less'
    · rw [show d = j by omega]
      exact more
  · rintro ⟨n,some',comes',rfl⟩
    obtain ⟨j,rfl⟩ : ∃ j, n = j + 1 := ⟨n - 1,by omega⟩
    refine TransGen.tail'_iff.2 ⟨next^[k + j] start,(goesReach goes).2 ⟨j,fun i less => ?_,shift j⟩,(goes _ _).2 ⟨?_,?_⟩⟩
    · rw [shift]
      exact comes' _ (by omega)
    · exact comes' _ (by omega)
    · exact Function.iterate_succ_apply' next (k + j) start

theorem noReturnDistinct : NoReturn step start ↔ Distinct next pass start := by
  constructor
  · intro never k n some' comes again
    have comesK := comesLess comes (Nat.le_add_right k n)
    exact never _ ((goesReach goes).2 ⟨k,comesK,rfl⟩) ((goesAgain goes comesK).2 ⟨n,some',comes,again⟩)
  · intro distinct b reach again
    obtain ⟨k,comes,rfl⟩ := (goesReach goes).1 reach
    obtain ⟨n,some',comes',same⟩ := (goesAgain goes comes).1 again
    exact distinct k n some' comes' same

theorem stopsReached (b : β) : Stops step start b ↔ ∃ a, Reached next pass start a ∧ step a (.inl b) :=
  exists_congr fun _ => and_congr_left fun _ => goesReach goes

end

def stride (pass : α → Prop) [DecidablePred pass] (next : α → α) (result : α → β) (a : α) : β ⊕ α :=
  if pass a then .inr (next a) else .inl (result a)

variable [DecidablePred pass] {result : α → β}

theorem strideGoes (c d : α) : Goes (Plain (stride pass next result)) c d ↔ pass c ∧ d = next c := by
  unfold Goes Plain stride
  split_ifs with more
  · simp [more,eq_comm]
  · simp [more]

theorem strideGives {b : β} : Gives (fun n => loop (fun c => some (stride pass next result c)) n start) b ↔
    ∃ a, Reached next pass start a ∧ ¬ pass a ∧ result a = b := by
  rw [loopGives (fun c => lastingConst (some _)) fun _ _ => givesConst.trans Option.some_inj]
  refine (stopsReached strideGoes b).trans (exists_congr fun a => and_congr_right fun _ => ?_)
  unfold Plain stride
  split_ifs with more
  · simp [more]
  · simp [more]

end

section
variable (len : Nat → Nat) (pass : Nat → Prop) (start : Nat)

def further (a : Nat) : Nat := add32 a (len a)

/- No stretch of places that are passed by leads back to where it begins: none has the length 0, and the
lengths of none add up to all of the memory. -/
def Advances : Prop := ∀ k n, 0 < n → Comes (further len) pass start (k + n) →
  add32 ((further len)^[k] start) (∑ j ∈ Finset.range n, len ((further len)^[k + j] start)) ≠ (further len)^[k] start

variable {len pass start}

theorem stretch (k : Nat) {n : Nat} (some' : 0 < n) : (further len)^[k + n] start =
    add32 ((further len)^[k] start) (∑ j ∈ Finset.range n, len ((further len)^[k + j] start)) := by
  obtain ⟨n,rfl⟩ : ∃ m, n = m + 1 := ⟨n - 1,by omega⟩
  induction n with
  | zero => rw [Finset.sum_range_one,Function.iterate_succ_apply']; rfl
  | succ n ih =>
    have last := congrArg (fun place => add32 place (len ((further len)^[k + (n + 1)] start))) (ih (by omega))
    rw [← Nat.add_assoc k (n + 1) 1,Function.iterate_succ_apply',further,Finset.sum_range_succ]
    refine last.trans ?_
    unfold add32
    rw [Nat.mod_add_mod,Nat.add_assoc]

theorem advancesDistinct : Advances len pass start ↔ Distinct (further len) pass start := by
  refine forall₄_congr fun k n some' _ => ?_
  rw [stretch k some']

theorem lengthZero {k : Nat} (comes : Comes (further len) pass start (k + 1)) (small : (further len)^[k] start < 2^32)
    (zero : len ((further len)^[k] start) = 0) : ¬ Advances len pass start := by
  intro advances
  refine advances k 1 Nat.one_pos comes ?_
  rw [Finset.sum_range_one,Nat.add_zero,zero,add32,Nat.add_zero,Nat.mod_eq_of_lt small]

theorem strideAnswers {β : Type} [DecidablePred pass] {result : Nat → β} :
    Answers (fun n => loop (fun c => some (stride pass (further len) result c)) n start) ↔ Advances len pass start := by
  have small : ∀ c d, Goes (Plain (stride pass (further len) result)) c d → d < 2^32 := by
    intro c d go
    rw [((strideGoes c d).1 go).2]
    exact Nat.mod_lt _ (by norm_num)
  rw [plainAnswers (numbersFinite _ small _),noReturnDistinct strideGoes,advancesDistinct]

end
end Syslinux.Strides
