import Mathlib.Tactic

/-! Walks from state to state by a partial function: a walk is over where there is no next
state. Among finitely many states it is over just when none comes up twice. -/
namespace Syslinux.Walk

section
variable {α : Type}

@[grind =] def state (next : α → Option α) (a : α) : Nat → Option α
  | 0 => some a
  | n+1 => (state next a n).bind next

def Ends (next : α → Option α) (a : α) : Prop := ∃ n, state next a n = none

def NoRepeat (next : α → Option α) (a : α) : Prop :=
  ∀ i j b, i < j → state next a i = some b → state next a j ≠ some b

variable {next : α → Option α} {a b : α}

theorem stateAdd {n : Nat} (here : state next a n = some b) (m : Nat) : state next a (n + m) = state next b m := by
  induction m with
  | zero => exact here
  | succ m ih => rw [← Nat.add_assoc,state,state,ih]

theorem stateNext (step : next a = some b) (n : Nat) : state next a (n + 1) = state next b n := by
  have one : state next a 1 = some b := by simp [state,step]
  rw [Nat.add_comm]
  exact stateAdd one n

theorem noneLater {n m : Nat} (none' : state next a n = none) (le : n ≤ m) : state next a m = none := by
  obtain ⟨k,rfl⟩ := Nat.exists_eq_add_of_le le
  clear le
  induction k with
  | zero => exact none'
  | succ k ih => rw [← Nat.add_assoc,state,ih]; rfl

theorem endsStop (stop : next a = none) : Ends next a := ⟨1,by simp [state,stop]⟩

theorem endsNext (step : next a = some b) : Ends next a ↔ Ends next b := by
  constructor
  · rintro ⟨n,none'⟩
    refine ⟨n,?_⟩
    rw [← stateNext step]
    exact noneLater none' (Nat.le_succ n)
  · rintro ⟨n,none'⟩
    exact ⟨n + 1,by rw [stateNext step,none']⟩

theorem endsLater (ends : Ends next a) {n : Nat} (here : state next a n = some b) : Ends next b := by
  obtain ⟨m,none'⟩ := ends
  exact ⟨m,by rw [← stateAdd here]; exact noneLater none' (by omega)⟩

theorem cycleStays {p : Nat} (back : state next a p = some a) (k : Nat) : state next a (k*p) = some a := by
  induction k with
  | zero => rw [Nat.zero_mul]; rfl
  | succ k ih => rw [Nat.succ_mul,stateAdd ih,back]

theorem endsNoRepeat (ends : Ends next a) : NoRepeat next a := by
  intro i j b less first second
  obtain ⟨n,none'⟩ := endsLater ends first
  have back : state next b (j - i) = some b := by
    rw [← stateAdd first,Nat.add_sub_cancel' (Nat.le_of_lt less)]
    exact second
  have more : n ≤ n*(j - i) := Nat.le_mul_of_pos_right n (by omega)
  have stays := cycleStays back n
  rw [noneLater none' more] at stays
  contradiction

theorem noRepeatEnds {states : Set α} (finite : states.Finite) (inside : ∀ n b, state next a n = some b → b ∈ states)
    (distinct : NoRepeat next a) : Ends next a := by
  by_contra forever
  have some' : ∀ n, ∃ b, state next a n = some b := by
    intro n
    exact Option.ne_none_iff_exists'.mp fun none' => forever ⟨n,none'⟩
  choose walk here using some'
  have : Finite states := finite
  obtain ⟨i,j,other,same⟩ := Finite.exists_ne_map_eq_of_infinite fun n => (⟨walk n,inside n _ (here n)⟩ : states)
  have same : walk i = walk j := congrArg Subtype.val same
  rcases Nat.lt_or_gt_of_ne other with less | less
  · exact distinct i j _ less (here i) (by rw [here j,same])
  · exact distinct j i _ less (here j) (by rw [here i,same])

theorem measureEnds {Inv : α → Prop} (measure : α → Nat)
    (falls : ∀ b c, Inv b → next b = some c → measure c < measure b ∧ Inv c) (start : Inv a) : Ends next a := by
  induction at' : measure a using Nat.strong_induction_on generalizing a with
  | _ n ih =>
    cases step : next a with
    | none => exact endsStop step
    | some b =>
      obtain ⟨less,inv⟩ := falls a b start step
      exact (endsNext step).mpr (ih (measure b) (by omega) inv rfl)

end
end Syslinux.Walk
