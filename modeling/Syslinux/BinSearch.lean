import Mathlib.Tactic

/-! Binary search by a comparison: `cmp i` has the sign of the element at i against what is
looked for. The result is 0 and a place where it is, or 1 and the place to insert it. -/
namespace Syslinux.BinSearch

def searchLoop (cmp : Nat → Int) : Nat → Nat → Nat → Nat × Nat
  | 0,low,_ => (1,low)
  | turns+1,low,high =>
      if low < high then
        let mid := (low + high) / 2
        if cmp mid < 0 then searchLoop cmp turns (mid + 1) high
        else if 0 < cmp mid then searchLoop cmp turns low mid
        else (0,mid)
      else (1,low)

def search (cmp : Nat → Int) (min max : Nat) : Nat × Nat := searchLoop cmp (max - min) min max

/- The elements of the range ascend: before one that is not above come only ones below. -/
def Ascends (cmp : Nat → Int) (min max : Nat) : Prop :=
  ∀ i j, min ≤ i → i < j → j < max → cmp j ≤ 0 → cmp i < 0

inductive Found (cmp : Nat → Int) (min max : Nat) : Nat × Nat → Prop where
  | here {slot} (above : min ≤ slot) (below : slot < max) (same : cmp slot = 0) : Found cmp min max (0,slot)
  | missing {slot} (above : min ≤ slot) (below : slot ≤ max) (before : ∀ i, min ≤ i → i < slot → cmp i < 0)
      (behind : ∀ i, slot ≤ i → i < max → 0 < cmp i) : Found cmp min max (1,slot)

section
variable {cmp : Nat → Int} {min max : Nat}

theorem searchLoopFound (turns : Nat) {low high : Nat} (enough : high - low ≤ turns) (ordered : low ≤ high)
    (inside : min ≤ low ∧ high ≤ max) (ascends : Ascends cmp min max) (before : ∀ i, min ≤ i → i < low → cmp i < 0)
    (behind : ∀ i, high ≤ i → i < max → 0 < cmp i) : Found cmp min max (searchLoop cmp turns low high) := by
  induction turns generalizing low high with
  | zero =>
    have same : low = high := by omega
    rw [searchLoop]
    exact Found.missing inside.1 (by omega) before fun i above => behind i (by omega)
  | succ turns ih =>
    rw [searchLoop]
    split
    · rename_i less
      have above : low ≤ (low + high) / 2 := by omega
      have below : (low + high) / 2 < high := by omega
      generalize (low + high) / 2 = mid at above below
      simp only
      split
      · rename_i negative
        refine ih (by omega) (by omega) ⟨by omega,inside.2⟩ ?_ behind
        intro i le lt
        rcases Nat.lt_or_eq_of_le (Nat.le_of_lt_succ lt) with earlier | same
        · exact ascends i mid le earlier (by omega) (by omega)
        · rw [same]; exact negative
      · rename_i notBelow
        split
        · rename_i positive
          refine ih (by omega) (by omega) ⟨inside.1,by omega⟩ before ?_
          intro i le lt
          by_contra notAbove
          rcases Nat.lt_or_eq_of_le le with later | same
          · exact notBelow (ascends mid i (by omega) later lt (by omega))
          · rw [← same] at notAbove
            exact notAbove positive
        · exact Found.here (by omega) (by omega) (by omega)
    · have same : low = high := by omega
      exact Found.missing inside.1 (by omega) before fun i above => behind i (by omega)

theorem searchFound (ordered : min ≤ max) (ascends : Ascends cmp min max) : Found cmp min max (search cmp min max) :=
  searchLoopFound _ (Nat.le_refl _) ordered ⟨Nat.le_refl _,Nat.le_refl _⟩ ascends (fun i _ _ => by omega)
    (fun i _ _ => by omega)

theorem searchAllAbove (above : ∀ i, min ≤ i → i < max → 0 < cmp i) : search cmp min max = (1,min) := by
  by_cases ordered : min ≤ max
  · have ascends : Ascends cmp min max := by
      intro i j le lt inside notAbove
      have := above j (by omega) inside
      omega
    have found := searchFound ordered ascends
    cases eq : search cmp min max with
    | mk ret slot =>
      rw [eq] at found
      cases found with
      | here le lt same =>
        have := above slot le lt
        omega
      | missing le lt before behind =>
        have first : slot = min := by
          by_contra later
          have := before min (Nat.le_refl _) (by omega)
          have := above min (Nat.le_refl _) (by omega)
          omega
        rw [first]
  · rw [search,show max - min = 0 by omega,searchLoop]

end
end Syslinux.BinSearch
