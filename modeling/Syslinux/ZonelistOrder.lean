import Syslinux.Zonelist

/-! The order of the zone list, which syslinux_add_memmap keeps whether its mallocs succeed
or not. Neighbours may have the same type once a token was lost. -/
namespace Syslinux.Zonelist
open MemmapType

def Rising (low : Nat) : List Zone → Prop
  | [] => False
  | z::rest => (z = ⟨0,smtEnd⟩ ∧ rest = []) ∨
      (z.type ≠ smtEnd ∧ low ≤ z.start ∧ z.start < 2^32 ∧ Rising (z.start + 1) rest)

def Ordered : List Zone → Prop
  | [] => False
  | z::rest => z.start = 0 ∧ z.type ≠ smtEnd ∧ Rising 1 rest

theorem followsRising {low previous list} (h : Follows low previous list) : Rising (low + 1) list := by
  induction list generalizing low previous with
  | nil => exact h
  | cons z rest ih =>
    rcases h with stop | ⟨proper,_,above,bound,next⟩
    · exact Or.inl stop
    · exact Or.inr ⟨proper,above,bound,ih next⟩

theorem wellFormedOrdered {list} (wf : WellFormed list) : Ordered list := by
  cases list with
  | nil => exact wf
  | cons z rest => exact ⟨wf.1,wf.2.1,followsRising wf.2.2⟩

section
variable {mallocs : List Bool} {low low' start last len : Nat} {type old : MemmapType} {here list : List Zone}

theorem risingWeaken (h : Rising low here) (le : low' ≤ low) : Rising low' here := by
  cases here with
  | nil => exact h
  | cons z rest =>
    rcases h with stop | ⟨proper,above,bound,next⟩
    · exact Or.inl stop
    · exact Or.inr ⟨proper,by omega,bound,next⟩

theorem dropRising (bound : last < 2^32) (first : 1 ≤ low) (proper : old ≠ smtEnd) (h : Rising low here) :
    (dropCovered last old here).1 ≠ smtEnd ∧ Rising (last + 1) (dropCovered last old here).2 := by
  induction here generalizing low old with
  | nil => exact absurd h (by simp [Rising])
  | cons z rest ih =>
    rcases h with ⟨rfl,rfl⟩ | ⟨ztype,above,zbound,next⟩
    · have keep : ¬ sub32 0 1 < last := by unfold sub32; split <;> omega
      rw [dropCovered,if_neg keep]
      exact ⟨proper,Or.inl ⟨rfl,rfl⟩⟩
    · have back : sub32 z.start 1 = z.start - 1 := sub32Eq (by omega)
      rw [dropCovered,back]
      split
      · exact ih (by omega) ztype next
      · exact ⟨proper,Or.inr ⟨ztype,by omega,zbound,next⟩⟩

theorem endTokenRising (bound : last < 2^32) (given : type ≠ smtEnd) (first : 1 ≤ low) (reach : low ≤ last + 1)
    (proper : old ≠ smtEnd) (h : Rising low here) : Rising low (endToken last type mallocs old here).list := by
  obtain ⟨oldProper,left⟩ := dropRising bound first proper h
  rcases eq : dropCovered last old here with ⟨old',mps⟩
  rw [eq] at oldProper left
  unfold endToken
  rw [eq]
  cases mps with
  | nil => exact absurd left (by simp [Rising])
  | cons mp rest =>
    have kept := risingWeaken left reach
    simp only
    split
    · rename_i gap
      have room : last + 1 < 2^32 := by
        rcases left with ⟨rfl,_⟩ | ⟨_,_,_,_⟩
        · simp only at gap
          unfold sub32 at gap
          split at gap <;> omega
        · unfold sub32 at gap
          split at gap <;> omega
      have beyond : Rising (last + 1 + 1) (mp::rest) := by
        rcases left with stop | ⟨mtype,above,mbound,next⟩
        · exact Or.inl stop
        · rw [sub32Eq (by omega)] at gap
          exact Or.inr ⟨mtype,by omega,mbound,next⟩
      split
      · rcases malloc mallocs with ⟨fine,later⟩
        cases fine with
        | false => exact kept
        | true => exact Or.inr ⟨oldProper,reach,room,beyond⟩
      · exact kept
    · split
      · rename_i same
        rcases left with ⟨rfl,_⟩ | ⟨_,above,_,next⟩
        · exact absurd same.symm given
        · exact risingWeaken next (by omega)
      · exact kept

theorem startTokenRising (ordered : start ≤ last) (bound : last < 2^32) (given : type ≠ smtEnd) (first : 1 ≤ start)
    (proper : old ≠ smtEnd) (h : Rising start here) : Rising start (startToken mallocs start last type old here).list := by
  cases here with
  | nil => exact absurd h (by simp [Rising])
  | cons mp rest =>
    rw [startToken]
    split
    · rename_i splice
      have beyond : Rising (start + 1) (mp::rest) := by
        rcases h with stop | ⟨mtype,_,mbound,next⟩
        · exact Or.inl stop
        · exact Or.inr ⟨mtype,splice.resolve_right mtype,mbound,next⟩
      split
      · rcases malloc mallocs with ⟨fine,later⟩
        cases fine with
        | false => exact h
        | true =>
          exact Or.inr ⟨given,Nat.le_refl _,by simp only; omega,
            endTokenRising bound given (by simp only; omega) (by simp only; omega) proper beyond⟩
      · exact endTokenRising bound given first (by omega) proper h
    · rename_i reclaim
      obtain ⟨mtype,above,mbound,next⟩ : mp.type ≠ smtEnd ∧ start ≤ mp.start ∧ mp.start < 2^32 ∧
          Rising (mp.start + 1) rest := by
        rcases h with ⟨rfl,_⟩ | h
        · exact absurd (Or.inr rfl) reclaim
        · exact h
      have aligned : mp.start = start := by
        by_contra differ
        exact reclaim (Or.inl (by omega))
      split
      · exact Or.inr ⟨given,above,mbound,endTokenRising bound given (by simp only; omega) (by simp only; omega) mtype next⟩
      · exact endTokenRising bound given first (by omega) proper h

variable (start) in
theorem passRising (le : low ≤ start) (proper : old ≠ smtEnd) (h : Rising low list) :
    (passBelow start old list).2.1 ≠ smtEnd ∧ Rising start (passBelow start old list).2.2 ∧
      ∀ tail, Rising start tail → Rising low ((passBelow start old list).1 ++ tail) := by
  induction list generalizing low old with
  | nil => exact absurd h (by simp [Rising])
  | cons z rest ih =>
    rw [passBelow]
    split
    · rename_i pass
      rcases h with ⟨rfl,_⟩ | ⟨ztype,above,zbound,next⟩
      · exact absurd rfl pass.2
      · obtain ⟨last,left,whole⟩ := ih (by omega) ztype next
        exact ⟨last,left,fun tail rising => Or.inr ⟨ztype,above,zbound,whole tail rising⟩⟩
    · rename_i stop
      refine ⟨proper,?_,fun tail rising => risingWeaken rising le⟩
      rcases h with stop' | ⟨ztype,above,zbound,next⟩
      · exact Or.inl stop'
      · refine Or.inr ⟨ztype,?_,zbound,next⟩
        by_contra below
        exact stop ⟨by omega,ztype⟩

variable (mallocs) in
theorem addMemmapOrdered (given : type ≠ smtEnd) (fits : start + len ≤ 2^32) (h : Ordered list) :
    Ordered (syslinuxAddMemmap mallocs list start len type).list := by
  unfold syslinuxAddMemmap
  split
  · exact h
  · rename_i some'
    have last : (start + len - 1) % 2^32 = start + len - 1 := Nat.mod_eq_of_lt (by omega)
    cases list with
    | nil => exact h
    | cons z rest =>
      obtain ⟨zero,proper,next⟩ := h
      simp only [last,Added.behind]
      by_cases origin : start = 0
      · -- the first zone is taken over
        have reclaim : ¬(start < z.start ∨ z.type = smtEnd) := by
          rintro (above | stop)
          · omega
          · exact proper stop
        rw [passBelow,if_neg (fun pass => by omega)]
        simp only [List.nil_append]
        rw [startToken,if_neg reclaim,if_pos given]
        exact ⟨zero,given,endTokenRising (by omega) given (Nat.le_refl _) (by omega) proper next⟩
      · obtain ⟨old,left,whole⟩ := passRising start (by omega) proper next
        rw [passBelow,if_pos ⟨by omega,proper⟩]
        exact ⟨zero,proper,whole _ (startTokenRising (by omega) (by omega) given (by omega) old left)⟩

end

end Syslinux.Zonelist
