import Syslinux.Machine

/-! The rounding of com32/include/syslinux/align.h, on 32-bit addresses. For a power of two the
masks are the neighbouring multiples; rounding up wraps to 0 above the last multiple. -/
namespace Syslinux.Align

def not32 (a : Nat) : Nat := 2^32 - 1 - a

def alignDown (p a : Nat) : Nat := p &&& not32 (sub32 a 1)
def alignUp (p a : Nat) : Nat := add32 p (sub32 a 1) &&& not32 (sub32 a 1)

section
variable {k p b : Nat}

theorem powerLe (small : k < 32) : 2^k ≤ 2^31 := Nat.pow_le_pow_right (by omega) (by omega)

theorem maskBit (small : k < 32) (i : Nat) : (not32 (sub32 (2^k) 1)).testBit i = decide (k ≤ i ∧ i < 32) := by
  have le := powerLe small
  have pos : 1 ≤ 2^k := Nat.one_le_two_pow
  have mask : not32 (sub32 (2^k) 1) = (2^(32 - k) - 1) * 2^k := by
    rw [sub32Eq pos,not32,Nat.sub_mul,← Nat.pow_add,Nat.sub_add_cancel (by omega : k ≤ 32)]
    omega
  rw [mask,Nat.testBit_mul_two_pow,Nat.testBit_two_pow_sub_one]
  by_cases above : k ≤ i
  · simp only [above,decide_true,Bool.true_and,true_and,decide_eq_decide]
    omega
  · simp [above]

theorem alignDownEq (small : k < 32) (fits : p < 2^32) : alignDown p (2^k) = p / 2^k * 2^k := by
  refine Nat.eq_of_testBit_eq ?_
  intro i
  rw [alignDown,Nat.testBit_and,maskBit small,Nat.testBit_mul_two_pow,Nat.testBit_div_two_pow]
  by_cases above : k ≤ i
  · by_cases inside : i < 32
    · simp [above,inside]
    · have zero : p.testBit i = false :=
        Nat.testBit_lt_two_pow (Nat.lt_of_lt_of_le fits (Nat.pow_le_pow_right (by omega) (by omega)))
      simp [above,inside,zero]
  · simp [above]

structure RoundedDown (p a v : Nat) : Prop where
  aligned : a ∣ v
  le : v ≤ p
  highest : ∀ b, a ∣ b → b ≤ p → b ≤ v

theorem alignDownOk (small : k < 32) (fits : p < 2^32) : RoundedDown p (2^k) (alignDown p (2^k)) := by
  rw [alignDownEq small fits]
  refine ⟨Nat.dvd_mul_left _ _,Nat.div_mul_le_self _ _,?_⟩
  rintro _ ⟨n,rfl⟩ le
  rw [Nat.mul_comm]
  exact Nat.mul_le_mul_right _ ((Nat.le_div_iff_mul_le (Nat.two_pow_pos k)).mpr (by rwa [Nat.mul_comm]))

structure RoundedUp (p a v : Nat) : Prop where
  aligned : a ∣ v
  le : p ≤ v
  lowest : ∀ b, a ∣ b → p ≤ b → v ≤ b

theorem alignUpOk (small : k < 32) (room : p + 2^k ≤ 2^32) : RoundedUp p (2^k) (alignUp p (2^k)) := by
  have pos : 1 ≤ 2^k := Nat.one_le_two_pow
  have sum : add32 p (sub32 (2^k) 1) = p + (2^k - 1) := by rw [sub32Eq pos,add32Eq (by omega)]
  have same : alignUp p (2^k) = alignDown (p + (2^k - 1)) (2^k) := by rw [alignUp,alignDown,sum]
  have down := alignDownOk (p := p + (2^k - 1)) small (by omega)
  rw [same]
  refine ⟨down.aligned,?_,?_⟩
  · rw [alignDownEq small (by omega)]
    have whole := Nat.div_add_mod (p + (2^k - 1)) (2^k)
    have rest := Nat.mod_lt (p + (2^k - 1)) pos
    rw [Nat.mul_comm] at whole
    omega
  · intro b aligned le
    by_contra above
    obtain ⟨m,eq⟩ := down.aligned
    obtain ⟨n,rfl⟩ := aligned
    have le' := down.le
    rw [eq] at above le'
    have more : n < m := by
      by_contra le
      exact above (Nat.mul_le_mul_left _ (by omega))
    have step : 2^k * (n + 1) ≤ 2^k * m := Nat.mul_le_mul_left _ more
    rw [Nat.mul_add,Nat.mul_one] at step
    omega

/- Above the last multiple the sum wraps, and what is left rounds down to 0. -/
theorem alignUpWraps (small : k < 32) (fits : p < 2^32) (high : 2^32 < p + 2^k) :
    alignUp p (2^k) = 0 ∧ ∀ b, 2^k ∣ b → p ≤ b → 2^32 ≤ b := by
  have le := powerLe small
  have pos : 1 ≤ 2^k := Nat.one_le_two_pow
  constructor
  · have sum : add32 p (sub32 (2^k) 1) = p + (2^k - 1) - 2^32 := by
      rw [sub32Eq pos,add32]
      omega
    have same : alignUp p (2^k) = alignDown (p + (2^k - 1) - 2^32) (2^k) := by rw [alignUp,alignDown,sum]
    rw [same,alignDownEq small (by omega),Nat.div_eq_of_lt (by omega),Nat.zero_mul]
  · rintro _ ⟨n,rfl⟩ le
    by_contra below
    have top : 2^k * 2^(32 - k) = 2^32 := by rw [← Nat.pow_add]; congr 1; omega
    have less : n < 2^(32 - k) := by
      by_contra more
      have := Nat.mul_le_mul_left (2^k) (Nat.le_of_not_lt more)
      omega
    have step : 2^k * (n + 1) ≤ 2^k * 2^(32 - k) := Nat.mul_le_mul_left _ less
    rw [Nat.mul_add,Nat.mul_one] at step
    omega

end
end Syslinux.Align
