import Mathlib.Tactic

/-! The hashes of com32/lib/sys/module/elfutils.c. unsigned long has 32 bits on i386 and 64 on
x86_64; what a linker stores are the hashes of 32 bits. -/
namespace Syslinux.Elf

abbrev Name := List UInt8

section
variable (bits : Nat)

/- One turn of elf_hash. -/
def elfHashStep (h : Nat) (c : UInt8) : Nat :=
  let h := (h*2^4 + c.toNat) % 2^bits
  let g := h &&& 0xF0000000
  let h := if g ≠ 0 then h ^^^ (g >>> 24) else h
  h &&& (2^bits - 1 - g)

def elfHash (name : Name) : Nat := name.foldl (elfHashStep bits) 0

def elfGnuHash (name : Name) : Nat := name.foldl (fun h c => (h*33 + c.toNat) % 2^bits) 5381 &&& 0xFFFFFFFF

end

def fold (word : Nat) : Nat := (word % 2^28) ^^^ (word / 2^28 % 2^4*2^4)

/- The hash function of the System V ABI, in words of 32 bits: what a linker stores. -/
def abiHash (name : Name) : Nat := name.foldl (fun h c => fold ((h*2^4 + c.toNat) % 2^32)) 0

/- The sum of a turn does not fit into 32 bits. -/
def Overflows (h : Nat) (c : UInt8) : Prop := 2^32 ≤ h*2^4 + c.toNat
instance (h c) : Decidable (Overflows h c) := by unfold Overflows; infer_instance

theorem topDigit (h : Nat) : h &&& 0xF0000000 = h / 2^28 % 2^4*2^28 := by
  have mask : 0xF0000000 = (2^4 - 1) <<< 28 := by decide
  rw [mask,← Nat.and_two_pow_sub_one_eq_mod,← Nat.shiftLeft_eq,← Nat.shiftRight_eq_div_pow]
  refine Nat.eq_of_testBit_eq fun i => ?_
  simp only [Nat.testBit_and,Nat.testBit_shiftLeft,Nat.testBit_shiftRight]
  by_cases low : 28 ≤ i
  · rw [Nat.add_sub_cancel' low]
    simp [low]
  · simp [low]

theorem foldSmall (word : Nat) : fold word < 2^28 :=
  Nat.xor_lt_two_pow (Nat.mod_lt _ (by norm_num)) (by omega)

theorem foldBit (word i : Nat) :
    (fold word).testBit i = (decide (i < 28) && (word ^^^ (word / 2^28 % 2^4*2^4)).testBit i) := by
  have digit : word / 2^28 % 2^4*2^4 < 2^28 := by omega
  simp only [fold,Nat.testBit_xor,Nat.testBit_mod_two_pow]
  by_cases low : i < 28
  · simp [low]
  · have out : (word / 2^28 % 2^4*2^4).testBit i = false :=
      Nat.testBit_lt_two_pow (lt_of_lt_of_le digit (Nat.pow_le_pow_right (by norm_num) (by omega)))
    rw [out]
    simp [low]

theorem turnFolds {bits word : Nat} (wide : 32 ≤ bits) (fits : word < 2^bits) :
    (if word &&& 0xF0000000 ≠ 0 then word ^^^ ((word &&& 0xF0000000) >>> 24) else word)
      &&& (2^bits - 1 - (word &&& 0xF0000000)) = 2^32*(word / 2^32) + fold word := by
  have top := topDigit word
  generalize digit : word / 2^28 % 2^4 = d at top
  have small : d < 2^4 := by omega
  have moved : (if word &&& 0xF0000000 ≠ 0 then word ^^^ ((word &&& 0xF0000000) >>> 24) else word)
      = word ^^^ (d*2^4) := by
    rw [top,Nat.shiftRight_eq_div_pow,show d*2^28 / 2^24 = d*2^4 by omega]
    split
    · rfl
    · rw [show d = 0 by omega]; simp
  have room : d*2^28 < 2^bits := by
    have more : 2^32 ≤ 2^bits := Nat.pow_le_pow_right (by norm_num) wide
    omega
  rw [moved,top,Nat.sub_sub,Nat.add_comm 1]
  refine Nat.eq_of_testBit_eq fun i => ?_
  rw [Nat.testBit_and,Nat.testBit_two_pow_sub_succ room,
    Nat.testBit_two_pow_mul_add _ (lt_trans (foldSmall word) (by norm_num)),foldBit,digit,
    Nat.testBit_xor,← Nat.shiftLeft_eq d 28,Nat.testBit_shiftLeft]
  have low8 : ∀ j, 8 ≤ j → (d*2^4).testBit j = false := fun j le =>
    Nat.testBit_lt_two_pow (lt_of_lt_of_le (show d*2^4 < 2^8 by omega) (Nat.pow_le_pow_right (by norm_num) le))
  have far : ∀ j, bits ≤ j → word.testBit j = false := fun j le =>
    Nat.testBit_lt_two_pow (lt_of_lt_of_le fits (Nat.pow_le_pow_right (by norm_num) le))
  by_cases first : i < 28
  · simp [first,show i < 32 by omega,show i < bits by omega,show ¬ 28 ≤ i by omega]
  · rw [low8 i (by omega),Bool.xor_false]
    by_cases second : i < 32
    · have same : d.testBit (i-28) = word.testBit i := by
        rw [← digit,Nat.testBit_mod_two_pow,Nat.testBit_div_two_pow,Nat.sub_add_cancel (by omega)]
        simp [show i - 28 < 4 by omega]
      rw [same]
      simp [first,second,show 28 ≤ i by omega,show i < bits by omega]
    · have out : d.testBit (i-28) = false :=
        Nat.testBit_lt_two_pow (lt_of_lt_of_le small (Nat.pow_le_pow_right (by norm_num) (by omega)))
      rw [out,Nat.testBit_div_two_pow,Nat.sub_add_cancel (by omega)]
      by_cases third : i < bits
      · simp [second,third,show 28 ≤ i by omega]
      · simp [second,third,far i (by omega)]

theorem stepFolds {bits h : Nat} {c : UInt8} (wide : 32 ≤ bits) :
    elfHashStep bits h c = 2^32*((h*2^4 + c.toNat) % 2^bits / 2^32) + fold ((h*2^4 + c.toNat) % 2^bits) :=
  turnFolds wide (Nat.mod_lt _ (Nat.two_pow_pos _))

theorem step32 (h : Nat) (c : UInt8) : elfHashStep 32 h c = fold ((h*2^4 + c.toNat) % 2^32) := by
  rw [stepFolds (le_refl 32),Nat.div_eq_of_lt (Nat.mod_lt _ (by norm_num))]
  omega

theorem hash32 (name : Name) : elfHash 32 name = abiHash name := by
  have same : elfHashStep 32 = fun h c => fold ((h*2^4 + c.toNat) % 2^32) := by
    funext h c
    exact step32 h c
  rw [elfHash,same,abiHash]

theorem foldLow (word : Nat) : fold (word % 2^32) = fold word := by
  unfold fold
  rw [show word % 2^32 % 2^28 = word % 2^28 by omega,show word % 2^32 / 2^28 % 2^4 = word / 2^28 % 2^4 by omega]

theorem step64 {high low : Nat} {c : UInt8} (_ : low < 2^28) :
    elfHashStep 64 (2^32*high + low) c =
      2^32*((2^4*high + if Overflows low c then 1 else 0) % 2^32) + fold ((low*2^4 + c.toNat) % 2^32) := by
  have letter := c.toNat_lt
  rw [stepFolds (by norm_num)]
  have sum : (2^32*high + low)*2^4 + c.toNat = 2^32*(2^4*high) + (low*2^4 + c.toNat) := by ring
  have part : ((2^32*high + low)*2^4 + c.toNat) % 2^64 % 2^32 = (low*2^4 + c.toNat) % 2^32 := by omega
  rw [← foldLow (_ % 2^64),part]
  congr 2
  by_cases carries : Overflows low c
  · rw [if_pos carries]
    unfold Overflows at carries
    omega
  · rw [if_neg carries]
    unfold Overflows at carries
    omega

theorem hashAppend (bits : Nat) (name : Name) (c : UInt8) :
    elfHash bits (name ++ [c]) = elfHashStep bits (elfHash bits name) c := by
  simp only [elfHash,List.foldl_append,List.foldl_cons,List.foldl_nil]

theorem abiAppend (name : Name) (c : UInt8) :
    abiHash (name ++ [c]) = fold ((abiHash name*2^4 + c.toNat) % 2^32) := by
  simp only [abiHash,List.foldl_append,List.foldl_cons,List.foldl_nil]

theorem abiSmall (name : Name) : abiHash name < 2^28 := by
  rcases List.eq_nil_or_concat' name with rfl | ⟨before,c,rfl⟩
  · decide
  · rw [abiAppend]
    exact foldSmall _

def high (name : Name) : Nat := elfHash 64 name / 2^32

theorem lowWord (name : Name) : elfHash 64 name = 2^32*high name + abiHash name := by
  suffices low : elfHash 64 name % 2^32 = abiHash name by
    unfold high
    omega
  induction name using List.reverseRecOn with
  | nil => decide
  | append_singleton before c ih =>
    have whole : elfHash 64 before = 2^32*high before + abiHash before := by
      unfold high
      omega
    have small := foldSmall ((abiHash before*2^4 + c.toNat) % 2^32)
    rw [hashAppend,whole,step64 (abiSmall before),abiAppend]
    omega

theorem highAppend (name : Name) (c : UInt8) :
    high (name ++ [c]) = (2^4*high name + if Overflows (abiHash name) c then 1 else 0) % 2^32 := by
  have small := foldSmall ((abiHash name*2^4 + c.toNat) % 2^32)
  rw [high,hashAppend,lowWord,step64 (abiSmall name)]
  omega

/- In one of its last turns, as many as the high word has digits, the sum overflows. -/
def Carries (name : Name) : Prop :=
  ∃ before c behind, name = before ++ c::behind ∧ behind.length < 8 ∧ Overflows (abiHash before) c

theorem digitsClear {turns : Nat} (le : turns ≤ 8) (name : Name) : high name % 2^(4*turns) = 0 ↔
    ∀ before c behind, name = before ++ c::behind → behind.length < turns → ¬ Overflows (abiHash before) c := by
  induction turns generalizing name with
  | zero =>
    simp only [Nat.mul_zero,pow_zero,Nat.mod_one,true_iff]
    intro before c behind _ short
    omega
  | succ turns ih =>
    rcases List.eq_nil_or_concat' name with rfl | ⟨start,last,rfl⟩
    · refine ⟨fun _ before c behind split => by simp at split,fun _ => ?_⟩
      rw [show high [] = 0 by decide,Nat.zero_mod]
    · have step : high (start ++ [last]) % 2^(4*(turns+1)) = 0 ↔
          ¬ Overflows (abiHash start) last ∧ high start % 2^(4*turns) = 0 := by
        have divides : 2^(4*(turns+1)) ∣ 2^32 := Nat.pow_dvd_pow 2 (by omega)
        rw [highAppend,Nat.mod_mod_of_dvd _ divides,show 4*(turns+1) = 4 + 4*turns by ring,pow_add,Nat.mod_mul]
        by_cases carries : Overflows (abiHash start) last
        · simp only [carries,if_true,not_true_eq_false,false_and,iff_false]
          omega
        · rw [if_neg carries,show (2^4*high start + 0) / 2^4 = high start by omega]
          simp only [carries,not_false_eq_true,true_and]
          have pos := Nat.two_pow_pos (4*turns)
          constructor
          · intro zero
            have : 2^4*(high start % 2^(4*turns)) = 0 := by omega
            omega
          · intro zero
            rw [zero]
            omega
      rw [step,ih (by omega)]
      constructor
      · rintro ⟨notLast,others⟩ before c behind split short
        rcases List.eq_nil_or_concat' behind with rfl | ⟨inner,final,rfl⟩
        · obtain ⟨rfl,one⟩ := List.append_inj' split rfl
          cases one
          exact notLast
        · rw [show before ++ c::(inner ++ [final]) = (before ++ c::inner) ++ [final] by simp] at split
          obtain ⟨rfl,-⟩ := List.append_inj' split rfl
          rw [List.length_append] at short
          exact others before c inner rfl (by simpa using short)
      · intro all
        refine ⟨all start last [] rfl (by simp),fun before c behind split short => ?_⟩
        exact all before c (behind ++ [last]) (by rw [split]; simp) (by simpa using short)

theorem highSmall (name : Name) : high name < 2^32 := by
  rcases List.eq_nil_or_concat' name with rfl | ⟨before,c,rfl⟩
  · decide
  · rw [highAppend]
    exact Nat.mod_lt _ (by norm_num)

theorem highZero (name : Name) : high name = 0 ↔ ¬ Carries name := by
  have digits := digitsClear (le_refl 8) name
  rw [show 4*8 = 32 from rfl,Nat.mod_eq_of_lt (highSmall name)] at digits
  rw [digits,Carries]
  push Not
  rfl

theorem hash64 (name : Name) : elfHash 64 name = elfHash 32 name ↔ ¬ Carries name := by
  rw [← highZero,hash32,lowWord]
  omega

/- elf_gnu_hash keeps only the low word. -/
theorem gnuHash64 (name : Name) : elfGnuHash 64 name = elfGnuHash 32 name := by
  have mask : 0xFFFFFFFF = 2^32 - 1 := by decide
  simp only [elfGnuHash,mask,Nat.and_two_pow_sub_one_eq_mod]
  suffices same : ∀ wide narrow, wide % 2^32 = narrow % 2^32 →
      name.foldl (fun h c => (h*33 + c.toNat) % 2^64) wide % 2^32 =
        name.foldl (fun h c => (h*33 + c.toNat) % 2^32) narrow % 2^32 from same _ _ rfl
  induction name with
  | nil => exact fun _ _ same => same
  | cons c rest ih =>
    intro wide narrow same
    refine ih _ _ ?_
    dsimp only
    omega

end Syslinux.Elf
