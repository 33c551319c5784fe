import Mathlib.Tactic

/-! Words of any number of bytes, the lowest first, in a memory whose addresses wrap around. -/
namespace Syslinux.WordMemory

abbrev Memory := Nat → UInt8

section
variable (bits : Nat)

/- How far behind a the address q lies, around the end of the memory where need be. -/
def behind (a q : Nat) : Nat := (q + (2^bits - a % 2^bits)) % 2^bits

def readWord : Nat → Memory → Nat → Nat
  | 0,_,_ => 0
  | n+1,mem,a => (mem (a % 2^bits)).toNat + 2^8*readWord n mem (a+1)

def writeWord (n : Nat) (mem : Memory) (a v : Nat) : Memory := fun q =>
  if q < 2^bits ∧ behind bits a q < n then UInt8.ofNat (v / 2^(8*behind bits a q)) else mem q

def copyBytes (n : Nat) (mem : Memory) (dest src : Nat) : Memory := fun q =>
  if q < 2^bits ∧ behind bits dest q < n then mem ((src + behind bits dest q) % 2^bits) else mem q

def writeBytes (mem : Memory) (a : Nat) (bytes : List UInt8) : Memory := fun q =>
  if q < 2^bits ∧ behind bits a q < bytes.length then bytes.getD (behind bits a q) 0 else mem q

def writeAll (mem : Memory) (blocks : List (Nat × List UInt8)) : Memory :=
  blocks.foldl (fun mem block => writeBytes bits mem block.1 block.2) mem

end

section
variable {bits n k a q v u : Nat} {mem : Memory}

theorem behindAt {i : Nat} (small : i < 2^bits) : behind bits a ((a+i) % 2^bits) = i := by
  have pos := Nat.two_pow_pos bits
  have le := Nat.mod_lt a pos
  have split := Nat.mod_add_div a (2^bits)
  calc behind bits a ((a+i) % 2^bits) = ((a + i) + (2^bits - a % 2^bits)) % 2^bits := by
        rw [behind,Nat.mod_add_mod]
    _ = (i + 2^bits*(a / 2^bits + 1)) % 2^bits := by
        congr 1
        rw [Nat.mul_add]
        omega
    _ = i := by rw [Nat.add_mul_mod_self_left,Nat.mod_eq_of_lt small]

theorem atBehind (inside : q < 2^bits) : (a + behind bits a q) % 2^bits = q := by
  have pos := Nat.two_pow_pos bits
  have le := Nat.mod_lt a pos
  have split := Nat.mod_add_div a (2^bits)
  calc (a + behind bits a q) % 2^bits = (a + (q + (2^bits - a % 2^bits))) % 2^bits := by
        rw [behind,Nat.add_mod_mod]
    _ = (q + 2^bits*(a / 2^bits + 1)) % 2^bits := by
        congr 1
        rw [Nat.mul_add]
        omega
    _ = q := by rw [Nat.add_mul_mod_self_left,Nat.mod_eq_of_lt inside]

theorem behindSmall : behind bits a q < 2^bits := Nat.mod_lt _ (Nat.two_pow_pos bits)

theorem readDigits (bytes : ∀ i < n, mem ((a+i) % 2^bits) = UInt8.ofNat (v / 2^(8*i))) :
    readWord bits n mem a = v % 2^(8*n) := by
  induction n generalizing a v with
  | zero => simp [readWord,Nat.mod_one]
  | succ n ih =>
    have first := bytes 0 (by omega)
    have rest := ih (a := a+1) (v := v / 2^8) fun i lt => by
      have later := bytes (i+1) (by omega)
      rw [show a + (i+1) = a + 1 + i by omega,show 8*(i+1) = 8 + 8*i by omega,pow_add,← Nat.div_div_eq_div_mul] at later
      exact later
    simp only [Nat.add_zero,Nat.mul_zero,pow_zero,Nat.div_one] at first
    rw [readWord,first,rest,UInt8.toNat_ofNat',show 8*(n+1) = 8 + 8*n by omega,pow_add 2 8,Nat.mod_mul]

theorem readByte (inside : k < n) : UInt8.ofNat (readWord bits n mem a / 2^(8*k)) = mem ((a+k) % 2^bits) := by
  induction n generalizing a k with
  | zero => omega
  | succ n ih =>
    have byte := (mem (a % 2^bits)).toNat_lt
    cases k with
    | zero =>
      simp only [readWord,Nat.mul_zero,pow_zero,Nat.div_one,Nat.add_zero]
      refine UInt8.toNat_inj.mp ?_
      rw [UInt8.toNat_ofNat']
      omega
    | succ k =>
      have later := ih (a := a+1) (k := k) (by omega)
      have shift : readWord bits (n+1) mem a / 2^(8*(k+1)) = readWord bits n mem (a+1) / 2^(8*k) := by
        rw [readWord,show 8*(k+1) = 8 + 8*k by omega,pow_add 2 8,← Nat.div_div_eq_div_mul]
        congr 1
        omega
      rw [shift,later,show a + 1 + k = a + (k+1) by omega]

theorem readSmall : readWord bits n mem a < 2^(8*n) := by
  induction n generalizing a with
  | zero => simp [readWord]
  | succ n ih =>
    have byte := (mem (a % 2^bits)).toNat_lt
    have rest := ih (a := a+1)
    rw [readWord,show 8*(n+1) = 8 + 8*n by omega,pow_add 2 8]
    omega

theorem readWrite (room : n ≤ 2^bits) : readWord bits n (writeWord bits n mem a v) a = v % 2^(8*n) := by
  refine readDigits fun i lt => ?_
  have place := @behindAt bits a i (by omega)
  rw [writeWord,place,if_pos ⟨Nat.mod_lt _ (Nat.two_pow_pos bits),lt⟩]

/- Only the low bytes of a value are stored. -/
theorem writeIff (room : n ≤ 2^bits) :
    writeWord bits n mem a v = writeWord bits n mem a u ↔ v % 2^(8*n) = u % 2^(8*n) := by
  constructor
  · intro same
    rw [← @readWrite bits n a _ mem room,same,readWrite room]
  · intro same
    funext q
    unfold writeWord
    split
    · rename_i inside
      have low : ∀ x : Nat, UInt8.ofNat (x / 2^(8*behind bits a q)) =
          UInt8.ofNat (x % 2^(8*n) / 2^(8*behind bits a q)) := fun x => by
        obtain ⟨left,more⟩ := Nat.exists_eq_add_of_lt inside.2
        refine UInt8.toNat_inj.mp ?_
        rw [UInt8.toNat_ofNat',UInt8.toNat_ofNat',more,
          show 8*(behind bits a q + left + 1) = 8*behind bits a q + (8 + 8*left) by omega,pow_add 2 (8*behind bits a q),
          Nat.mod_mul_right_div_self,pow_add 2 8,Nat.mod_mul_right_mod]
      rw [low v,low u,same]
    · rfl

theorem writeNarrow (narrow : k ≤ n) : writeWord bits k mem a v =
    writeWord bits n mem a (v % 2^(8*k) + 2^(8*k)*(readWord bits n mem a / 2^(8*k))) := by
  funext q
  unfold writeWord
  by_cases low : q < 2^bits ∧ behind bits a q < k
  · rw [if_pos low,if_pos ⟨low.1,by omega⟩]
    obtain ⟨left,more⟩ := Nat.exists_eq_add_of_lt low.2
    refine UInt8.toNat_inj.mp ?_
    rw [UInt8.toNat_ofNat',UInt8.toNat_ofNat']
    have split : 2^(8*k) = 2^(8*behind bits a q)*(2^8*2^(8*left)) := by
      rw [← pow_add,← pow_add]
      congr 1
      omega
    rw [split,Nat.mul_assoc,Nat.add_mul_div_left _ _ (Nat.two_pow_pos _),Nat.mod_mul_right_div_self,Nat.mul_assoc,
      Nat.add_mul_mod_self_left,Nat.mod_mul_right_mod]
  · rw [if_neg low]
    by_cases high : q < 2^bits ∧ behind bits a q < n
    · rw [if_pos high]
      obtain ⟨above,more⟩ : ∃ above, behind bits a q = k + above := ⟨behind bits a q - k,by omega⟩
      rw [more,show 8*(k+above) = 8*k + 8*above by omega,pow_add 2 (8*k),← Nat.div_div_eq_div_mul,
        Nat.add_mul_div_left _ _ (Nat.two_pow_pos _),Nat.div_eq_of_lt (Nat.mod_lt _ (Nat.two_pow_pos _)),Nat.zero_add,
        Nat.div_div_eq_div_mul,← pow_add,show 8*k + 8*above = 8*(k+above) by omega,← more,readByte high.2,atBehind high.1]
    · rw [if_neg high]

theorem readSame {mem' : Memory} (same : ∀ i < n, mem' ((a+i) % 2^bits) = mem ((a+i) % 2^bits)) :
    readWord bits n mem' a = readWord bits n mem a := by
  induction n generalizing a with
  | zero => rfl
  | succ n ih =>
    have first := same 0 (by omega)
    rw [Nat.add_zero] at first
    rw [readWord,readWord,first,ih fun i lt => by
      rw [show a + 1 + i = a + (i+1) by omega]
      exact same (i+1) (by omega)]

theorem behindInside (room : a + n ≤ 2^bits) (inside : q < 2^bits) (near : behind bits a q < n) : a ≤ q ∧ q < a + n := by
  have here := atBehind (a := a) inside
  rw [Nat.mod_eq_of_lt (by omega)] at here
  omega

section
variable {len : Nat} (room : a + len ≤ 2^bits) (apart : q < a ∨ a + len ≤ q)
include room apart

theorem writeWordApart : writeWord bits len mem a v q = mem q := by
  refine if_neg fun near => ?_
  have inside := behindInside room near.1 near.2
  omega

theorem copyBytesApart : copyBytes bits len mem a v q = mem q := by
  refine if_neg fun near => ?_
  have inside := behindInside room near.1 near.2
  omega

theorem writeBytesApart {bytes : List UInt8} (length : bytes.length = len) : writeBytes bits mem a bytes q = mem q := by
  refine if_neg fun near => ?_
  rw [length] at near
  have inside := behindInside room near.1 near.2
  omega

end

theorem readBeside {b : Nat} (reads : a + n ≤ 2^bits) (writes : b + k ≤ 2^bits) (apart : a + n ≤ b ∨ b + k ≤ a) :
    readWord bits n (writeWord bits k mem b v) a = readWord bits n mem a :=
  readSame fun i lt => writeWordApart writes (by rw [Nat.mod_eq_of_lt (by omega)]; omega)

theorem writeAllApart {blocks : List (Nat × List UInt8)}
    (apart : ∀ block ∈ blocks, ¬ (q < 2^bits ∧ behind bits block.1 q < block.2.length)) :
    writeAll bits mem blocks q = mem q := by
  induction blocks generalizing mem with
  | nil => rfl
  | cons block rest ih =>
    exact (ih fun b h => apart b (List.mem_cons_of_mem _ h)).trans (if_neg (apart block List.mem_cons_self))

theorem writeAllAgree {blocks : List (Nat × List UInt8)} {x : UInt8} (inside : q < 2^bits)
    (agree : ∀ block ∈ blocks, behind bits block.1 q < block.2.length → block.2.getD (behind bits block.1 q) 0 = x)
    (found : mem q = x ∨ ∃ block ∈ blocks, behind bits block.1 q < block.2.length) :
    writeAll bits mem blocks q = x := by
  induction blocks generalizing mem with
  | nil => simpa [writeAll] using found
  | cons block rest ih =>
    change writeAll bits (writeBytes bits mem block.1 block.2) rest q = x
    refine ih (fun b h => agree b (List.mem_cons_of_mem _ h)) ?_
    by_cases first : behind bits block.1 q < block.2.length
    · refine Or.inl ?_
      rw [writeBytes,if_pos ⟨inside,first⟩]
      exact agree block List.mem_cons_self first
    · rcases found with was | ⟨b,h,covers⟩
      · exact Or.inl (by rw [writeBytes,if_neg fun h => first h.2,was])
      · rcases List.mem_cons.mp h with rfl | later
        · exact absurd covers first
        · exact Or.inr ⟨b,later,covers⟩

end
end Syslinux.WordMemory
