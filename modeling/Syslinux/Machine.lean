import Mathlib.Tactic

/-! The machine under the modelled code: 32-bit unsigned arithmetic on naturals below
2^32, the outcomes of malloc, and a flat memory read and written in runs. -/
namespace Syslinux

def add32 (a b : Nat) : Nat := (a + b) % 2^32
def sub32 (a b : Nat) : Nat := if b ≤ a then a - b else 2^32 - (b - a)

theorem add32Eq {a b : Nat} (h : a + b < 2^32) : add32 a b = a + b := Nat.mod_eq_of_lt h
theorem sub32Eq {a b : Nat} (h : b ≤ a) : sub32 a b = a - b := by simp [sub32,h]

/- The outcomes of the mallocs still to come; past the end of the list all succeed. -/
def malloc : List Bool → Bool × List Bool
  | [] => (true,[])
  | ok::rest => (ok,rest)

section
variable {β : Type}

def store (mem : Nat → β) (q : Nat) (bytes : List β) : Nat → β :=
  fun a => if a < q then mem a else (bytes[a - q]?).getD (mem a)

def read (mem : Nat → β) (a n : Nat) : List β := (List.range n).map (fun i => mem (a + i))

variable {mem : Nat → β} {q a n : Nat} {bytes more : List β}

@[simp] theorem readLength : (read mem a n).length = n := by simp [read]

theorem storeInside {i : Nat} (h : i < bytes.length) : store mem q bytes (q + i) = bytes[i] := by
  simp [store,h]

theorem storeOutside (h : a < q ∨ q + bytes.length ≤ a) : store mem q bytes a = mem a := by
  unfold store
  split
  · rfl
  · rw [List.getElem?_eq_none (by omega)]; rfl

theorem storeAppend : store (store mem q bytes) (q + bytes.length) more = store mem q (bytes ++ more) := by
  funext a
  by_cases before : a < q + bytes.length
  · rw [storeOutside (Or.inl before)]
    unfold store
    split
    · rfl
    · rw [List.getElem?_append_left (by omega)]
  · unfold store
    rw [if_neg before,if_neg (by omega),if_neg (by omega),List.getElem?_append_right (by omega),
      List.getElem?_eq_none (by omega : bytes.length ≤ a - q)]
    simp [Nat.sub_sub]

theorem storeNothing (mem : Nat → β) (q : Nat) : store mem q [] = mem := by
  funext a
  exact storeOutside (by simp; omega)

theorem storeOver {b : β} (some' : more ≠ []) :
    store (store mem q (bytes ++ [b])) (q + bytes.length) more = store mem q (bytes ++ more) := by
  rw [← storeAppend,← storeAppend]
  generalize store mem q bytes = base
  funext a
  have positive := List.length_pos_iff.mpr some'
  by_cases inside : q + bytes.length ≤ a ∧ a < q + bytes.length + more.length
  · obtain ⟨i,rfl⟩ := Nat.exists_eq_add_of_le inside.1
    rw [storeInside (by omega),storeInside (by omega)]
  · rw [storeOutside (by omega),storeOutside (by simp; omega),storeOutside (by omega)]

theorem readApart (h : a + n ≤ q ∨ q + bytes.length ≤ a) : read (store mem q bytes) a n = read mem a n := by
  refine List.map_congr_left ?_
  intro i small
  have := List.mem_range.mp small
  exact storeOutside (by omega)

theorem readInside (h : n ≤ bytes.length) : read (store mem q bytes) q n = bytes.take n := by
  refine List.ext_getElem (by simpa using h) ?_
  intro i small _
  simp only [readLength] at small
  simp [read,storeInside (show i < bytes.length by omega)]

theorem readAppend {k : Nat} : read mem a (n + k) = read mem a n ++ read mem (a + n) k := by
  simp [read,List.range_add,Nat.add_assoc]

theorem readPart {mem' : Nat → β} {b off cnt : Nat} (same : read mem a n = read mem' b n) (h : off + cnt ≤ n) :
    read mem (a + off) cnt = read mem' (b + off) cnt := by
  have pointwise := List.map_inj_left.mp same
  refine List.map_congr_left ?_
  intro i small
  have := List.mem_range.mp small
  have at' := pointwise (off + i) (List.mem_range.mpr (by omega))
  simpa [Nat.add_assoc] using at'

end
end Syslinux
