import Syslinux.MallocRuns
import Syslinux.Zonelist

/-! scan_highmem_area of core/mem/init.c: each region that the firmware reports is clipped
against cs_memsize and given to the main heap. -/
namespace Syslinux.Malloc
open Zonelist (MemmapType)
open Runs

structure Region where
  start : Nat
  len : Nat
  type : MemmapType
  deriving DecidableEq, Repr

/- What is left of a region, with the wrap of each subtraction; none for a region that is
not looked at. -/
def clipHighmem (memsize : Nat) (r : Region) : Option (Nat × Nat) :=
  if r.start < 0x100000 ∨ memMax < r.start ∨ r.type ≠ .smtFree then none
  else
    let (start,len) := if r.start < memsize then (memsize,sub32 r.len (sub32 memsize r.start)) else (r.start,r.len)
    some (start,if sub32 memMax start < len then sub32 memMax start else len)

/- The heap and the new cs_memsize. -/
def scanHighmemArea (s : Arena) (memsize : Nat) (r : Region) : Option (Arena × Nat) :=
  match clipHighmem memsize r with
  | none => some (s,memsize)
  | some (start,len) =>
      if 2*headerSize ≤ len then
        (injectFreeBlock (prepare s start .main len) start).map (fun (s,_) => (s,add32 start len))
      else some (s,add32 start len)

/- The regions of syslinux_scan_memory, one call each. -/
def scanHighmem (s : Arena) (memsize : Nat) : List Region → Option (Arena × Nat)
  | [] => some (s,memsize)
  | r::rest => (scanHighmemArea s memsize r).bind (fun (s,memsize) => scanHighmem s memsize rest)

/- The address and size of the block that a call passes to __inject_free_block. -/
def passed (memsize : Nat) (r : Region) : Option (Nat × Nat) :=
  (clipHighmem memsize r).bind (fun (start,len) => if 2*headerSize ≤ len then some (start,sizeMask len) else none)

def nextMemsize (memsize : Nat) (r : Region) : Nat :=
  match clipHighmem memsize r with
  | none => memsize
  | some (start,len) => add32 start len

/- The calls of a scan, each with the cs_memsize that it finds. -/
def calls (memsize : Nat) : List Region → List (Nat × Region)
  | [] => []
  | r::rest => (memsize,r)::calls (nextMemsize memsize r) rest

def injections (memsize : Nat) (regions : List Region) : List Event :=
  (calls memsize regions).filterMap (fun c => (passed c.1 c.2).map (fun b => .inject b.1 .main b.2))

theorem scanInjects (s : Session) (memsize : Nat) (regions : List Region) :
    (scanHighmem s.arena memsize regions).map Prod.fst = (run step s (injections memsize regions)).map Session.arena := by
  induction regions generalizing s memsize with
  | nil => rfl
  | cons r rest ih =>
    rw [scanHighmem,injections,calls,scanHighmemArea,nextMemsize]
    cases clipped : clipHighmem memsize r with
    | none =>
      rw [List.filterMap_cons_none (by simp [passed,clipped])]
      exact ih s memsize
    | some part =>
      obtain ⟨start,len⟩ := part
      by_cases enough : 2*headerSize ≤ len
      · have event : (passed memsize r).map (fun b => Event.inject b.1 .main b.2) = some (.inject start .main (sizeMask len)) := by
          simp [passed,clipped,enough]
        have mask : sizeMask (sizeMask len) = sizeMask len := sizeMaskEq (Nat.dvd_mul_left _ _)
        rw [List.filterMap_cons_some (b := .inject start .main (sizeMask len)) event,run,step,prepare,mask,← prepare]
        simp only [if_pos enough]
        cases injectFreeBlock (prepare s.arena start .main len) start with
        | none => rfl
        | some result =>
          exact ih ⟨result.1,s.live,if result.2 then Function.update s.accepted .main (s.accepted .main + sizeMask len)
            else s.accepted⟩ (add32 start len)
      · rw [List.filterMap_cons_none (by simp [passed,clipped,enough])]
        simp only [if_neg enough]
        exact ih s (add32 start len)

def Reported (regions : List Region) (x : Nat) : Prop :=
  ∃ r ∈ regions, r.type = .smtFree ∧ r.start ≤ x ∧ x < r.start + r.len

/- Every byte of a block is free memory, not below the mark, and in the range of the heap. -/
def Usable (regions : List Region) (memsize : Nat) (block : Nat × Nat) : Prop :=
  ∀ x, block.1 ≤ x → x < block.1 + block.2 → Reported regions x ∧ memsize ≤ x ∧ 0x100000 ≤ x ∧ x < memMax

/- The calls that are harmless: the region is not looked at, or it reaches up to the mark, or
next to nothing is left. A region that ends below the mark gives all that lies above the
mark to the heap; that is harmless where it happens to be free. -/
def Harmless (regions : List Region) (memsize : Nat) (r : Region) : Prop :=
  r.start < 0x100000 ∨ memMax < r.start ∨ r.type ≠ .smtFree ∨ memsize ≤ r.start ∨
  (memsize ≤ memMax ∧ (memsize ≤ r.start + r.len ∨ memMax < memsize + 2*headerSize ∨
    ∀ x, memsize ≤ x → x < memsize + sizeMask (memMax - memsize) → Reported regions x)) ∨
  (memMax < memsize ∧ memsize ≤ r.start + r.len ∧ r.start + r.len < memsize + 2*headerSize)

section
variable {regions : List Region} {memsize : Nat} {r : Region}

theorem capEq (a b : Nat) : (if b < a then b else a) = min a b := by
  split <;> omega

section
variable (looked : ¬ (r.start < 0x100000 ∨ memMax < r.start ∨ r.type ≠ .smtFree)) (fits : r.start + r.len ≤ 2^32)
  (small : memsize < 2^32)
include looked

theorem clipBehind (behind : memsize ≤ r.start) :
    clipHighmem memsize r = some (r.start,min r.len (memMax - r.start)) := by
  have bound : sub32 memMax r.start = memMax - r.start := sub32Eq (by omega)
  rw [clipHighmem,if_neg looked]
  simp only [if_neg (show ¬ r.start < memsize by omega),bound,capEq]

theorem clipMarked (start : r.start < memsize) :
    clipHighmem memsize r = some (memsize,min (sub32 r.len (memsize - r.start)) (sub32 memMax memsize)) := by
  have gap : sub32 memsize r.start = memsize - r.start := sub32Eq (by omega)
  rw [clipHighmem,if_neg looked]
  simp only [if_pos start,gap,capEq]

include fits small

theorem clipAcross (start : r.start < memsize) (reaches : memsize ≤ r.start + r.len) :
    clipHighmem memsize r = some (memsize,if memsize ≤ memMax then min (r.start + r.len - memsize) (memMax - memsize)
      else r.start + r.len - memsize) := by
  have rest : sub32 r.len (memsize - r.start) = r.start + r.len - memsize := by
    rw [sub32Eq (by omega)]
    omega
  rw [clipMarked looked start,rest]
  unfold memMax sub32 at *
  congr 2
  split <;> omega

/- The subtraction wraps where the region ends below the mark. -/
theorem clipWraps (below : r.start + r.len < memsize) : ∃ len, clipHighmem memsize r = some (memsize,len) ∧
    (memsize ≤ memMax → len = memMax - memsize) ∧ (memMax < memsize → 2*headerSize ≤ len) := by
  have rest : sub32 r.len (memsize - r.start) = 2^32 - (memsize - r.start - r.len) := if_neg (by omega)
  refine ⟨_,clipMarked looked (by omega),?_,?_⟩
  · intro within
    rw [rest,sub32Eq within]
    unfold memMax at *
    omega
  · intro beyond
    have cap : sub32 memMax memsize = 2^32 - (memsize - memMax) := if_neg (by omega)
    rw [rest,cap]
    unfold memMax headerSize at *
    omega

end

theorem usableOfRegion (m : r ∈ regions) (type : r.type = .smtFree) {start len : Nat} (from' : r.start ≤ start)
    (mark : memsize ≤ start) (low : 0x100000 ≤ start) (upto : start + len ≤ r.start + r.len) (high : start + len ≤ memMax) :
    Usable regions memsize (start,len) := by
  intro x above below
  exact ⟨⟨r,m,type,by simp only at above; omega,by simp only at below; omega⟩,by simp only at above; omega,
    by simp only at above; omega,by simp only at below; omega⟩

theorem maskLe (n : Nat) : sizeMask n ≤ n := Nat.div_mul_le_self _ _

theorem maskRoom {n : Nat} (h : 2*headerSize ≤ n) : 0 < sizeMask n := by
  unfold sizeMask headerSize at *
  omega

theorem passedSome {start len : Nat} (clipped : clipHighmem memsize r = some (start,len)) (b : Nat × Nat) :
    passed memsize r = some b ↔ 2*headerSize ≤ len ∧ (start,sizeMask len) = b := by
  rw [passed,clipped]
  by_cases enough : 2*headerSize ≤ len
  · simp [enough]
  · simp [enough]

theorem passedUsable (m : r ∈ regions) (fits : r.start + r.len ≤ 2^32) (small : memsize < 2^32) :
    (∀ b, passed memsize r = some b → Usable regions memsize b) ↔ Harmless regions memsize r := by
  by_cases looked : r.start < 0x100000 ∨ memMax < r.start ∨ r.type ≠ .smtFree
  · have none' : passed memsize r = none := by rw [passed,clipHighmem,if_pos looked]; rfl
    refine iff_of_true (by simp [none']) ?_
    unfold Harmless
    tauto
  have type : r.type = .smtFree := by tauto
  by_cases behind : memsize ≤ r.start
  · refine iff_of_true ?_ (Or.inr (Or.inr (Or.inr (Or.inl behind))))
    intro b is
    obtain ⟨_,rfl⟩ := (passedSome (clipBehind looked behind) b).mp is
    have := maskLe (min r.len (memMax - r.start))
    exact usableOfRegion m type (Nat.le_refl _) behind (by omega) (by omega) (by omega)
  by_cases reaches : memsize ≤ r.start + r.len
  · have clipped := clipAcross looked fits small (by omega) reaches
    by_cases within : memsize ≤ memMax
    · refine iff_of_true ?_ (Or.inr (Or.inr (Or.inr (Or.inr (Or.inl ⟨within,Or.inl reaches⟩)))))
      intro b is
      rw [if_pos within] at clipped
      obtain ⟨_,rfl⟩ := (passedSome clipped b).mp is
      have := maskLe (min (r.start + r.len - memsize) (memMax - memsize))
      exact usableOfRegion m type (by omega) (Nat.le_refl _) (by omega) (by omega) (by omega)
    · rw [if_neg within] at clipped
      constructor
      · intro usable
        by_contra harm
        have enough : 2*headerSize ≤ r.start + r.len - memsize := by
          unfold Harmless at harm
          unfold headerSize at *
          omega
        have := usable _ ((passedSome clipped _).mpr ⟨enough,rfl⟩) memsize (Nat.le_refl _)
          (Nat.lt_add_of_pos_right (maskRoom enough))
        exact within (Nat.le_of_lt this.2.2.2)
      · intro harmless b is
        obtain ⟨enough,_⟩ := (passedSome clipped b).mp is
        unfold Harmless at harmless
        rcases harmless with h | h | h | h | h | h
        · exact absurd (Or.inl h) looked
        · exact absurd (Or.inr (Or.inl h)) looked
        · exact absurd type h
        · omega
        · omega
        · omega
  · obtain ⟨len,clipped,all,large⟩ := clipWraps looked fits small (by omega)
    by_cases within : memsize ≤ memMax
    · obtain rfl := all within
      constructor
      · intro usable
        refine Or.inr (Or.inr (Or.inr (Or.inr (Or.inl ⟨within,Or.inr ?_⟩))))
        by_cases little : memMax < memsize + 2*headerSize
        · exact Or.inl little
        · refine Or.inr ?_
          intro x above below
          exact (usable _ ((passedSome clipped _).mpr ⟨by omega,rfl⟩) x above below).1
      · intro harmless b is
        obtain ⟨enough,rfl⟩ := (passedSome clipped b).mp is
        have free : ∀ x, memsize ≤ x → x < memsize + sizeMask (memMax - memsize) → Reported regions x := by
          unfold Harmless at harmless
          rcases harmless with h | h | h | h | ⟨_,h | h | h⟩ | h
          · exact absurd (Or.inl h) looked
          · exact absurd (Or.inr (Or.inl h)) looked
          · exact absurd type h
          · omega
          · omega
          · omega
          · exact h
          · omega
        intro x above below
        have := maskLe (memMax - memsize)
        simp only at above below
        exact ⟨free x above below,above,by omega,by omega⟩
    · have enough := large (by omega)
      refine iff_of_false ?_ ?_
      · intro usable
        have := usable _ ((passedSome clipped _).mpr ⟨enough,rfl⟩) memsize (Nat.le_refl _)
          (Nat.lt_add_of_pos_right (maskRoom enough))
        exact within (Nat.le_of_lt this.2.2.2)
      · unfold Harmless
        rintro (h | h | h | h | h | h)
        · exact looked (Or.inl h)
        · exact looked (Or.inr (Or.inl h))
        · exact h type
        · omega
        · omega
        · omega

theorem nextMemsizeSmall (small : memsize < 2^32) : nextMemsize memsize r < 2^32 := by
  unfold nextMemsize
  split
  · exact small
  · exact Nat.mod_lt _ (by decide)

theorem callsOf (small : memsize < 2^32) : ∀ c ∈ calls memsize regions, c.1 < 2^32 ∧ c.2 ∈ regions := by
  induction regions generalizing memsize with
  | nil => simp [calls]
  | cons r rest ih =>
    intro c m
    rcases List.mem_cons.mp m with rfl | m
    · exact ⟨small,by simp⟩
    · obtain ⟨bound,there⟩ := ih (nextMemsizeSmall small) c m
      exact ⟨bound,by simp [there]⟩

/- A whole scan: the heap that it leaves is that with the blocks passed by its calls, and when they are usable. -/
theorem highmemUsable (fits : ∀ r ∈ regions, r.start + r.len ≤ 2^32) (small : memsize < 2^32) :
    (∀ s : Session, (scanHighmem s.arena memsize regions).map Prod.fst =
      (run step s ((calls memsize regions).filterMap fun c => (passed c.1 c.2).map fun b => .inject b.1 .main b.2)).map Session.arena) ∧
    ((∀ c ∈ calls memsize regions, ∀ b, passed c.1 c.2 = some b → Usable regions c.1 b) ↔
      ∀ c ∈ calls memsize regions, Harmless regions c.1 c.2) := by
  refine ⟨fun s => scanInjects s memsize regions,forall₂_congr ?_⟩
  intro c m
  obtain ⟨bound,there⟩ := callsOf small c m
  exact passedUsable there (fits c.2 there) bound

/- Two regions in the order of their addresses, the first one clipped. -/
theorem highmemUsableInOrder :
    let regions : List Region := [⟨0x100000,0x700000,.smtFree⟩,⟨0x1000000,0x1000000,.smtFree⟩]
    ∀ c ∈ calls 0x180000 regions, ∀ b, passed c.1 c.2 = some b → Usable regions c.1 b := by
  intro regions
  have walked : calls 0x180000 regions = [(0x180000,⟨0x100000,0x700000,.smtFree⟩),(0x800000,⟨0x1000000,0x1000000,.smtFree⟩)] := by
    decide
  refine (highmemUsable (by decide) (by decide)).2.mpr ?_
  rw [walked]
  simp only [List.mem_cons,List.not_mem_nil,or_false,forall_eq_or_imp,forall_eq]
  refine ⟨?_,?_⟩
  · exact Or.inr (Or.inr (Or.inr (Or.inr (Or.inl ⟨by decide,Or.inl (by decide)⟩))))
  · exact Or.inr (Or.inr (Or.inr (Or.inl (by decide))))

/- The same regions in the other order: the second one ends below the mark that the first
has left, and all memory above the mark is passed on. -/
theorem highmemWraps :
    let regions : List Region := [⟨0x1000000,0x1000000,.smtFree⟩,⟨0x100000,0x700000,.smtFree⟩]
    ¬ ∀ c ∈ calls 0x180000 regions, ∀ b, passed c.1 c.2 = some b → Usable regions c.1 b := by
  intro regions usable
  have second : (0x2000000,⟨0x100000,0x700000,.smtFree⟩) ∈ calls 0x180000 regions := by decide
  have block : passed 0x2000000 ⟨0x100000,0x700000,.smtFree⟩ = some (0x2000000,0xfdf00000) := by decide
  obtain ⟨⟨r,m,_,above,below⟩,_⟩ := usable _ second _ block 0x2000000 (by decide) (by decide)
  simp only [regions,List.mem_cons,List.not_mem_nil,or_false] at m
  rcases m with rfl | rfl
  · simp at below
  · simp at below

end
end Syslinux.Malloc
