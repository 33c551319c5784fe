import Syslinux.Getfssec

/-! Files whose blocks are found through pointers: twelve direct ones, and one, two and
three levels of pointer blocks. core/fs/ext2/bmap.c and core/fs/ufs/bmap.c map them with
the same code; what is different is how a pointer is read, and by how much the pointers
of neighbouring blocks differ. -/
namespace Syslinux.BlockMap
open Getfssec (extentZero extentVoid)

/- A pointer block holds 2^shift pointers; the pointer to the block behind is larger by
`skip`. Pointer `i` of the pointer block at `start` is `pointer start i`. -/
structure Layout where
  shift : Nat
  skip : Nat
  pointer : Nat → Nat → Nat

structure Pointers where
  direct : Nat → Nat
  indirect : Nat
  double : Nat
  triple : Nat

/- The loop of scan_set_nblocks, with `left` pointers behind this one. -/
def scanRun (map : Nat → Nat) (skip : Nat) : Nat → Nat → Nat → Nat → Nat
  | 0,_,_,cnt => cnt
  | left+1,index,next,cnt =>
      if map (index + 1) = next then scanRun map skip left (index + 1) (add32 next skip) (cnt + 1) else cnt

def stride (skip blk : Nat) : Nat := if blk = 0 then 0 else skip

def scanSetNblocks (skip : Nat) (map : Nat → Nat) (index count : Nat) : Nat × Nat :=
  let blk := map index
  (blk,scanRun map (stride skip blk) (count - 1) index (add32 blk (stride skip blk)) 1)

/- The value and *nblocks. -/
def bmapIndirect (l : Layout) : Nat → Nat → Nat → Nat × Nat
  | 0,_,_ => (0,0)
  | levels+1,start,block =>
      if start = 0 then (0,2^l.shift*2^(levels*l.shift) % 2^32)
      else
        let index := block / 2^(levels*l.shift) % 2^l.shift
        if levels = 0 then scanSetNblocks l.skip (l.pointer start) index (2^l.shift - index)
        else bmapIndirect l levels (l.pointer start index) block

def directBlocks : Nat := 12

/- The last case leaves *nblocks as the caller set it, 0. -/
def bmapTraditional (l : Layout) (f : Pointers) (block : Nat) : Nat × Nat :=
  let indirectBlocks := 2^l.shift
  let doubleBlocks := indirectBlocks*2^l.shift % 2^32
  let tripleBlocks := doubleBlocks*2^l.shift % 2^32
  if block < directBlocks then scanSetNblocks l.skip f.direct block (directBlocks - block)
  else
    let block := block - directBlocks
    if block < indirectBlocks then bmapIndirect l 1 f.indirect block
    else
      let block := block - indirectBlocks
      if block < doubleBlocks then bmapIndirect l 2 f.double block
      else
        let block := block - doubleBlocks
        if block < tripleBlocks then bmapIndirect l 3 f.triple block
        else (0,0)

/- next_extent of both filesystems, on what bmap returns: pstart and len. A block has
2^blkToSec sectors, a pointer counts 2^unitShift of them. -/
def nextExtent (blkToSec unitShift : Nat) (found : Nat × Nat) (lstart : Nat) : Nat × Nat :=
  let (block,nblocks) := found
  (if block = 0 then extentZero else (block*2^unitShift % 2^64) ||| (lstart % 2^blkToSec),
    sub32 (nblocks*2^blkToSec % 2^32) (lstart % 2^blkToSec))

/- The way down the tree of pointers: it ends where a pointer block is missing, together
with all the blocks it would lead to, or at the pointer of the block. -/
inductive Found where
  | missing (size : Nat)
  | entry (map : Nat → Nat) (index count : Nat)
  | beyond

def Found.pointer : Found → Nat
  | .missing _ => 0
  | .entry map index _ => map index
  | .beyond => 0

def locateIn (l : Layout) : Nat → Nat → Nat → Found
  | 0,_,_ => .beyond
  | levels+1,start,block =>
      if start = 0 then .missing (2^l.shift*2^(levels*l.shift))
      else
        let index := block / 2^(levels*l.shift) % 2^l.shift
        if levels = 0 then .entry (l.pointer start) index (2^l.shift - index)
        else locateIn l levels (l.pointer start index) block

def locate (l : Layout) (f : Pointers) (block : Nat) : Found :=
  let n := 2^l.shift
  if block < directBlocks then .entry f.direct block (directBlocks - block)
  else if block - directBlocks < n then locateIn l 1 f.indirect (block - directBlocks)
  else if block - directBlocks - n < n*n then locateIn l 2 f.double (block - directBlocks - n)
  else if block - directBlocks - n - n*n < n*n*n then locateIn l 3 f.triple (block - directBlocks - n - n*n)
  else .beyond

/- The pointer of a block, 0 in a hole. -/
def blockAt (l : Layout) (f : Pointers) (block : Nat) : Nat := (locate l f block).pointer

section
variable {map : Nat → Nat} {skip : Nat}

theorem scanRunSpec (left index next cnt : Nat) (word : next < 2^32) :
    ∃ n, scanRun map skip left index next cnt = cnt + n ∧ n ≤ left ∧
      (∀ j, j < n → map (index + 1 + j) = (next + j*skip) % 2^32) ∧
      (n < left → map (index + 1 + n) ≠ (next + n*skip) % 2^32) := by
  induction left generalizing index next cnt with
  | zero => exact ⟨0,rfl,Nat.le_refl _,by omega,by omega⟩
  | succ left ih =>
    rw [scanRun]
    by_cases same : map (index + 1) = next
    · obtain ⟨n,eq,le,run,stop⟩ := ih (index + 1) (add32 next skip) (cnt + 1) (Nat.mod_lt _ (by decide))
      have step : ∀ j, (add32 next skip + j*skip) % 2^32 = (next + (j + 1)*skip) % 2^32 := by
        intro j
        rw [add32,Nat.mod_add_mod,Nat.succ_mul]
        congr 1
        omega
      rw [if_pos same]
      refine ⟨n + 1,by omega,by omega,?_,?_⟩
      · intro j small
        cases j with
        | zero => simp only [Nat.zero_mul,Nat.add_zero,Nat.mod_eq_of_lt word,same]
        | succ j =>
          rw [← step,← run j (by omega)]
          congr 1
          omega
      · intro less
        rw [← step,show index + 1 + (n + 1) = index + 1 + 1 + n by omega]
        exact stop (by omega)
    · rw [if_neg same]
      refine ⟨0,rfl,by omega,by omega,?_⟩
      intro _
      simpa only [Nat.zero_mul,Nat.add_zero,Nat.mod_eq_of_lt word] using same

/- The pointers that scan_set_nblocks counts, and the first one it does not. -/
theorem scanSpec (index : Nat) {count : Nat} (some' : 0 < count) :
    ∃ n, scanSetNblocks skip map index count = (map index,n) ∧ 0 < n ∧ n ≤ count ∧
      (∀ j, 0 < j → j < n → map (index + j) = (map index + j*stride skip (map index)) % 2^32) ∧
      (n < count → map (index + n) ≠ (map index + n*stride skip (map index)) % 2^32) := by
  obtain ⟨n,eq,le,run,stop⟩ := @scanRunSpec map (stride skip (map index)) (count - 1) index
    (add32 (map index) (stride skip (map index))) 1 (Nat.mod_lt _ (by decide))
  have step : ∀ j, (add32 (map index) (stride skip (map index)) + j*stride skip (map index)) % 2^32 =
      (map index + (j + 1)*stride skip (map index)) % 2^32 := by
    intro j
    rw [add32,Nat.mod_add_mod,Nat.succ_mul]
    congr 1
    omega
  refine ⟨n + 1,by rw [scanSetNblocks,eq,Nat.add_comm],by omega,by omega,?_,?_⟩
  · intro j positive small
    obtain ⟨i,rfl⟩ : ∃ i, j = i + 1 := ⟨j - 1,by omega⟩
    rw [← step,← run i (by omega)]
    congr 1
    omega
  · intro less
    rw [← step,show index + (n + 1) = index + 1 + n by omega]
    exact stop (by omega)

end
section
variable {l : Layout}

def Found.scan (l : Layout) : Found → Nat × Nat
  | .missing size => (0,size % 2^32)
  | .entry map index count => scanSetNblocks l.skip map index count
  | .beyond => (0,0)

theorem bmapIndirectEq (levels start block : Nat) :
    bmapIndirect l levels start block = (locateIn l levels start block).scan l := by
  induction levels generalizing start with
  | zero => rfl
  | succ levels ih =>
    rw [bmapIndirect,locateIn]
    split
    · rfl
    · simp only
      split
      · rfl
      · exact ih _

/- How far the 32-bit counts of blocks reach. -/
def reach (l : Layout) : Nat := directBlocks + 2^l.shift + 2^l.shift*2^l.shift + 2^l.shift*2^l.shift*2^l.shift % 2^32

theorem bmapTraditionalEq (small : l.shift ≤ 15) (f : Pointers) (block : Nat) :
    bmapTraditional l f block = if block < reach l then (locate l f block).scan l else (0,0) := by
  have count : 2^l.shift ≤ 2^15 := Nat.pow_le_pow_right (by decide) small
  have positive := Nat.two_pow_pos l.shift
  have square : 2^l.shift*2^l.shift ≤ 2^15*2^15 := Nat.mul_le_mul count count
  have cube := Nat.mod_le (2^l.shift*2^l.shift*2^l.shift) (2^32)
  unfold bmapTraditional locate reach
  simp only [Nat.mod_eq_of_lt (show 2^l.shift*2^l.shift < 2^32 by omega),bmapIndirectEq]
  generalize 2^l.shift*2^l.shift*2^l.shift = whole at *
  by_cases direct : block < directBlocks
  · rw [if_pos direct,if_pos direct,if_pos (by omega)]
    rfl
  rw [if_neg direct,if_neg direct]
  by_cases single : block - directBlocks < 2^l.shift
  · rw [if_pos single,if_pos single,if_pos (by omega)]
  rw [if_neg single,if_neg single]
  by_cases double : block - directBlocks - 2^l.shift < 2^l.shift*2^l.shift
  · rw [if_pos double,if_pos double,if_pos (by omega)]
  rw [if_neg double,if_neg double]
  by_cases triple : block - directBlocks - 2^l.shift - 2^l.shift*2^l.shift < whole % 2^32
  · rw [if_pos triple,if_pos (by omega),if_pos (by omega)]
  · rw [if_neg triple,if_neg (by omega)]

theorem locateInCount (levels : Nat) {start block index count : Nat} {map : Nat → Nat}
    (found : locateIn l levels start block = .entry map index count) : count = 2^l.shift - block % 2^l.shift := by
  induction levels generalizing start with
  | zero => simp [locateIn] at found
  | succ levels ih =>
    rw [locateIn] at found
    split at found
    · simp at found
    · cases levels with
      | zero =>
        simp only [Nat.zero_mul,Nat.pow_zero,Nat.div_one,if_true,Found.entry.injEq] at found
        exact found.2.2.symm
      | succ levels =>
        simp only [Nat.succ_ne_zero,if_false] at found
        exact ih found

theorem locateInMissing (levels : Nat) {start block size : Nat} (found : locateIn l levels start block = .missing size) :
    ∃ k, 0 < k ∧ k ≤ levels ∧ size = 2^(k*l.shift) := by
  induction levels generalizing start with
  | zero => simp [locateIn] at found
  | succ levels ih =>
    rw [locateIn] at found
    split at found
    · refine ⟨levels + 1,by omega,Nat.le_refl _,?_⟩
      rw [← Found.missing.inj found,← Nat.pow_add,Nat.succ_mul,Nat.add_comm]
    · simp only at found
      split at found
      · simp at found
      · obtain ⟨k,positive,le,eq⟩ := ih found
        exact ⟨k,positive,by omega,eq⟩

theorem locateInNext (levels : Nat) {start block index count j : Nat} {map : Nat → Nat}
    (found : locateIn l levels start block = .entry map index count) (inside : j < count) :
    locateIn l levels start (block + j) = .entry map (index + j) (count - j) := by
  have eq := locateInCount levels found
  have bound := Nat.mod_lt block (Nat.two_pow_pos l.shift)
  induction levels generalizing start with
  | zero => simp [locateIn] at found
  | succ levels ih =>
    rw [locateIn] at found ⊢
    split at found
    · simp at found
    · rename_i present
      rw [if_neg present]
      simp only at found ⊢
      cases levels with
      | zero =>
        simp only [Nat.zero_mul,Nat.pow_zero,Nat.div_one,if_true,Found.entry.injEq] at found ⊢
        obtain ⟨rfl,rfl,_⟩ := found
        have next : (block + j) % 2^l.shift = block % 2^l.shift + j := by
          rw [Nat.add_mod,Nat.mod_eq_of_lt (show j < 2^l.shift by omega),Nat.mod_eq_of_lt (by omega)]
        exact ⟨rfl,next,by omega⟩
      | succ levels =>
        simp only [Nat.succ_ne_zero,if_false] at found ⊢
        have same : (block + j) / 2^((levels + 1)*l.shift) = block / 2^((levels + 1)*l.shift) := by
          have first : (block + j) / 2^l.shift = block / 2^l.shift := by
            rw [Nat.add_div (Nat.two_pow_pos _),Nat.div_eq_of_lt (show j < 2^l.shift by omega),
              Nat.mod_eq_of_lt (show j < 2^l.shift by omega),if_neg (by omega)]
            rfl
          rw [Nat.succ_mul,Nat.add_comm (levels*l.shift),Nat.pow_add,← Nat.div_div_eq_div_mul,← Nat.div_div_eq_div_mul,first]
        rw [same]
        exact ih found

theorem regionNext {n m x j : Nat} (positive : 0 < n) (inside : x % n + j < n) : x + j < m*n ↔ x < m*n := by
  have same : (x + j) / n = x / n := by
    conv_lhs => rw [← Nat.div_add_mod x n]
    rw [Nat.add_assoc,Nat.mul_add_div positive,Nat.div_eq_of_lt inside,Nat.add_zero]
  rw [← Nat.div_lt_iff_lt_mul positive,← Nat.div_lt_iff_lt_mul positive,same]

structure Region (l : Layout) (f : Pointers) (levels start base : Nat) : Prop where
  some' : 0 < levels
  three : levels ≤ 3
  last : levels = 3 → base = directBlocks + 2^l.shift + 2^l.shift*2^l.shift
  down : ∀ b, base ≤ b → b - base < 2^(levels*l.shift) → locate l f b = locateIn l levels start (b - base)

theorem regions (f : Pointers) : Region l f 1 f.indirect directBlocks ∧ Region l f 2 f.double (directBlocks + 2^l.shift) ∧
    Region l f 3 f.triple (directBlocks + 2^l.shift + 2^l.shift*2^l.shift) := by
  have square : 2^(2*l.shift) = 2^l.shift*2^l.shift := by rw [Nat.two_mul,Nat.pow_add]
  have cube : 2^(3*l.shift) = 2^l.shift*2^l.shift*2^l.shift := by
    rw [show 3*l.shift = 2*l.shift + l.shift by omega,Nat.pow_add,square]
  have positive := Nat.two_pow_pos l.shift
  refine ⟨⟨by decide,by decide,by omega,?_⟩,⟨by decide,by decide,by omega,?_⟩,⟨by decide,by decide,fun _ => rfl,?_⟩⟩
  · intro b low high
    rw [Nat.one_mul] at high
    rw [locate]
    rw [if_neg (by omega),if_pos high]
  · intro b low high
    rw [square] at high
    rw [locate,← Nat.sub_sub] at *
    rw [if_neg (by omega),if_neg (by omega),if_pos high]
  · intro b low high
    rw [cube] at high
    rw [locate,← Nat.sub_sub,← Nat.sub_sub] at *
    rw [if_neg (by omega),if_neg (by omega),if_neg (by omega),if_pos high]

theorem locateCases (f : Pointers) (block : Nat) :
    block < directBlocks ∧ locate l f block = .entry f.direct block (directBlocks - block) ∨
    (∃ levels start base, Region l f levels start base ∧ base ≤ block ∧ block - base < 2^(levels*l.shift)) ∨
    locate l f block = .beyond := by
  obtain ⟨first,second,third⟩ := regions (l := l) f
  have square : 2^(2*l.shift) = 2^l.shift*2^l.shift := by rw [Nat.two_mul,Nat.pow_add]
  have cube : 2^(3*l.shift) = 2^l.shift*2^l.shift*2^l.shift := by
    rw [show 3*l.shift = 2*l.shift + l.shift by omega,Nat.pow_add,square]
  by_cases direct : block < directBlocks
  · exact Or.inl ⟨direct,by rw [locate,if_pos direct]⟩
  refine Or.inr ?_
  by_cases single : block - directBlocks < 2^l.shift
  · exact Or.inl ⟨_,_,_,first,by omega,by rwa [Nat.one_mul]⟩
  by_cases double : block - directBlocks - 2^l.shift < 2^l.shift*2^l.shift
  · exact Or.inl ⟨_,_,_,second,by omega,by rw [square]; omega⟩
  by_cases triple : block - directBlocks - 2^l.shift - 2^l.shift*2^l.shift < 2^l.shift*2^l.shift*2^l.shift
  · exact Or.inl ⟨_,_,_,third,by omega,by rw [cube]; omega⟩
  · refine Or.inr ?_
    rw [locate,if_neg direct,if_neg single,if_neg double,if_neg triple]

theorem locateNext {f : Pointers} {block index count j : Nat} {map : Nat → Nat}
    (found : locate l f block = .entry map index count) (inside : j < count) :
    locate l f (block + j) = .entry map (index + j) (count - j) := by
  rcases locateCases f block with ⟨direct,here⟩ | ⟨levels,start,base,region,low,high⟩ | beyond
  · rw [here] at found
    simp only [Found.entry.injEq] at found
    obtain ⟨rfl,rfl,rfl⟩ := found
    rw [locate,if_pos (by omega)]
    simp only [Found.entry.injEq,true_and]
    omega
  · rw [region.down block low high] at found
    have eq := locateInCount levels found
    have positive := Nat.two_pow_pos l.shift
    have bound := Nat.mod_lt (block - base) positive
    obtain ⟨k,rfl⟩ : ∃ k, levels = k + 1 := ⟨levels - 1,by have := region.some'; omega⟩
    have stays : block - base + j < 2^((k + 1)*l.shift) := by
      rw [Nat.succ_mul,Nat.pow_add] at high ⊢
      exact (regionNext positive (by omega)).mpr high
    rw [region.down (block + j) (by omega) (by rwa [Nat.sub_add_comm low]),Nat.sub_add_comm low]
    exact locateInNext (k + 1) found inside
  · rw [beyond] at found
    contradiction

theorem blockAtNext {f : Pointers} {block index count j : Nat} {map : Nat → Nat}
    (found : locate l f block = .entry map index count) (inside : j < count) : blockAt l f (block + j) = map (index + j) := by
  rw [blockAt,locateNext found inside]
  rfl

theorem entryCount {f : Pointers} {block index count : Nat} {map : Nat → Nat}
    (found : locate l f block = .entry map index count) : 0 < count ∧ count ≤ directBlocks + 2^l.shift := by
  have positive := Nat.two_pow_pos l.shift
  rcases locateCases f block with ⟨direct,here⟩ | ⟨levels,start,base,region,low,high⟩ | beyond
  · rw [here] at found
    simp only [Found.entry.injEq] at found
    omega
  · rw [region.down block low high] at found
    have eq := locateInCount levels found
    have bound := Nat.mod_lt (block - base) positive
    omega
  · rw [beyond] at found
    contradiction

theorem locateInBeyond {levels : Nat} (some' : 0 < levels) (start block : Nat) : locateIn l levels start block ≠ .beyond := by
  induction levels generalizing start with
  | zero => contradiction
  | succ levels ih =>
    rw [locateIn]
    split
    · simp
    · simp only
      split
      · simp
      · exact ih (by omega) _

theorem locateReached (f : Pointers) {block : Nat} (reached : block < reach l) : locate l f block ≠ .beyond := by
  have cube := Nat.mod_le (2^l.shift*2^l.shift*2^l.shift) (2^32)
  unfold reach at reached
  rw [locate]
  generalize 2^l.shift*2^l.shift*2^l.shift = whole at *
  split
  · simp
  · split
    · exact locateInBeyond (by decide) _ _
    · split
      · exact locateInBeyond (by decide) _ _
      · rw [if_pos (by omega)]
        exact locateInBeyond (by decide) _ _

theorem locateInBound {bound : Nat} (some' : 0 < bound) (pointers : ∀ start i, l.pointer start i < bound)
    (levels start block : Nat) : (locateIn l levels start block).pointer < bound := by
  induction levels generalizing start with
  | zero => exact some'
  | succ levels ih =>
    rw [locateIn]
    split
    · exact some'
    · simp only
      split
      · exact pointers _ _
      · exact ih _

theorem blockAtBound {f : Pointers} {bound : Nat} (some' : 0 < bound) (direct : ∀ i, f.direct i < bound)
    (pointers : ∀ start i, l.pointer start i < bound) (block : Nat) : blockAt l f block < bound := by
  rcases locateCases f block with ⟨_,here⟩ | ⟨levels,start,base,region,low,high⟩ | beyond
  · rw [blockAt,here]
    exact direct _
  · rw [blockAt,region.down block low high]
    exact locateInBound some' pointers _ _ _
  · rw [blockAt,beyond]
    exact some'

theorem missingSize {f : Pointers} {block size : Nat} (small : l.shift ≤ 15) (reached : block < reach l)
    (found : locate l f block = .missing size) : ∃ k, k < 32 ∧ size = 2^k := by
  rcases locateCases f block with ⟨direct,here⟩ | ⟨levels,start,base,region,low,high⟩ | beyond
  · rw [here] at found
    contradiction
  · rw [region.down block low high] at found
    obtain ⟨k,positive,le,eq⟩ := locateInMissing levels found
    refine ⟨k*l.shift,?_,eq⟩
    by_cases three : k = 3
    · -- A tree of 2^32 blocks or more is not reached.
      by_contra large
      have base' := region.last (by have := region.three; omega)
      have cube : 2^(3*l.shift) = 2^l.shift*2^l.shift*2^l.shift := by
        rw [show 3*l.shift = l.shift + l.shift + l.shift by omega,Nat.pow_add,Nat.pow_add]
      have none' : 2^l.shift*2^l.shift*2^l.shift % 2^32 = 0 := by
        rw [← cube]
        exact Nat.mod_eq_zero_of_dvd (Nat.pow_dvd_pow 2 (by rw [three] at large; omega))
      rw [reach,none'] at reached
      omega
    · have := Nat.mul_le_mul (show k ≤ 2 by have := region.three; omega) small
      omega
  · rw [beyond] at found
    contradiction

end

/- What next_extent is to say, where `ref` gives the pointer of each block, or 0 in a
hole: of the sectors of the extent `next`, and of the blocks that bmap counts in `found`. -/
structure NextFollows (ref : Nat → Nat) (blkToSec unitShift lstart : Nat) (found next : Nat × Nat) : Prop where
  nonempty : 0 < next.2
  sectors : ∀ k, k < next.2 →
    if next.1 = extentZero then ref ((lstart + k) / 2^blkToSec) = 0
    else ref ((lstart + k) / 2^blkToSec) ≠ 0 ∧ next.1 + k =
      ref ((lstart + k) / 2^blkToSec)*2^unitShift + (lstart + k) % 2^blkToSec
  blocks : ∀ j, j < found.2 →
    ref (lstart / 2^blkToSec + j) = if found.1 = 0 then 0 else found.1 + j*2^(blkToSec - unitShift)

abbrev Follows (ref : Nat → Nat) (blkToSec unitShift lstart : Nat) (found : Nat × Nat) : Prop :=
  NextFollows ref blkToSec unitShift lstart found (nextExtent blkToSec unitShift found lstart)

/- As long as no length is reported, the extent ends 2^32 sectors behind the start of the
block. -/
def HoleToTheEnd (ref : Nat → Nat) (blkToSec lstart : Nat) : Prop :=
  lstart % 2^blkToSec ≠ 0 ∧ ∀ k, k < 2^32 - lstart % 2^blkToSec → ref ((lstart + k) / 2^blkToSec) = 0

section
variable {ref : Nat → Nat} {blkToSec unitShift lstart n : Nat}

theorem sectorBlock (blkToSec lstart k : Nat) :
    (lstart + k) / 2^blkToSec = lstart / 2^blkToSec + (lstart % 2^blkToSec + k) / 2^blkToSec := by
  have positive := Nat.two_pow_pos blkToSec
  conv_lhs => rw [← Nat.div_add_mod lstart (2^blkToSec)]
  rw [Nat.add_assoc,Nat.mul_add_div positive]

theorem holeFollows (some' : 0 < n) (fits : n*2^blkToSec < 2^32) :
    Follows ref blkToSec unitShift lstart (0,n) ↔ ∀ j, j < n → ref (lstart / 2^blkToSec + j) = 0 := by
  have positive := Nat.two_pow_pos blkToSec
  have inside := Nat.mod_lt lstart positive
  have least := Nat.mul_le_mul_right (2^blkToSec) (show 1 ≤ n from some')
  have length : nextExtent blkToSec unitShift (0,n) lstart = (extentZero,n*2^blkToSec - lstart % 2^blkToSec) := by
    simp only [nextExtent,if_true,Nat.mod_eq_of_lt fits]
    rw [sub32Eq (by omega)]
  constructor
  · intro follows j small
    simpa using follows.blocks j small
  · intro holes
    refine ⟨by rw [length]; simp only; omega,?_,fun j small => by simpa using holes j small⟩
    intro k small
    rw [length] at small ⊢
    simp only at small
    rw [if_pos rfl,sectorBlock]
    exact holes _ ((Nat.div_lt_iff_lt_mul positive).mpr (by omega))

theorem nothingFollows (wraps : n*2^blkToSec % 2^32 = 0) (small : blkToSec ≤ 32) :
    Follows ref blkToSec unitShift lstart (0,n) ↔
      HoleToTheEnd ref blkToSec lstart ∧ ∀ j, j < n → ref (lstart / 2^blkToSec + j) = 0 := by
  have inside := Nat.mod_lt lstart (Nat.two_pow_pos blkToSec)
  have most := Nat.pow_le_pow_right (show 0 < 2 by decide) small
  have length : nextExtent blkToSec unitShift (0,n) lstart =
      (extentZero,if lstart % 2^blkToSec = 0 then 0 else 2^32 - lstart % 2^blkToSec) := by
    simp only [nextExtent,if_true,wraps,sub32,Nat.le_zero,Nat.sub_zero,Nat.zero_sub]
  constructor
  · intro follows
    have some' := follows.nonempty
    have sectors := follows.sectors
    rw [length] at some' sectors
    simp only at some' sectors
    have part : lstart % 2^blkToSec ≠ 0 := by
      intro zero
      rw [if_pos zero] at some'
      omega
    rw [if_neg part] at sectors
    refine ⟨⟨part,fun k small => ?_⟩,fun j small => by simpa using follows.blocks j small⟩
    simpa using sectors k small
  · rintro ⟨⟨part,holes⟩,blocks⟩
    refine ⟨?_,?_,fun j small => by simpa using blocks j small⟩
    · rw [length,if_neg part]
      simp only
      omega
    · intro k small
      rw [length,if_neg part] at small
      rw [length,if_pos rfl]
      exact holes k small

theorem dataFollows {p : Nat} (data : p ≠ 0) (some' : 0 < n) (fits : n*2^blkToSec < 2^32) (unit : unitShift ≤ blkToSec)
    (real : p*2^unitShift + 2^blkToSec ≤ extentVoid) :
    Follows ref blkToSec unitShift lstart (p,n) ↔
      p*2^unitShift ||| lstart % 2^blkToSec = p*2^unitShift + lstart % 2^blkToSec ∧
      ∀ j, j < n → ref (lstart / 2^blkToSec + j) = p + j*2^(blkToSec - unitShift) := by
  have positive := Nat.two_pow_pos blkToSec
  have positive' := Nat.two_pow_pos unitShift
  have inside := Nat.mod_lt lstart positive
  have least := Nat.mul_le_mul_right (2^blkToSec) (show 1 ≤ n from some')
  have void : extentVoid < 2^64 := by decide
  have length : nextExtent blkToSec unitShift (p,n) lstart =
      (p*2^unitShift ||| lstart % 2^blkToSec,n*2^blkToSec - lstart % 2^blkToSec) := by
    simp only [nextExtent,if_neg data,Nat.mod_eq_of_lt fits]
    rw [sub32Eq (by omega),Nat.mod_eq_of_lt (by omega)]
  have split : 2^blkToSec = 2^(blkToSec - unitShift)*2^unitShift := by
    rw [← Nat.pow_add,Nat.sub_add_cancel unit]
  constructor
  · intro follows
    refine ⟨?_,fun j small => by simpa [data] using follows.blocks j small⟩
    have first := follows.sectors 0 follows.nonempty
    have here := follows.blocks 0 some'
    simp only [Nat.zero_mul,Nat.add_zero,if_neg data] at here
    rw [length] at first
    simp only [Nat.add_zero] at first
    rw [here] at first
    split at first
    · exact absurd first data
    · exact first.2
  · rintro ⟨aligned,blocks⟩
    refine ⟨by rw [length]; simp only; omega,?_,fun j small => by simpa [data] using blocks j small⟩
    intro k small
    rw [length] at small ⊢
    simp only at small ⊢
    have void' : extentVoid < extentZero := by decide
    rw [aligned,if_neg (by omega),sectorBlock]
    have place := Nat.div_add_mod (lstart % 2^blkToSec + k) (2^blkToSec)
    have modulo : (lstart + k) % 2^blkToSec = (lstart % 2^blkToSec + k) % 2^blkToSec := by rw [Nat.mod_add_mod]
    have block : (lstart % 2^blkToSec + k) / 2^blkToSec < n := (Nat.div_lt_iff_lt_mul positive).mpr (by omega)
    rw [blocks _ block,modulo]
    refine ⟨by omega,?_⟩
    generalize (lstart % 2^blkToSec + k) / 2^blkToSec = j at place
    have unfolded : j*2^(blkToSec - unitShift)*2^unitShift = 2^blkToSec*j := by
      rw [Nat.mul_assoc,← split,Nat.mul_comm]
    rw [Nat.add_mul,unfolded]
    omega

end

/- Of the pointers behind an entry, those that scan_set_nblocks takes for the pointers of
the blocks behind are these pointers. -/
def RunTrue (skip step : Nat) (map : Nat → Nat) (index count : Nat) : Prop :=
  ∀ m, m < count → (∀ j, 0 < j → j ≤ m → map (index + j) = (map index + j*skip) % 2^32) →
    map (index + m) = map index + m*step

def reached (l : Layout) (f : Pointers) (block : Nat) : Found := if block < reach l then locate l f block else .beyond

/- Where the extent is right: in a hole whose pointer block is missing, if as many blocks
from this one on are holes as the missing one would lead to; at a pointer, if the run is
one and the sectors of a block are numbered without a carry. -/
def Right (l : Layout) (f : Pointers) (blkToSec unitShift lstart : Nat) : Prop :=
  match reached l f (lstart / 2^blkToSec) with
  | .missing size => (∀ j, j < size → blockAt l f (lstart / 2^blkToSec + j) = 0) ∧
      (size*2^blkToSec < 2^32 ∨ lstart % 2^blkToSec ≠ 0)
  | .entry map index count => map index = 0 ∨
      (map index*2^unitShift ||| lstart % 2^blkToSec = map index*2^unitShift + lstart % 2^blkToSec ∧
        RunTrue l.skip (2^(blkToSec - unitShift)) map index count)
  | .beyond => HoleToTheEnd (blockAt l f) blkToSec lstart

section
variable {l : Layout} {f : Pointers} {blkToSec unitShift lstart : Nat}

theorem missingFollows {k : Nat} (word : k < 32) (small : blkToSec ≤ 32) :
    Follows (blockAt l f) blkToSec unitShift lstart (0,2^k % 2^32) ↔
      (∀ j, j < 2^k → blockAt l f (lstart / 2^blkToSec + j) = 0) ∧ (2^k*2^blkToSec < 2^32 ∨ lstart % 2^blkToSec ≠ 0) := by
  have size : 2^k % 2^32 = 2^k := Nat.mod_eq_of_lt (Nat.pow_lt_pow_right (by decide) word)
  rw [size]
  by_cases fits : 2^k*2^blkToSec < 2^32
  · rw [holeFollows (Nat.two_pow_pos k) fits]
    simp only [fits,true_or,and_true]
  · have large : 32 ≤ k + blkToSec := by
      by_contra less
      rw [← Nat.pow_add] at fits
      exact fits (Nat.pow_lt_pow_right (by decide) (by omega))
    have wraps : 2^k*2^blkToSec % 2^32 = 0 := by
      rw [← Nat.pow_add]
      exact Nat.mod_eq_zero_of_dvd (Nat.pow_dvd_pow 2 large)
    rw [nothingFollows wraps small]
    constructor
    · rintro ⟨⟨part,_⟩,holes⟩
      exact ⟨holes,Or.inr part⟩
    · rintro ⟨holes,fits' | part⟩
      · exact absurd fits' fits
      · refine ⟨⟨part,?_⟩,holes⟩
        intro i inside
        rw [sectorBlock]
        exact holes _ ((Nat.div_lt_iff_lt_mul (Nat.two_pow_pos _)).mpr (by omega))

theorem entryFollows {map : Nat → Nat} {index count : Nat} (found : locate l f (lstart / 2^blkToSec) = .entry map index count)
    (fits : count*2^blkToSec < 2^32) (unit : unitShift ≤ blkToSec)
    (real : map index*2^unitShift + 2^blkToSec ≤ extentVoid) :
    Follows (blockAt l f) blkToSec unitShift lstart (scanSetNblocks l.skip map index count) ↔ map index = 0 ∨
      (map index*2^unitShift ||| lstart % 2^blkToSec = map index*2^unitShift + lstart % 2^blkToSec ∧
        RunTrue l.skip (2^(blkToSec - unitShift)) map index count) := by
  obtain ⟨n,eq,some',le,run,stop⟩ := @scanSpec map l.skip index _ (entryCount found).1
  have fits' : n*2^blkToSec < 2^32 := Nat.lt_of_le_of_lt (Nat.mul_le_mul_right _ le) fits
  rw [eq]
  by_cases hole : map index = 0
  · rw [hole,holeFollows some' fits']
    simp only [true_or,iff_true]
    intro j small
    rw [blockAtNext found (by omega)]
    cases j with
    | zero => exact hole
    | succ j =>
      rw [run (j + 1) (by omega) small,hole]
      simp [stride]
  · have step : stride l.skip (map index) = l.skip := if_neg hole
    rw [step] at run stop
    rw [dataFollows hole some' fits' unit real]
    simp only [hole,false_or]
    refine and_congr_right fun _ => ?_
    constructor
    · intro blocks m inside same
      have counted : m < n := by
        by_contra beyond
        exact stop (by omega) (same n some' (by omega))
      rw [← blocks m counted,blockAtNext found inside]
    · intro true' j small
      rw [blockAtNext found (by omega)]
      exact true' j (by omega) (fun i positive le' => run i positive (by omega))

theorem pointersFollow (shift : l.shift ≤ 15) (sectors : blkToSec ≤ 15) (unit : unitShift ≤ blkToSec)
    (real : ∀ b, blockAt l f b*2^unitShift + 2^blkToSec ≤ extentVoid) :
    Follows (blockAt l f) blkToSec unitShift lstart (bmapTraditional l f (lstart / 2^blkToSec)) ↔
      Right l f blkToSec unitShift lstart := by
  have nothing : Follows (blockAt l f) blkToSec unitShift lstart (0,0) ↔ HoleToTheEnd (blockAt l f) blkToSec lstart := by
    rw [nothingFollows (by simp) (by omega)]
    simp
  rw [bmapTraditionalEq shift,Right,reached]
  by_cases inside : lstart / 2^blkToSec < reach l
  · rw [if_pos inside,if_pos inside]
    cases found : locate l f (lstart / 2^blkToSec) with
    | missing size =>
      obtain ⟨k,word,rfl⟩ := missingSize shift inside found
      exact missingFollows word (by omega)
    | entry map index count =>
      have here := real (lstart / 2^blkToSec)
      rw [blockAt,found] at here
      refine entryFollows found ?_ unit here
      have most := Nat.mul_le_mul (entryCount found).2 (Nat.pow_le_pow_right (show 0 < 2 by decide) sectors)
      have count := Nat.pow_le_pow_right (show 0 < 2 by decide) shift
      have bound := Nat.mul_le_mul_right (2^15) (Nat.add_le_add_left count directBlocks)
      exact Nat.lt_of_le_of_lt (Nat.le_trans most bound) (by decide)
    | beyond => exact nothing
  · rw [if_neg inside,if_neg inside]
    exact nothing

end
end Syslinux.BlockMap
