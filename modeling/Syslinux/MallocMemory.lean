import Syslinux.MallocRealloc

/-! What the callers of the allocator keep in their blocks: an operation writes headers
and free blocks only, so the other blocks in use stay as they are. -/
namespace Syslinux.Malloc
open Chain

def usable (s : Arena) (ptr : Nat) : Nat := (s.hdr (ptr - headerSize)).size - headerSize

structure Unchanged (s s' : Arena) (ptr : Nat) : Prop where
  header : s'.hdr (ptr - headerSize) = s.hdr (ptr - headerSize)
  contents : read s'.mem ptr (usable s ptr) = read s.mem ptr (usable s ptr)

section
variable {s s' s'' : Arena} {ptr : Nat}

theorem unchangedRefl : Unchanged s s ptr := ⟨rfl,rfl⟩

theorem unchangedTrans (first : Unchanged s s' ptr) (second : Unchanged s' s'' ptr) : Unchanged s s'' ptr := by
  have same : usable s' ptr = usable s ptr := by rw [usable,first.header,usable]
  have later := second.contents
  rw [same] at later
  exact ⟨second.header.trans first.header,later.trans first.contents⟩

end

section
variable {owner : Nat → Heap} {s s' : Arena} {heap other : Heap} {blocks bs : List Block} {frees fs : List Nat}
  {b c : Block} {x : Nat}

theorem insideUnique (laid : Laid owner heap blocks) (mb : b ∈ blocks) (mc : c ∈ blocks) (first : b.Inside x)
    (second : c.Inside x) : b = c := by
  obtain ⟨xs,ys,rfl⟩ := List.append_of_mem mb
  unfold Block.Inside at first second
  rcases List.mem_append.mp mc with mc | mc
  · have := laidLeft laid c mc
    omega
  · rcases List.mem_cons.mp mc with rfl | mc
    · rfl
    · have := laidRight laid c mc
      omega

theorem insideOwner (laid : Laid owner heap blocks) (laid' : Laid owner other bs) (mb : b ∈ blocks) (mc : c ∈ bs)
    (first : b.Inside x) (second : c.Inside x) : other = heap :=
  ((laid'.good c mc).owned x second.1 second.2).symm.trans ((laid.good b mb).owned x first.1 first.2)

theorem contentsInside (above : c.addr + headerSize ≤ x) (below : x < c.addr + c.size) : c.Inside x := by
  unfold headerSize at above
  exact ⟨by omega,below⟩

theorem contentsBound (laid : Laid owner heap blocks) (m : c ∈ blocks) (below : x < c.addr + c.size) : x < 2^32 := by
  have := (laid.good c m).below
  unfold memMax at this
  omega

theorem contentsSafe (laid : Laid owner heap blocks) (m : c ∈ blocks) (used : c.free = false)
    (above : c.addr + headerSize ≤ x) (below : x < c.addr + c.size) : Safe blocks x := by
  refine ⟨contentsBound laid m below,?_⟩
  intro d md inside
  obtain rfl := insideUnique laid m md (contentsInside above below) inside
  exact ⟨used,above⟩

theorem contentsApart (laid : Laid owner heap blocks) (laid' : Laid owner other bs) (ne : other ≠ heap) (m : c ∈ bs)
    (above : c.addr + headerSize ≤ x) (below : x < c.addr + c.size) : Safe blocks x := by
  refine ⟨contentsBound laid' m below,?_⟩
  intro d md inside
  exact absurd (insideOwner laid laid' md m inside (contentsInside above below)) ne

theorem unchangedOf (before : s.hdr c.addr = c.header heap) (after : s'.hdr c.addr = c.header heap)
    (quiet : ∀ x, c.addr + headerSize ≤ x → x < c.addr + c.size → s'.mem x = s.mem x) :
    Unchanged s s' (c.addr + headerSize) := by
  refine ⟨?_,?_⟩
  · rw [Nat.add_sub_cancel,before,after]
  · refine List.map_congr_left ?_
    intro i small
    have small := List.mem_range.mp small
    rw [usable,Nat.add_sub_cancel,before] at small
    simp only [Block.header] at small
    exact quiet _ (Nat.le_add_right _ _) (by omega)

end

/- The requests that bios_malloc rounds up, and the ones that wrap around. -/
theorem blockSizeRoom {size : Nat} (fits : size + 31 < 2^32) : size + headerSize ≤ blockSize size := by
  have sum : add32 size (2*headerSize - 1) = size + 31 := add32Eq fits
  rw [blockSize,sum,sizeMask]
  unfold headerSize
  omega

theorem blockSizeWraps {size : Nat} (word : size < 2^32) (wraps : 2^32 ≤ size + 31) : blockSize size ≤ headerSize := by
  have sum : add32 size (2*headerSize - 1) = size + 31 - 2^32 := by
    unfold add32 headerSize
    omega
  rw [blockSize,sum,sizeMask]
  unfold headerSize
  omega

end Syslinux.Malloc
