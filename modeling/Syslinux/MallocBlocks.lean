import Syslinux.Malloc

/-! What the allocator is for, without its links: a heap is a list of blocks, and an
operation replaces a few neighbours in it by others that lie in the same place. -/
namespace Syslinux.Malloc

structure Block where
  addr : Nat
  size : Nat
  tag : Nat
  free : Bool
  deriving DecidableEq, Repr

/- E820_MEM_MAX, the end of what is ever given to a heap. -/
def memMax : Nat := 0xfff00000

structure Good (owner : Nat → Heap) (heap : Heap) (b : Block) : Prop where
  aligned : headerSize ∣ b.size
  room : 2*headerSize ≤ b.size
  below : b.addr + b.size ≤ memMax
  owned : ∀ x, b.addr ≤ x → x < b.addr + b.size → owner x = heap

structure Laid (owner : Nat → Heap) (heap : Heap) (blocks : List Block) : Prop where
  ordered : blocks.Pairwise (fun b c => b.addr + b.size ≤ c.addr)
  good : ∀ b ∈ blocks, Good owner heap b

def Apart (blocks : List Block) : Prop := blocks.Pairwise (fun b c => b.free → c.free → b.addr + b.size ≠ c.addr)

def total (blocks : List Block) : Nat := (blocks.map Block.size).sum

def usedBlocks (blocks : List Block) : List Block := blocks.filter (fun b => !b.free)

section
variable {owner : Nat → Heap} {heap : Heap} {xs ys mid mid' : List Block} {b c : Block}

theorem laidReplace (mid mid' : List Block) (laid : Laid owner heap (xs ++ mid ++ ys))
    (ordered : mid'.Pairwise (fun b c => b.addr + b.size ≤ c.addr)) (good : ∀ c ∈ mid', Good owner heap c)
    (from' : ∀ c ∈ mid', ∃ b ∈ mid, b.addr ≤ c.addr) (upto : ∀ c ∈ mid', ∃ b ∈ mid, c.addr + c.size ≤ b.addr + b.size) :
    Laid owner heap (xs ++ mid' ++ ys) := by
  have before := laid.ordered
  simp only [List.pairwise_append,List.mem_append] at before
  obtain ⟨⟨left,_,crossLeft⟩,right,crossRight⟩ := before
  refine ⟨?_,?_⟩
  · simp only [List.pairwise_append,List.mem_append]
    refine ⟨⟨left,ordered,?_⟩,right,?_⟩
    · intro a ma c mc
      obtain ⟨b,mb,le⟩ := from' c mc
      exact (crossLeft a ma b mb).trans le
    · rintro c (mc | mc) d md
      · exact crossRight c (Or.inl mc) d md
      · obtain ⟨b,mb,le⟩ := upto c mc
        exact le.trans (crossRight b (Or.inr mb) d md)
  · intro d md
    simp only [List.mem_append] at md
    rcases md with (md | md) | md
    · exact laid.good d (by simp [md])
    · exact good d md
    · exact laid.good d (by simp [md])

theorem goodPart (good : Good owner heap b) (aligned : headerSize ∣ c.size) (room : 2*headerSize ≤ c.size)
    (from' : b.addr ≤ c.addr) (upto : c.addr + c.size ≤ b.addr + b.size) : Good owner heap c := by
  refine ⟨aligned,room,upto.trans good.below,?_⟩
  intro x above below
  exact good.owned x (by omega) (by omega)

theorem goodJoin {d : Block} (first : Good owner heap b) (second : Good owner heap c) (touch : b.addr + b.size = c.addr)
    (addr : d.addr = b.addr) (size : d.size = b.size + c.size) : Good owner heap d := by
  refine ⟨?_,?_,?_,?_⟩
  · rw [size]; exact Nat.dvd_add first.aligned second.aligned
  · have := first.room; omega
  · have := second.below; omega
  · intro x above below
    by_cases inFirst : x < b.addr + b.size
    · exact first.owned x (by omega) inFirst
    · exact second.owned x (by omega) (by omega)

theorem totalReplace (xs ys : List Block) (same : total mid' = total mid) : total (xs ++ mid' ++ ys) = total (xs ++ mid ++ ys) := by
  unfold total at same ⊢
  simp [same]

theorem apartReplace (mid mid' : List Block) (old : Apart (xs ++ mid ++ ys)) (inside : Apart mid')
    (left : ∀ b ∈ xs, ∀ c ∈ mid', b.free → c.free → b.addr + b.size ≠ c.addr)
    (right : ∀ b ∈ mid', ∀ c ∈ ys, b.free → c.free → b.addr + b.size ≠ c.addr) : Apart (xs ++ mid' ++ ys) := by
  simp only [Apart,List.pairwise_append,List.mem_append] at old inside ⊢
  obtain ⟨⟨first,_,_⟩,last,cross⟩ := old
  refine ⟨⟨first,inside,left⟩,last,?_⟩
  rintro b (mb | mb) c mc
  · exact cross b (Or.inl mb) c mc
  · exact right b mb c mc

@[simp] theorem usedAppend : usedBlocks (xs ++ ys) = usedBlocks xs ++ usedBlocks ys := List.filter_append ..
theorem usedMem : c ∈ usedBlocks xs ↔ c ∈ xs ∧ c.free = false := by simp [usedBlocks]
@[simp] theorem usedFree (h : b.free = true) : usedBlocks (b::ys) = usedBlocks ys := by simp [usedBlocks,h]
@[simp] theorem usedUsed (h : b.free = false) : usedBlocks (b::ys) = b::usedBlocks ys := by simp [usedBlocks,h]

section
variable (laid : Laid owner heap (xs ++ b::ys))
include laid

theorem laidLeft : ∀ a ∈ xs, a.addr + a.size ≤ b.addr := by
  have ordered := laid.ordered
  simp only [List.pairwise_append,List.mem_cons] at ordered
  exact fun a m => ordered.2.2 a m b (Or.inl rfl)

theorem laidRight : ∀ c ∈ ys, b.addr + b.size ≤ c.addr := by
  have ordered := laid.ordered
  simp only [List.pairwise_append,List.pairwise_cons] at ordered
  exact ordered.2.1.1

theorem laidHere : Good owner heap b := laid.good b (by simp)

theorem laidInside {x : Nat} (above : b.addr < x) (below : x < b.addr + b.size) :
    x ∉ head heap::(xs ++ b::ys).map Block.addr := by
  have bound := (laidHere laid).below
  intro m
  rcases List.mem_cons.mp m with atHead | m
  · cases heap <;> simp only [head,memMax] at atHead bound <;> omega
  · obtain ⟨c,mc,same⟩ := List.mem_map.mp m
    rcases List.mem_append.mp mc with mc | mc
    · have := laidLeft laid c mc
      omega
    · rcases List.mem_cons.mp mc with rfl | mc
      · omega
      · have := laidRight laid c mc
        omega

end

section
variable (apart : Apart (xs ++ b::ys))
include apart

theorem apartLeft : ∀ a ∈ xs, a.free → b.free → a.addr + a.size ≠ b.addr := by
  simp only [Apart,List.pairwise_append,List.mem_cons] at apart
  exact fun a m => apart.2.2 a m b (Or.inl rfl)

theorem apartRight : ∀ c ∈ ys, b.free → c.free → b.addr + b.size ≠ c.addr := by
  simp only [Apart,List.pairwise_append,List.pairwise_cons] at apart
  exact apart.2.1.1

end

def carve (b : Block) (size tag : Nat) : List Block :=
  if size + 2*headerSize ≤ b.size then [⟨b.addr,size,tag,false⟩,⟨b.addr + size,b.size - size,mallocFree,true⟩]
  else [⟨b.addr,b.size,tag,false⟩]

section
variable {size tag : Nat}

theorem carveLaid (laid : Laid owner heap (xs ++ b::ys)) (aligned : headerSize ∣ size) (room : 2*headerSize ≤ size)
    (fits : size ≤ b.size) : Laid owner heap (xs ++ carve b size tag ++ ys) := by
  have good := laidHere laid
  refine laidReplace [b] (carve b size tag) (by simpa using laid) ?_ ?_ ?_ ?_
  all_goals unfold carve; split
  · simp
  · simp
  · simp only [List.mem_cons,List.not_mem_nil,or_false,forall_eq_or_imp,forall_eq]
    exact ⟨goodPart good aligned room (Nat.le_refl _) (by simp only; omega),
      goodPart good (Nat.dvd_sub good.aligned aligned) (by simp only; omega) (by simp) (by simp only; omega)⟩
  · simp only [List.mem_cons,List.not_mem_nil,or_false,forall_eq]
    exact goodPart good good.aligned good.room (Nat.le_refl _) (Nat.le_refl _)
  · simp
  · simp
  · simp only [List.mem_cons,List.not_mem_nil,or_false,forall_eq_or_imp,forall_eq,exists_eq_left]
    omega
  · simp

theorem carveApart (laid : Laid owner heap (xs ++ b::ys)) (apart : Apart (xs ++ b::ys)) (isFree : b.free = true)
    (room : 2*headerSize ≤ size) : Apart (xs ++ carve b size tag ++ ys) := by
  unfold headerSize at room
  refine apartReplace [b] (carve b size tag) (by simpa using apart) ?_ ?_ ?_
  · unfold carve
    split <;> simp [Apart]
  · intro a ma c mc _ free
    have before := laidLeft laid a ma
    unfold carve at mc
    split at mc
    · simp only [List.mem_cons,List.not_mem_nil,or_false] at mc
      rcases mc with rfl | rfl
      · simp at free
      · simp only [ne_eq]
        omega
    · rw [List.mem_singleton.mp mc] at free
      simp at free
  · intro c mc d md free free'
    have old := apartRight apart d md isFree free'
    unfold carve at mc
    split at mc
    · simp only [List.mem_cons,List.not_mem_nil,or_false] at mc
      rcases mc with rfl | rfl
      · simp at free
      · simp only [ne_eq]
        omega
    · rw [List.mem_singleton.mp mc] at free
      simp at free

theorem carveTotal (fits : size ≤ b.size) : total (xs ++ carve b size tag ++ ys) = total (xs ++ b::ys) := by
  have same : total (carve b size tag) = total [b] := by
    unfold carve
    split
    · simp only [total,List.map_cons,List.map_nil,List.sum_cons,List.sum_nil]
      omega
    · rfl
  simpa using totalReplace xs ys same

theorem carveUsed (xs ys : List Block) (size tag : Nat) (isFree : b.free = true) : ∃ taken : Block, taken.addr = b.addr ∧ taken.tag = tag ∧
    taken.free = false ∧ (size ≤ b.size → size ≤ taken.size) ∧ usedBlocks (xs ++ b::ys) = usedBlocks xs ++ usedBlocks ys ∧
    usedBlocks (xs ++ carve b size tag ++ ys) = usedBlocks xs ++ taken::usedBlocks ys := by
  have before : usedBlocks (xs ++ b::ys) = usedBlocks xs ++ usedBlocks ys := by simp [isFree]
  unfold carve
  split
  · exact ⟨⟨b.addr,size,tag,false⟩,rfl,rfl,rfl,fun _ => Nat.le_refl size,before,by simp⟩
  · exact ⟨⟨b.addr,b.size,tag,false⟩,rfl,rfl,rfl,id,before,by simp⟩

end

inductive FreedLeft (xs : List Block) (b : Block) : List Block → Block → Prop
  | alone : (∀ p ∈ xs, p.free → p.addr + p.size ≠ b.addr) →
      FreedLeft xs b xs { b with free := true, tag := mallocFree }
  | merged {ws p} : xs = ws ++ [p] → p.free = true → p.addr + p.size = b.addr →
      FreedLeft xs b ws { p with size := p.size + b.size }

inductive FreedRight (f : Block) (ys : List Block) : Block → List Block → Prop
  | alone : (∀ c ∈ ys, c.free → f.addr + f.size ≠ c.addr) → FreedRight f ys f ys
  | merged {c zs} : ys = c::zs → c.free = true → f.addr + f.size = c.addr →
      FreedRight f ys { f with size := f.size + c.size } zs

section
variable {ws zs : List Block} {f g : Block}

theorem freedLeftFree (left : FreedLeft xs b ws f) : f.free = true := by
  cases left with
  | alone => rfl
  | merged _ free => exact free

theorem freedRightAddr (right : FreedRight f ys g zs) : g.addr = f.addr ∧ g.free = f.free := by
  cases right <;> exact ⟨rfl,rfl⟩

theorem freedLeftLaid (laid : Laid owner heap (xs ++ b::ys)) (left : FreedLeft xs b ws f) :
    Laid owner heap (ws ++ f::ys) := by
  have good := laidHere laid
  cases left with
  | alone =>
    simpa using laidReplace [b] [{ b with free := true, tag := mallocFree }] (by simpa using laid)
      (by simp) (List.forall_mem_singleton.mpr (goodPart good good.aligned good.room (Nat.le_refl _) (Nat.le_refl _)))
      (by simp) (by simp)
  | @merged _ p eq free touch =>
    subst eq
    have before := laid.good p (by simp)
    simpa using laidReplace [p,b] [{ p with size := p.size + b.size }] (by simpa using laid)
      (by simp) (List.forall_mem_singleton.mpr (goodJoin before good touch rfl rfl)) (by simp) (by simp; omega)

theorem freedRightLaid (laid : Laid owner heap (ws ++ f::ys)) (right : FreedRight f ys g zs) :
    Laid owner heap (ws ++ g::zs) := by
  cases right with
  | alone => exact laid
  | @merged c _ eq free touch =>
    subst eq
    have behind := laid.good c (by simp)
    simpa using laidReplace [f,c] [{ f with size := f.size + c.size }] (by simpa using laid)
      (by simp) (List.forall_mem_singleton.mpr (goodJoin (laidHere laid) behind touch rfl rfl)) (by simp) (by simp; omega)

theorem freedLeftApart (apart : Apart (xs ++ b::ys)) (left : FreedLeft xs b ws f) :
    (∀ a ∈ ws, a.free → a.addr + a.size ≠ f.addr) ∧ Apart (ws ++ ys) := by
  have dropped : Apart (xs ++ ys) := apart.sublist ((List.sublist_cons_self b ys).append_left xs)
  cases left with
  | alone free => exact ⟨free,dropped⟩
  | @merged _ p eq free touch =>
    subst eq
    refine ⟨?_,?_⟩
    · intro a ma isFree
      have regrouped : Apart (ws ++ p::b::ys) := by simpa using apart
      exact apartLeft regrouped a ma isFree free
    · exact dropped.sublist (((List.sublist_append_left ws [p])).append_right ys)

theorem freedRightApart (left : ∀ a ∈ ws, a.free → a.addr + a.size ≠ f.addr) (apart : Apart (ws ++ ys))
    (right : FreedRight f ys g zs) : Apart (ws ++ g::zs) := by
  simp only [Apart,List.pairwise_append,List.pairwise_cons,List.mem_cons] at apart ⊢
  obtain ⟨first,last,cross⟩ := apart
  cases right with
  | alone free =>
    refine ⟨first,⟨fun c mc _ isFree => free c mc isFree,last⟩,?_⟩
    rintro a ma c (rfl | mc) isFree isFree'
    · exact left a ma isFree
    · exact cross a ma c mc isFree isFree'
  | @merged c _ eq free touch =>
    subst eq
    simp only [List.pairwise_cons,List.mem_cons] at last cross
    refine ⟨first,⟨?_,last.2⟩,?_⟩
    · intro d md _ isFree
      have old := last.1 d md free isFree
      simp only [ne_eq]
      omega
    · rintro a ma d (rfl | md) isFree isFree'
      · exact left a ma isFree
      · exact cross a ma d (Or.inr md) isFree isFree'

theorem freedTotal (left : FreedLeft xs b ws f) (right : FreedRight f ys g zs) :
    total (ws ++ g::zs) = total (xs ++ b::ys) := by
  have first : total (ws ++ f::ys) = total (xs ++ b::ys) := by
    cases left with
    | alone => simp [total]
    | merged eq => subst eq; simp [total]; omega
  have second : total (ws ++ g::zs) = total (ws ++ f::ys) := by
    cases right with
    | alone => rfl
    | merged eq => subst eq; simp [total]; omega
  exact second.trans first

theorem freedLeftUsed (left : FreedLeft xs b ws f) : usedBlocks ws = usedBlocks xs := by
  cases left with
  | alone => rfl
  | merged eq free => subst eq; simp [usedBlocks,free]

theorem freedRightUsed (right : FreedRight f ys g zs) : usedBlocks zs = usedBlocks ys := by
  cases right with
  | alone => rfl
  | merged eq free => subst eq; simp [free]

theorem freedUsed (left : FreedLeft xs b ws f) (right : FreedRight f ys g zs) :
    usedBlocks (ws ++ g::zs) = usedBlocks xs ++ usedBlocks ys := by
  have isFree : g.free = true := (freedRightAddr right).2.trans (freedLeftFree left)
  rw [usedAppend,usedFree isFree,freedLeftUsed left,freedRightUsed right]

end

theorem laidLength {blocks : List Block} (low : Nat) (laid : Laid owner heap blocks) (above : ∀ b ∈ blocks, low ≤ b.addr)
    (below : low ≤ memMax) : low + 2*headerSize*blocks.length ≤ memMax := by
  induction blocks generalizing low with
  | nil => exact below
  | cons b ys ih =>
    have good := laid.good b (by simp)
    have room := good.room
    have first := above b (by simp)
    have bound := good.below
    have rest : Laid owner heap ys := ⟨(List.pairwise_cons.mp laid.ordered).2,fun c m => laid.good c (by simp [m])⟩
    have later := ih (low + 2*headerSize) rest ?_ (by omega)
    · rw [List.length_cons,Nat.mul_succ]
      omega
    · intro c m
      have := (List.pairwise_cons.mp laid.ordered).1 c m
      omega

theorem insertLaid (laid : Laid owner heap (xs ++ ys)) (good : Good owner heap b)
    (before : ∀ a ∈ xs, a.addr + a.size ≤ b.addr) (behind : ∀ c ∈ ys, b.addr + b.size ≤ c.addr) :
    Laid owner heap (xs ++ b::ys) := by
  have ordered := laid.ordered
  simp only [List.pairwise_append] at ordered
  refine ⟨?_,?_⟩
  · simp only [List.pairwise_append,List.pairwise_cons,List.mem_cons]
    refine ⟨ordered.1,⟨behind,ordered.2.1⟩,?_⟩
    rintro a ma c (rfl | mc)
    · exact before a ma
    · exact ordered.2.2 a ma c mc
  · intro c m
    rcases List.mem_append.mp m with m | m
    · exact laid.good c (by simp [m])
    · rcases List.mem_cons.mp m with rfl | m
      · exact good
      · exact laid.good c (by simp [m])

theorem insertApart (apart : Apart (xs ++ ys)) (used : b.free = false) : Apart (xs ++ b::ys) := by
  simp only [Apart,List.pairwise_append] at apart
  simp only [Apart,List.pairwise_append,List.pairwise_cons,List.mem_cons]
  refine ⟨apart.1,⟨by simp [used],apart.2.1⟩,?_⟩
  rintro a ma c (rfl | mc)
  · simp [used]
  · exact apart.2.2 a ma c mc

theorem cutLaid {size : Nat} (rest : Nat) (laid : Laid owner heap (xs ++ b::ys)) (aligned : headerSize ∣ size)
    (room : 2*headerSize ≤ size) (enough : size + 2*headerSize ≤ b.size) :
    Laid owner heap (xs ++ { b with size := size }::⟨b.addr + size,b.size - size,rest,true⟩::ys) := by
  have good := laidHere laid
  have whole : Laid owner heap (xs ++ [b] ++ ys) := by simpa using laid
  have replaced := laidReplace [b] [{ b with size := size },⟨b.addr + size,b.size - size,rest,true⟩] whole ?_ ?_ ?_ ?_
  · simpa using replaced
  · simp
  · simp only [List.mem_cons,List.not_mem_nil,or_false,forall_eq_or_imp,forall_eq]
    exact ⟨goodPart good aligned room (Nat.le_refl _) (by simp only; omega),
      goodPart good (Nat.dvd_sub good.aligned aligned) (by simp only; omega) (by simp) (by simp only; omega)⟩
  · simp
  · simp only [List.mem_cons,List.not_mem_nil,or_false,forall_eq_or_imp,forall_eq,exists_eq_left]
    omega

theorem cutApart {size : Nat} (rest : Nat) (laid : Laid owner heap (xs ++ b::ys)) (apart : Apart (xs ++ ys)) (used : b.free = false)
    (positive : 0 < size) (small : size ≤ b.size) (right : ∀ c ∈ ys, c.free → b.addr + b.size ≠ c.addr) :
    Apart (xs ++ { b with size := size }::⟨b.addr + size,b.size - size,rest,true⟩::ys) := by
  simp only [Apart,List.pairwise_append] at apart
  simp only [Apart,List.pairwise_append,List.pairwise_cons,List.mem_cons]
  refine ⟨apart.1,⟨by simp [used],?_,apart.2.1⟩,?_⟩
  · intro c m _ isFree
    have old := right c m isFree
    simp only [ne_eq]
    omega
  · rintro a ma c (rfl | rfl | mc) isFree isFree'
    · simp [used] at isFree'
    · have := laidLeft laid a ma
      simp only [ne_eq]
      omega
    · exact apart.2.2 a ma c mc isFree isFree'

theorem apartAll {blocks : List Block} (laid : Laid owner heap blocks) (apart : Apart blocks) (mb : b ∈ blocks)
    (mc : c ∈ blocks) (free : b.free = true) (free' : c.free = true) : b.addr + b.size ≠ c.addr := by
  obtain ⟨xs,ys,rfl⟩ := List.append_of_mem mb
  have room := (laidHere laid).room
  unfold headerSize at room
  rcases List.mem_append.mp mc with mc | mc
  · have := laidLeft laid c mc
    omega
  · rcases List.mem_cons.mp mc with rfl | mc
    · omega
    · exact apartRight apart c mc free free'

end
end Syslinux.Malloc
