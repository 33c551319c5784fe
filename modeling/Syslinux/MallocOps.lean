import Syslinux.MallocChains

/-! The operations of the allocator on one heap: what each makes of the list of blocks. -/
namespace Syslinux.Malloc
open Chain

structure Sound (owner : Nat → Heap) (s : Arena) (heap : Heap) (blocks : List Block) (frees : List Nat) : Prop where
  rep : Rep s heap blocks frees
  laid : Laid owner heap blocks
  apart : Apart blocks

section
variable {owner : Nat → Heap} {s : Arena} {heap : Heap} {xs ys : List Block} {b c : Block} {frees : List Nat}
  {a fp nfp size tag : Nat}

theorem sizeMaskEq (h : headerSize ∣ size) : sizeMask size = size := Nat.div_mul_cancel h

theorem splitWrites (tag : Nat) (enough : add32 size (2*headerSize) ≤ (s.hdr fp).size) (place : add32 fp size = nfp) (ne : nfp ≠ fp)
    (next : s.all.next fp ≠ nfp) (nextFree : s.free.next fp ≠ nfp) (self : s.free.next fp ≠ fp) :
    ∃ mem, (mallocFromBlock s fp size tag).1 = { (((((s.setHdr nfp
        ⟨mallocFree,.free,(s.hdr fp).heap,sizeMask ((s.hdr fp).size - size)⟩).setHdr fp
        ⟨tag,.used,(s.hdr fp).heap,sizeMask size⟩).joinAll nfp (s.all.next fp)).joinAll fp nfp).joinFree nfp
        (s.free.next fp)).joinFree (s.free.prev fp) nfp with mem := mem } ∧
      ∀ x, Beside x [fp,nfp,s.all.next fp] [nfp,s.free.next fp,s.free.prev fp] → mem x = s.mem x := by
  refine ⟨(mallocFromBlock s fp size tag).1.mem,?_,?_⟩
  · simp only [mallocFromBlock,if_pos enough,place]
    simp only [Arena.setType,Arena.setHeap,Arena.setSize,Arena.setTag,Arena.setAttrs,Arena.setHdr,Arena.setNext,
      Arena.setPrev,Arena.setNextFree,Arena.setPrevFree,Arena.poke,Arena.joinAll,Arena.joinFree,Links.join,Links.setNext,
      Links.setPrev,Function.update_self,Function.update_of_ne ne.symm,Function.update_idem,Function.update_comm next,
      Function.update_comm nextFree,Function.update_comm ne,Function.update_of_ne self.symm]
  · intro x beside
    simp only [Beside,List.forall_mem_cons,List.not_mem_nil,false_implies,implies_true,and_true,headerSize] at beside
    simp only [mallocFromBlock,if_pos enough,place]
    simp only [Arena.setType,Arena.setHeap,Arena.setSize,Arena.setTag,Arena.setAttrs,Arena.setHdr,Arena.setNext,
      Arena.setPrev,Arena.setNextFree,Arena.setPrevFree,Arena.poke,Links.setNext,Links.setPrev,Function.update_of_ne ne.symm,
      Function.update_of_ne self.symm]
    simp (disch := omega) only [pokeBeside]

theorem takeWrites (tag : Nat) (small : ¬ add32 size (2*headerSize) ≤ (s.hdr fp).size) (self : s.free.next fp ≠ fp) :
    ∃ mem, (mallocFromBlock s fp size tag).1 = { (s.setHdr fp ⟨tag,.used,(s.hdr fp).heap,(s.hdr fp).size⟩).joinFree
        (s.free.prev fp) (s.free.next fp) with mem := mem } ∧
      ∀ x, Beside x [fp] [s.free.next fp,s.free.prev fp] → mem x = s.mem x := by
  refine ⟨(mallocFromBlock s fp size tag).1.mem,?_,?_⟩
  · simp only [mallocFromBlock,if_neg small]
    simp only [Arena.setType,Arena.setTag,Arena.setAttrs,Arena.setHdr,Arena.setNextFree,Arena.setPrevFree,Arena.poke,
      Arena.joinFree,Links.join,Links.setNext,Links.setPrev,Function.update_self,Function.update_idem,
      Function.update_of_ne self.symm]
  · intro x beside
    simp only [Beside,List.forall_mem_cons,List.not_mem_nil,false_implies,implies_true,and_true,headerSize] at beside
    simp only [mallocFromBlock,if_neg small]
    simp only [Arena.setType,Arena.setTag,Arena.setAttrs,Arena.setHdr,Arena.setNextFree,Arena.setPrevFree,Arena.poke,
      Links.setPrev,Function.update_of_ne self.symm]
    simp (disch := omega) only [pokeBeside]

section
variable (h : Sound owner s heap (xs ++ b::ys) frees)
include h

theorem freeNodes (isFree : b.free = true) : s.free.next b.addr ≠ b.addr ∧ s.free.next b.addr ∈ head heap::frees ∧
    s.free.prev b.addr ∈ head heap::frees := by
  obtain ⟨us,vs,eq,_⟩ := repFree h.rep isFree
  have ring := h.rep.free
  rw [eq] at ring
  have m : b.addr ∈ head heap::frees := by simp [eq]
  exact ⟨circularNextNe ring,circularNextMem h.rep.free m,circularPrevMem h.rep.free m⟩

theorem nextNode : s.all.next b.addr ∈ head heap::(xs ++ b::ys).map Block.addr :=
  circularNextMem h.rep.all (by simp)

theorem mallocFromBlockRep (isFree : b.free = true) (aligned : headerSize ∣ size) (room : 2*headerSize ≤ size)
    (fits : size ≤ b.size) (tag : Nat) :
    (∃ frees', Rep (mallocFromBlock s b.addr size tag).1 heap (xs ++ carve b size tag ++ ys) frees') ∧
      Frame owner heap s (mallocFromBlock s b.addr size tag).1 ∧
      ∀ x, Safe (xs ++ b::ys) x → (mallocFromBlock s b.addr size tag).1.mem x = s.mem x := by
  have good := laidHere h.laid
  have header := (repHere h.rep).here
  have below := good.below
  unfold memMax at below
  obtain ⟨self,nextFree,prevFree⟩ := freeNodes h isFree
  have nextMem := nodeOfFree h.rep nextFree
  have prevMem := nodeOfFree h.rep prevFree
  have outside : ∀ x, Safe (xs ++ b::ys) x → ¬ b.Inside x := by
    intro x safe inside
    have := (safe.2 b (by simp) inside).1
    rw [isFree] at this
    contradiction
  have sum : add32 size (2*headerSize) = size + 2*headerSize := add32Eq (by unfold headerSize; omega)
  have allowed := fun p m => allowedNode h.laid (p := p) m
  have okHere := allowed b.addr (by simp)
  by_cases enough : size + 2*headerSize ≤ b.size
  · unfold headerSize at room
    have inside := laidInside h.laid (x := b.addr + size) (by omega) (by unfold headerSize at enough; omega)
    have okRest := allowedInside good (p := b.addr + size) (by omega) (by unfold headerSize at enough; omega)
    obtain ⟨mem,writes,others⟩ := splitWrites (s := s) tag (by rw [sum,header]; exact enough)
      (add32Eq (by omega)) (by omega) (fun same => inside (same ▸ nextNode h)) (fun same => inside (same ▸ nextMem)) self
    rw [header] at writes
    simp only [Block.header,sizeMaskEq aligned,sizeMaskEq (Nat.dvd_sub good.aligned aligned)] at writes
    obtain ⟨frees',rep⟩ := repSplit ⟨b.addr,size,tag,false⟩ ⟨b.addr + size,b.size - size,mallocFree,true⟩
      h.rep isFree rfl rfl rfl inside
    rw [writes,carve,if_pos enough]
    refine ⟨⟨frees',repMem mem (by simpa [Block.header] using rep)⟩,frameMem mem ?_,?_⟩
    · refine frameTrans (frameTrans (frameTrans (frameTrans (frameTrans (frameHdr okRest _) (frameHdr okHere _))
        (frameAll okRest ?_)) (frameAll okHere okRest)) (frameFree okRest ?_)) (frameFree ?_ okRest)
      · exact allowed _ (nextNode h)
      · exact allowed _ nextMem
      · exact allowed _ prevMem
    · intro x safe
      have apart := outside x safe
      unfold Block.Inside at apart
      unfold headerSize at enough
      refine others x ⟨?_,?_⟩
      · simp only [List.forall_mem_cons,List.not_mem_nil,false_implies,implies_true,and_true]
        exact ⟨safeHeader safe h.laid (by simp),by unfold headerSize; omega,safeHeader safe h.laid (nextNode h)⟩
      · simp only [List.forall_mem_cons,List.not_mem_nil,false_implies,implies_true,and_true]
        exact ⟨by unfold headerSize; omega,safeLinks safe h.rep h.laid nextFree,safeLinks safe h.rep h.laid prevFree⟩
  · obtain ⟨mem,writes,others⟩ := takeWrites (s := s) tag (by rw [sum,header]; exact enough) self
    rw [header] at writes
    obtain ⟨frees',rep⟩ := repTake ⟨b.addr,b.size,tag,false⟩ h.rep isFree rfl rfl
    rw [writes,carve,if_neg enough]
    refine ⟨⟨frees',repMem mem (by simpa [Block.header] using rep)⟩,frameMem mem ?_,?_⟩
    · exact frameTrans (frameHdr okHere _) (frameFree (allowed _ prevMem) (allowed _ nextMem))
    · intro x safe
      refine others x ⟨?_,?_⟩
      · simp only [List.forall_mem_cons,List.not_mem_nil,false_implies,implies_true,and_true]
        exact safeHeader safe h.laid (by simp)
      · simp only [List.forall_mem_cons,List.not_mem_nil,false_implies,implies_true,and_true]
        exact ⟨safeLinks safe h.rep h.laid nextFree,safeLinks safe h.rep h.laid prevFree⟩

theorem mallocFromBlockSound (isFree : b.free = true) (aligned : headerSize ∣ size) (room : 2*headerSize ≤ size)
    (fits : size ≤ b.size) (tag : Nat) :
    ∃ frees', Sound owner (mallocFromBlock s b.addr size tag).1 heap (xs ++ carve b size tag ++ ys) frees' ∧
      Frame owner heap s (mallocFromBlock s b.addr size tag).1 ∧
      ∀ x, Safe (xs ++ b::ys) x → (mallocFromBlock s b.addr size tag).1.mem x = s.mem x := by
  obtain ⟨⟨frees',rep⟩,frame,quiet⟩ := mallocFromBlockRep h isFree aligned room fits tag
  exact ⟨frees',⟨rep,carveLaid h.laid aligned room fits,carveApart h.laid h.apart isFree room⟩,frame,quiet⟩

end

section
variable {ah nah : Nat}

theorem releaseWrites (alone : ¬ ((s.hdr (s.all.prev ah)).type = .free ∧
      add32 (s.all.prev ah) (s.hdr (s.all.prev ah)).size = ah))
    (notHead : ah ≠ head (s.hdr ah).heap) (fresh : s.free.next (head (s.hdr ah).heap) ≠ ah) :
    ∃ mem, coalescePrev s ah = ({ ((s.setHdr ah ⟨mallocFree,.free,(s.hdr ah).heap,(s.hdr ah).size⟩).joinFree ah
        (s.free.next (head (s.hdr ah).heap))).joinFree (head (s.hdr ah).heap) ah with mem := mem },ah) ∧
      ∀ x, Beside x [ah] [ah,head (s.hdr ah).heap,s.free.next (head (s.hdr ah).heap)] → mem x = s.mem x := by
  refine ⟨(coalescePrev s ah).1.mem,?_,?_⟩
  · simp only [coalescePrev,if_neg alone]
    simp only [Arena.setType,Arena.setTag,Arena.setAttrs,Arena.setHdr,Arena.setNextFree,Arena.setPrevFree,Arena.poke,
      Arena.joinFree,Links.join,Links.setNext,Links.setPrev,Function.update_self,Function.update_idem,
      Function.update_of_ne notHead,Function.update_comm fresh]
  · intro x beside
    simp only [Beside,List.forall_mem_cons,List.not_mem_nil,false_implies,implies_true,and_true,headerSize] at beside
    simp only [coalescePrev,if_neg alone]
    simp only [Arena.setType,Arena.setTag,Arena.setAttrs,Arena.setHdr,Arena.setNextFree,Arena.setPrevFree,Arena.poke,
      Links.setNext,Links.setPrev,Function.update_self,Function.update_of_ne notHead]
    simp (disch := omega) only [pokeBeside]

theorem mergePrevWrites (touch : (s.hdr (s.all.prev ah)).type = .free ∧
      add32 (s.all.prev ah) (s.hdr (s.all.prev ah)).size = ah) :
    ∃ mem, coalescePrev s ah = ({ (s.setHdr (s.all.prev ah) { s.hdr (s.all.prev ah) with
        size := sizeMask (add32 (s.hdr (s.all.prev ah)).size (s.hdr ah).size) }).joinAll (s.all.prev ah) (s.all.next ah)
        with mem := mem },s.all.prev ah) ∧
      ∀ x, Beside x [s.all.prev ah,s.all.next ah] [] → mem x = s.mem x := by
  refine ⟨(coalescePrev s ah).1.mem,?_,?_⟩
  · simp only [coalescePrev,if_pos touch]
    rfl
  · intro x beside
    simp only [Beside,List.forall_mem_cons,List.not_mem_nil,false_implies,implies_true,and_true,headerSize] at beside
    simp only [coalescePrev,if_pos touch]
    simp only [Arena.setSize,Arena.setAttrs,Arena.setHdr,Arena.setNext,Arena.setPrev,Arena.poke]
    simp (disch := omega) only [pokeBeside]

theorem mergeNextWrites (touch : (s.hdr nah).type = .free ∧ add32 ah (s.hdr ah).size = nah) (ne : ah ≠ nah)
    (self : s.free.next nah ≠ nah) :
    ∃ mem, coalesceNext s ah nah = { ((s.setHdr ah { s.hdr ah with
        size := sizeMask (add32 (s.hdr ah).size (s.hdr nah).size) }).joinFree (s.free.prev nah) (s.free.next nah)).joinAll ah
        (s.all.next nah) with mem := mem } ∧
      ∀ x, Beside x [ah,s.all.next nah] [s.free.next nah,s.free.prev nah] → mem x = s.mem x := by
  refine ⟨(coalesceNext s ah nah).mem,?_,?_⟩
  · simp only [coalesceNext,if_pos touch]
    simp only [Arena.setSize,Arena.setAttrs,Arena.setHdr,Arena.setNext,Arena.setPrev,Arena.setNextFree,Arena.setPrevFree,
      Arena.poke,Arena.joinFree,Arena.joinAll,Links.join,Links.setNext,Links.setPrev,Function.update_of_ne self.symm,
      Function.update_of_ne ne.symm]
  · intro x beside
    simp only [Beside,List.forall_mem_cons,List.not_mem_nil,false_implies,implies_true,and_true,headerSize] at beside
    simp only [coalesceNext,if_pos touch]
    simp only [Arena.setSize,Arena.setAttrs,Arena.setHdr,Arena.setNext,Arena.setPrev,Arena.setNextFree,Arena.setPrevFree,
      Arena.poke,Links.setNext,Links.setPrev,Function.update_of_ne self.symm,Function.update_of_ne ne.symm]
    simp (disch := omega) only [pokeBeside]

end

theorem prevOf (rep : Rep s heap (xs ++ b::ys) frees) : (xs = [] ∧ s.all.prev b.addr = head heap) ∨
    ∃ ws p, xs = ws ++ [p] ∧ s.all.prev b.addr = p.addr ∧ s.hdr p.addr = p.header heap := by
  have prev : s.all.prev b.addr = lastOf (head heap) (xs.map Block.addr) := circularPrev (by simpa using rep.all)
  rcases List.eq_nil_or_concat xs with rfl | ⟨ws,p,rfl⟩
  · exact Or.inl ⟨rfl,prev⟩
  · refine Or.inr ⟨ws,p,by simp,?_,rep.holds p (by simp)⟩
    rw [prev]
    simp [lastAppend,lastOf]

theorem nextOf (rep : Rep s heap (xs ++ b::ys) frees) : (ys = [] ∧ s.all.next b.addr = head heap) ∨
    ∃ c zs, ys = c::zs ∧ s.all.next b.addr = c.addr ∧ s.hdr c.addr = c.header heap := by
  have next := repNext rep
  cases ys with
  | nil => exact Or.inl ⟨rfl,next⟩
  | cons c zs => exact Or.inr ⟨c,zs,rfl,next,rep.holds c (by simp)⟩

theorem headerFree : (b.header heap).type = .free ↔ b.free = true := by
  unfold Block.header
  cases b.free <;> simp

theorem blockEnd (good : Good owner heap b) : add32 b.addr b.size = b.addr + b.size := by
  have := good.below
  unfold memMax at this
  exact add32Eq (by omega)

theorem joinedSize (first : Good owner heap b) (second : Good owner heap c) (touch : b.addr + b.size = c.addr) :
    sizeMask (add32 b.size c.size) = b.size + c.size := by
  have := second.below
  unfold memMax at this
  rw [add32Eq (by omega),sizeMaskEq (Nat.dvd_add first.aligned second.aligned)]

/- What __free_block does to the left: the previous block is the last of `xs`. -/
theorem coalescePrevRep (rep : Rep s heap (xs ++ b::ys) frees) (laid : Laid owner heap (xs ++ b::ys))
    (used : b.free = false) : ∃ ws f frees', FreedLeft xs b ws f ∧ (coalescePrev s b.addr).2 = f.addr ∧
      Rep (coalescePrev s b.addr).1 heap (ws ++ f::ys) frees' ∧ Frame owner heap s (coalescePrev s b.addr).1 ∧
      ∀ x, Safe (xs ++ b::ys) x → ¬ b.Inside x → (coalescePrev s b.addr).1.mem x = s.mem x := by
  have h := repHere rep
  have header := h.here
  have good := laidHere laid
  have allowed := fun p m => allowedNode laid (p := p) m
  by_cases touch : (s.hdr (s.all.prev b.addr)).type = .free ∧
      add32 (s.all.prev b.addr) (s.hdr (s.all.prev b.addr)).size = b.addr
  · obtain ⟨mem,writes,others⟩ := mergePrevWrites touch
    rcases prevOf rep with ⟨rfl,prev⟩ | ⟨ws,p,rfl,prev,previous⟩
    · rw [prev,rep.headType] at touch
      exact absurd touch.1 (by decide)
    · rw [prev,previous,headerFree] at touch
      obtain ⟨isFree,touch⟩ := touch
      have before := laid.good p (by simp)
      have touch : p.addr + p.size = b.addr := (blockEnd before).symm.trans touch
      rw [prev,previous,header] at writes
      rw [writes]
      have regrouped : Rep s heap (ws ++ p::b::ys) frees := by simpa using rep
      have merged := repMergePrev { p with size := p.size + b.size } regrouped isFree used rfl isFree
      refine ⟨ws,{ p with size := p.size + b.size },frees,.merged rfl isFree touch,rfl,?_,?_,?_⟩
      · exact repMem mem (by simpa [Block.header,joinedSize before good touch] using merged)
      · exact frameMem mem <| frameTrans (frameHdr (allowed _ (by simp)) _)
          (frameAll (allowed _ (by simp)) (allowed _ (circularNextMem rep.all (by simp))))
      · intro x safe _
        refine others x ⟨?_,by simp⟩
        simp only [List.forall_mem_cons,List.not_mem_nil,false_implies,implies_true,and_true]
        exact ⟨safeHeader safe laid (by simp [prev]),safeHeader safe laid (circularNextMem rep.all (by simp))⟩
  · have alone : ∀ p ∈ xs, p.free → p.addr + p.size ≠ b.addr := by
      intro p m isFree same
      rcases prevOf rep with ⟨rfl,_⟩ | ⟨ws,q,rfl,prev,previous⟩
      · simp at m
      · have last := laid.good q (by simp)
        rcases List.mem_append.mp m with m | m
        · have regrouped : Laid owner heap (ws ++ q::b::ys) := by simpa using laid
          have := laidLeft regrouped p m
          have := laidLeft laid q (by simp)
          have := last.room
          unfold headerSize at this
          omega
        · rw [List.mem_singleton.mp m] at isFree same
          rw [prev,previous,headerFree] at touch
          exact touch ⟨isFree,(blockEnd last).trans same⟩
    have fresh : b.addr ∉ head heap::frees := by
      refine freshFree rep ?_ h.notHead
      intro d md free same
      rcases List.mem_append.mp md with m | m
      · exact h.notLeft (same ▸ List.mem_map_of_mem m)
      · rcases List.mem_cons.mp m with rfl | m
        · rw [used] at free
          contradiction
        · exact h.notRight (same ▸ List.mem_map_of_mem m)
    have nextMem := circularNextMem rep.free (c := head heap) (by simp)
    obtain ⟨mem,writes,others⟩ := releaseWrites touch (by rw [header]; exact h.notHead)
      (by rw [header]; exact fun same => fresh (same ▸ nextMem))
    obtain ⟨frees',released⟩ := repRelease { b with free := true, tag := mallocFree } rep used rfl rfl
    rw [header] at writes others
    rw [writes]
    refine ⟨xs,_,frees',.alone alone,rfl,?_,?_,?_⟩
    · exact repMem mem (by simpa [Block.header] using released)
    · have okHead := allowed (head heap) (by simp)
      have okHere := allowed b.addr (by simp)
      exact frameMem mem <| frameTrans (frameTrans (frameHdr okHere _) (frameFree okHere (allowed _ (nodeOfFree rep nextMem))))
        (frameFree okHead okHere)
    · intro x safe outside
      have room := good.room
      unfold Block.Inside at outside
      refine others x ⟨?_,?_⟩
      · simp only [List.forall_mem_cons,List.not_mem_nil,false_implies,implies_true,and_true]
        exact safeHeader safe laid (by simp)
      · simp only [List.forall_mem_cons,List.not_mem_nil,false_implies,implies_true,and_true]
        refine ⟨?_,safeLinks safe rep laid (by simp [Block.header]),safeLinks safe rep laid nextMem⟩
        unfold headerSize at *
        omega

theorem coalesceNextRep (rep : Rep s heap (xs ++ b::ys) frees) (laid : Laid owner heap (xs ++ b::ys)) :
    ∃ g zs frees', FreedRight b ys g zs ∧ Rep (coalesceNext s b.addr (s.all.next b.addr)) heap (xs ++ g::zs) frees' ∧
      Frame owner heap s (coalesceNext s b.addr (s.all.next b.addr)) ∧
      ∀ x, Safe (xs ++ b::ys) x → (coalesceNext s b.addr (s.all.next b.addr)).mem x = s.mem x := by
  have header := (repHere rep).here
  have good := laidHere laid
  have allowed := fun p m => allowedNode laid (p := p) m
  by_cases touch : (s.hdr (s.all.next b.addr)).type = .free ∧ add32 b.addr (s.hdr b.addr).size = s.all.next b.addr
  · rcases nextOf rep with ⟨rfl,next⟩ | ⟨c,zs,rfl,next,following⟩
    · rw [next,rep.headType] at touch
      exact absurd touch.1 (by decide)
    · have behind := laid.good c (by simp)
      have split : xs ++ b::c::zs = (xs ++ [b]) ++ c::zs := by simp
      rw [next] at touch ⊢
      have isFree : c.free = true := by
        have := touch.1
        rwa [following,headerFree] at this
      have meet : b.addr + b.size = c.addr := by
        have := touch.2
        rw [header] at this
        exact (blockEnd good).symm.trans this
      obtain ⟨us,vs,eq,_⟩ := repFree (split ▸ rep) isFree
      have ring := rep.free
      rw [eq] at ring
      have room := good.room
      unfold headerSize at room
      obtain ⟨mem,writes,others⟩ := mergeNextWrites touch (by omega) (circularNextNe ring)
      rw [header,following] at writes
      obtain ⟨frees',merged⟩ := repMergeNext { b with size := b.size + c.size } rep isFree rfl rfl
      have onChain : c.addr ∈ head heap::frees := by simp [eq]
      rw [writes]
      refine ⟨{ b with size := b.size + c.size },zs,frees',.merged rfl isFree meet,?_,?_,?_⟩
      · exact repMem mem (by simpa [Block.header,joinedSize good behind meet] using merged)
      · exact frameMem mem <| frameTrans (frameTrans (frameHdr (allowed _ (by simp)) _)
          (frameFree (allowed _ (nodeOfFree rep (circularPrevMem rep.free onChain)))
            (allowed _ (nodeOfFree rep (circularNextMem rep.free onChain)))))
          (frameAll (allowed _ (by simp)) (allowed _ (circularNextMem rep.all (by simp))))
      · intro x safe
        refine others x ⟨?_,?_⟩
        · simp only [List.forall_mem_cons,List.not_mem_nil,false_implies,implies_true,and_true]
          exact ⟨safeHeader safe laid (by simp),safeHeader safe laid (circularNextMem rep.all (by simp))⟩
        · simp only [List.forall_mem_cons,List.not_mem_nil,false_implies,implies_true,and_true]
          exact ⟨safeLinks safe rep laid (circularNextMem rep.free onChain),
            safeLinks safe rep laid (circularPrevMem rep.free onChain)⟩
  · have alone : ∀ c ∈ ys, c.free → b.addr + b.size ≠ c.addr := by
      intro c m isFree same
      rcases nextOf rep with ⟨rfl,_⟩ | ⟨d,zs,rfl,next,following⟩
      · simp at m
      · rcases List.mem_cons.mp m with rfl | m
        · rw [next,following,headerFree,header] at touch
          exact touch ⟨isFree,(blockEnd good).trans same⟩
        · have regrouped : Laid owner heap ((xs ++ [b]) ++ d::zs) := by simpa using laid
          have := laidRight laid d (by simp)
          have := laidRight regrouped c m
          have := (laid.good d (by simp)).room
          unfold headerSize at this
          omega
    rw [coalesceNext,if_neg touch]
    exact ⟨b,ys,frees,.alone alone,rep,frameRefl,fun _ _ => rfl⟩

theorem freedLeftSafe {ws : List Block} {f : Block} {x : Nat} (left : FreedLeft xs b ws f) (safe : Safe (xs ++ b::ys) x)
    (outside : ¬ b.Inside x) : Safe (ws ++ f::ys) x := by
  refine ⟨safe.1,?_⟩
  cases left with
  | alone =>
    intro c m inside
    rcases List.mem_append.mp m with m | m
    · exact safe.2 c (by simp [m]) inside
    · rcases List.mem_cons.mp m with rfl | m
      · exact absurd inside outside
      · exact safe.2 c (by simp [m]) inside
  | @merged _ p eq isFree touch =>
    subst eq
    intro c m inside
    rcases List.mem_append.mp m with m | m
    · exact safe.2 c (by simp [m]) inside
    · rcases List.mem_cons.mp m with rfl | m
      · have before : p.Inside x := by
          unfold Block.Inside at *
          simp only at inside
          omega
        have := (safe.2 p (by simp) before).1
        rw [isFree] at this
        contradiction
      · exact safe.2 c (by simp [m]) inside

theorem freedRightSafe {f g : Block} {zs : List Block} {x : Nat} (right : FreedRight f ys g zs) (safe : Safe (xs ++ f::ys) x) :
    Safe (xs ++ g::zs) x := by
  cases right with
  | alone => exact safe
  | @merged c _ eq isFree touch =>
    subst eq
    refine ⟨safe.1,?_⟩
    intro d m inside
    rcases List.mem_append.mp m with m | m
    · exact safe.2 d (by simp [m]) inside
    · rcases List.mem_cons.mp m with rfl | m
      · by_cases behind : c.Inside x
        · have := (safe.2 c (by simp) behind).1
          rw [isFree] at this
          contradiction
        · have here : f.Inside x := by
            unfold Block.Inside at *
            simp only at inside
            omega
          exact safe.2 f (by simp) here
      · exact safe.2 d (by simp [m]) inside

theorem freeBlockSound (h : Sound owner s heap (xs ++ b::ys) frees) (used : b.free = false) :
    ∃ ws f g zs frees', FreedLeft xs b ws f ∧ FreedRight f ys g zs ∧ (freeBlock s b.addr).2 = g.addr ∧
      Sound owner (freeBlock s b.addr).1 heap (ws ++ g::zs) frees' ∧ Frame owner heap s (freeBlock s b.addr).1 ∧
      ∀ x, Safe (xs ++ b::ys) x → ¬ b.Inside x → (freeBlock s b.addr).1.mem x = s.mem x := by
  obtain ⟨ws,f,frees1,left,addr,rep,frame,quiet⟩ := coalescePrevRep h.rep h.laid used
  have laid := freedLeftLaid h.laid left
  obtain ⟨notTouched,apart⟩ := freedLeftApart h.apart left
  have next : (coalescePrev s b.addr).1.all.next f.addr = s.all.next b.addr := by
    rw [repNext rep,repNext h.rep]
  obtain ⟨g,zs,frees',right,rep',frame',quiet'⟩ := coalesceNextRep rep laid
  rw [next] at rep' frame' quiet'
  have eq : freeBlock s b.addr = (coalesceNext (coalescePrev s b.addr).1 f.addr (s.all.next b.addr),f.addr) := by
    rw [freeBlock,← addr]
  rw [eq]
  refine ⟨ws,f,g,zs,frees',left,right,(freedRightAddr right).1.symm,
    ⟨rep',freedRightLaid laid right,freedRightApart notTouched apart right⟩,frameTrans frame frame',?_⟩
  intro x safe outside
  exact (quiet' x (freedLeftSafe left safe outside)).trans (quiet x safe outside)

theorem biosFreeEq : biosFree s (a + headerSize) = (freeBlock s a).1 := by
  rw [biosFree,sub32Eq (Nat.le_add_left _ _),Nat.add_sub_cancel]

theorem findFitSpec {vs : List Nat} (s : Arena) (node size : Nat) (path : Path s.free a (vs ++ [node]))
    (notHead : node ∉ vs) {left : Nat} (enough : vs.length < left) :
    findFit s node size left (s.free.next a) = some none ∨
    ∃ fp ∈ vs, findFit s node size left (s.free.next a) = some (some fp) ∧ size ≤ (s.hdr fp).size := by
  induction vs generalizing a left with
  | nil =>
    obtain ⟨left,rfl⟩ : ∃ k, left = k + 1 := ⟨left - 1,by simp at enough; omega⟩
    have next : s.free.next a = node := path.1
    exact Or.inl (by rw [findFit,next,if_pos rfl])
  | cons v vs ih =>
    obtain ⟨left,rfl⟩ : ∃ k, left = k + 1 := ⟨left - 1,by simp at enough; omega⟩
    obtain ⟨next,_,rest⟩ := path
    have ne : v ≠ node := fun same => notHead (by simp [same])
    rw [next,findFit,if_neg ne]
    by_cases fits : size ≤ (s.hdr v).size
    · rw [if_pos fits]
      exact Or.inr ⟨v,by simp,rfl,fits⟩
    · rw [if_neg fits]
      rcases ih rest (fun m => notHead (by simp [m])) (by simp at enough; omega) with none' | ⟨fp,m,found,fit⟩
      · exact Or.inl none'
      · exact Or.inr ⟨fp,by simp [m],found,fit⟩

theorem freeLength (rep : Rep s heap xs frees) (laid : Laid owner heap xs) : frees.length < turns := by
  have bound := laidLength 0 laid (by simp) (by simp)
  have shorter : frees.length ≤ xs.length := by
    rw [rep.members.length_eq,freeAddrs,List.length_map]
    exact List.length_filter_le _ _
  unfold headerSize memMax at bound
  unfold turns
  omega

theorem mallocPointer (s : Arena) (fp size tag : Nat) : (mallocFromBlock s fp size tag).2 = add32 fp headerSize := by
  by_cases enough : add32 size (2*headerSize) ≤ (s.hdr fp).size
  · simp only [mallocFromBlock,if_pos enough]
  · simp only [mallocFromBlock,if_neg enough]

theorem pointerOf (good : Good owner heap b) : add32 b.addr headerSize = b.addr + headerSize := by
  have below := good.below
  have room := good.room
  unfold memMax headerSize at *
  exact add32Eq (by omega)

section
variable (positive : 0 < size) (fits : size + 31 < 2^32)
include positive fits

theorem blockSizeOk : headerSize ∣ blockSize size ∧ 2*headerSize ≤ blockSize size := by
  have sum : add32 size (2*headerSize - 1) = size + 31 := add32Eq fits
  rw [blockSize,sum,sizeMask]
  refine ⟨Nat.dvd_mul_left _ _,?_⟩
  unfold headerSize
  omega

theorem biosMallocSound {blocks : List Block} (h : Sound owner s heap blocks frees) (tag : Nat) :
    biosMalloc s size heap tag = some (s,none) ∨
    ∃ xs b ys s' frees', blocks = xs ++ b::ys ∧ b.free = true ∧ blockSize size ≤ b.size ∧
      biosMalloc s size heap tag = some (s',some (b.addr + headerSize)) ∧
      Sound owner s' heap (xs ++ carve b (blockSize size) tag ++ ys) frees' ∧ Frame owner heap s s' ∧
      ∀ x, Safe blocks x → s'.mem x = s.mem x := by
  obtain ⟨aligned,room⟩ := blockSizeOk positive fits
  have ring := h.rep.free
  rw [biosMalloc,if_neg (by omega)]
  rcases findFitSpec s (head heap) (blockSize size) ring.1 (List.nodup_cons.mp ring.2).1
    (freeLength h.rep h.laid) with none' | ⟨fp,m,found,enough⟩
  · rw [none']
    exact Or.inl rfl
  · rw [found]
    obtain ⟨b,mb,rfl⟩ := List.mem_map.mp (h.rep.members.mem_iff.mp m)
    obtain ⟨mb,isFree⟩ := List.mem_filter.mp mb
    rw [h.rep.holds b mb] at enough
    have good := h.laid.good b mb
    obtain ⟨xs,ys,rfl⟩ := List.append_of_mem mb
    obtain ⟨frees',sound,frame,quiet⟩ := mallocFromBlockSound h isFree aligned room enough tag
    have pointer := (mallocPointer s b.addr (blockSize size) tag).trans (pointerOf good)
    exact Or.inr ⟨xs,b,ys,_,frees',rfl,isFree,enough,by simp only [Option.map_some,pointer],sound,frame,quiet⟩

end
/- The search of __inject_free_block, from a position on the chain of all blocks. -/
theorem findPlaceSpec {zs : List Block} (node ah aEnd : Nat) (path : Path s.all a (zs.map Block.addr ++ [node]))
    (notHead : node ∉ zs.map Block.addr) (holds : Holds s.hdr heap zs) (good : ∀ b ∈ zs, Good owner heap b) {left : Nat}
    (enough : zs.length < left) :
    findPlace s node ah aEnd left (s.all.next a) = some none ∨
    ∃ us vs, zs = us ++ vs ∧
      findPlace s node ah aEnd left (s.all.next a) = some (some ((vs.map Block.addr ++ [node]).head (by simp))) ∧
      (∀ b ∈ us, b.addr + b.size ≤ ah) ∧ ∀ c rest, vs = c::rest → aEnd ≤ c.addr := by
  induction zs generalizing a left with
  | nil =>
    obtain ⟨left,rfl⟩ : ∃ k, left = k + 1 := ⟨left - 1,by simp at enough; omega⟩
    have next : s.all.next a = node := path.1
    exact Or.inr ⟨[],[],rfl,by simp [findPlace,next],by simp,by simp⟩
  | cons b zs ih =>
    obtain ⟨left,rfl⟩ : ∃ k, left = k + 1 := ⟨left - 1,by simp at enough; omega⟩
    obtain ⟨next,_,rest⟩ := path
    have ne : b.addr ≠ node := fun same => notHead (by simp [same])
    rw [next,findPlace,if_neg ne]
    by_cases beyond : aEnd ≤ b.addr
    · rw [if_pos beyond]
      refine Or.inr ⟨[],b::zs,rfl,rfl,by simp,?_⟩
      intro c rest eq
      cases eq
      exact beyond
    · rw [if_neg beyond,holds b (by simp)]
      simp only [Block.header,blockEnd (good b (by simp))]
      by_cases before : b.addr + b.size ≤ ah
      · rw [if_pos before]
        rcases ih rest (fun m => notHead (by simp [m])) (fun c m => holds c (by simp [m]))
          (fun c m => good c (by simp [m])) (by simp at enough; omega) with none' | ⟨us,vs,eq,found,below,above⟩
        · exact Or.inl none'
        · refine Or.inr ⟨b::us,vs,by simp [eq],found,?_,above⟩
          intro c m
          rcases List.mem_cons.mp m with rfl | m
          · exact before
          · exact below c m
      · rw [if_neg before]
        exact Or.inl rfl

theorem allLength (laid : Laid owner heap xs) : xs.length < turns := by
  have bound := laidLength 0 laid (by simp) (by simp)
  unfold headerSize memMax at bound
  unfold turns
  omega

theorem injectWrites {ah nah : Nat} (ne : nah ≠ ah) :
    ∃ mem, (((s.setNext ah nah).setPrev ah (s.all.prev nah)).setPrev nah ah).setNext
      ((((s.setNext ah nah).setPrev ah (s.all.prev nah)).setPrev nah ah).all.prev ah) ah =
    { (s.joinAll ah nah).joinAll (s.all.prev nah) ah with mem := mem } := by
  refine ⟨((((s.setNext ah nah).setPrev ah (s.all.prev nah)).setPrev nah ah).setNext
      ((((s.setNext ah nah).setPrev ah (s.all.prev nah)).setPrev nah ah).all.prev ah) ah).mem,?_⟩
  simp only [Arena.setNext,Arena.setPrev,Arena.poke,Arena.joinAll,Links.join,Links.setNext,Links.setPrev,
    Function.update_self,Function.update_of_ne ne.symm,Function.update_comm ne]

/- The header of the block has been written by the caller; it is in nobody's place. -/
theorem injectSound {blocks : List Block} (h : Sound owner s heap blocks frees) (good : Good owner heap b)
    (used : b.free = false) (header : s.hdr b.addr = b.header heap)
    (fresh : b.addr ∉ head heap::blocks.map Block.addr) :
    injectFreeBlock s b.addr = some (s,false) ∨
    ∃ us vs ws f g zs s' frees', blocks = us ++ vs ∧ FreedLeft us b ws f ∧ FreedRight f vs g zs ∧
      injectFreeBlock s b.addr = some (s',true) ∧ Sound owner s' heap (ws ++ g::zs) frees' ∧ Frame owner heap s s' := by
  have heapOf : (s.hdr b.addr).heap = heap := by rw [header]; rfl
  have sizeOf' : (s.hdr b.addr).size = b.size := by rw [header]; rfl
  rw [injectFreeBlock]
  simp only [heapOf,sizeOf',blockEnd good]
  have ring := h.rep.all
  rcases findPlaceSpec (head heap) b.addr (b.addr + b.size) ring.1 (List.nodup_cons.mp ring.2).1 h.rep.holds h.laid.good
    (allLength h.laid) with none' | ⟨us,vs,rfl,found,below,above⟩
  · rw [none']
    exact Or.inl rfl
  · have behind : ∀ c ∈ vs, b.addr + b.size ≤ c.addr := by
      cases vs with
      | nil => simp
      | cons c rest =>
        have first := above c rest rfl
        intro d m
        rcases List.mem_cons.mp m with rfl | m
        · exact first
        · have := laidRight h.laid d m
          omega
    generalize place : (vs.map Block.addr ++ [head heap]).head (by simp) = nah at found
    have prev : s.all.prev nah = lastOf (head heap) (us.map Block.addr) := by
      rw [← place]
      cases vs with
      | nil => simpa using circularHeadPrev ring
      | cons c rest =>
        rw [List.map_append,List.map_cons] at ring
        exact circularPrev ring
    have nahMem : nah ∈ head heap::(us ++ vs).map Block.addr := by
      have first := List.head_mem (l := vs.map Block.addr ++ [head heap]) (by simp)
      rw [place] at first
      simp only [List.map_append,List.mem_append,List.mem_cons,List.not_mem_nil,or_false] at first ⊢
      tauto
    have inserted := repInsert h.rep used fresh
    have unchanged : s.setHdr b.addr (b.header heap) = s := by simp [Arena.setHdr,← header]
    rw [unchanged,place,← prev] at inserted
    obtain ⟨mem,writes⟩ := injectWrites (s := s) (fun same : nah = b.addr => fresh (same ▸ nahMem))
    have sound : Sound owner { (s.joinAll b.addr nah).joinAll (s.all.prev nah) b.addr with mem := mem } heap (us ++ b::vs)
        frees := ⟨repMem mem inserted,insertLaid h.laid good below behind,insertApart h.apart used⟩
    have okHere := allowedNode sound.laid (p := b.addr) (by simp)
    have frame : Frame owner heap s { (s.joinAll b.addr nah).joinAll (s.all.prev nah) b.addr with mem := mem } :=
      frameMem mem (frameTrans (frameAll okHere (allowedNode h.laid nahMem))
        (frameAll (allowedNode h.laid (circularPrevMem ring nahMem)) okHere))
    obtain ⟨ws,f,g,zs,frees',left,right,_,freed,frame',_⟩ := freeBlockSound sound used
    refine Or.inr ⟨us,vs,ws,f,g,zs,_,frees',rfl,left,right,?_,freed,frameTrans frame frame'⟩
    rw [found]
    exact congrArg (fun s => some ((freeBlock s b.addr).1,true)) writes

/- The loop of __free_tagged over one heap, from a position on its chain. -/
theorem freeTaggedHeapSound {left : Nat} (tag : Nat) (h : Sound owner s heap (xs ++ ys) frees) (enough : ys.length < left)
    (at' : fp = (ys.map Block.addr ++ [head heap]).head (by simp)) :
    ∃ s' blocks' frees', freeTaggedHeap tag (head heap) left s fp = some s' ∧ Sound owner s' heap blocks' frees' ∧
      Frame owner heap s s' ∧ total blocks' = total (xs ++ ys) ∧
      usedBlocks blocks' = usedBlocks xs ++ (usedBlocks ys).filter (fun b => b.tag ≠ tag) ∧
      ∀ x, Safe (xs ++ ys) x → (∀ b ∈ ys, b.tag = tag → ¬ b.Inside x) → s'.mem x = s.mem x := by
  induction left generalizing s xs ys frees fp with
  | zero => omega
  | succ left ih =>
    rw [freeTaggedHeap]
    cases ys with
    | nil =>
      rw [if_pos (by simpa using at')]
      exact ⟨s,xs ++ [],frees,rfl,h,frameRefl,rfl,by simp [usedBlocks],fun _ _ _ => rfl⟩
    | cons b ys =>
      obtain rfl : fp = b.addr := at'
      have here := repHere h.rep
      have shorter : ys.length < left := by simp at enough; omega
      rw [if_neg here.notHead]
      by_cases hit : (s.hdr b.addr).type = .used ∧ (s.hdr b.addr).tag = tag
      · have used : b.free = false := by
          have type := hit.1
          rw [here.here,Block.header] at type
          cases free : b.free with
          | true => simp [free] at type
          | false => rfl
        have tagged : b.tag = tag := by
          have := hit.2
          rwa [here.here] at this
        obtain ⟨ws,f,g,zs,frees1,left',right,addr,sound,frame,quiet⟩ := freeBlockSound h used
        have next := repNext sound.rep
        have part : zs.Sublist ys := by
          cases right with
          | alone => exact List.Sublist.refl _
          | merged eq =>
            rw [eq]
            exact List.sublist_cons_self _ _
        have fewer := part.length_le
        have passed : Sound owner (freeBlock s b.addr).1 heap ((ws ++ [g]) ++ zs) frees1 := by simpa using sound
        obtain ⟨s',blocks',frees',ran,sound',frame',sum,remain,quiet'⟩ := ih passed (by omega) next
        refine ⟨s',blocks',frees',?_,sound',frameTrans frame frame',?_,?_,?_⟩
        · simp only [if_pos hit]
          rw [addr]
          exact ran
        · rw [sum,List.append_assoc]
          exact freedTotal left' right
        · have isFree : g.free = true := (freedRightAddr right).2.trans (freedLeftFree left')
          rw [remain,usedUsed used,List.filter_cons_of_neg (by simp [tagged]),usedAppend,usedFree isFree,
            freedLeftUsed left',freedRightUsed right]
          simp [usedBlocks]
        · intro x safe spared
          have outside := spared b (by simp) tagged
          have after : Safe ((ws ++ [g]) ++ zs) x := by
            simpa using freedRightSafe right (freedLeftSafe left' safe outside)
          exact (quiet' x after (fun c m => spared c (by simp [part.subset m]))).trans (quiet x safe outside)
      · have next := repNext h.rep
        have passed : Sound owner s heap ((xs ++ [b]) ++ ys) frees := by simpa using h
        obtain ⟨s',blocks',frees',ran,sound',frame',sum,remain,quiet⟩ := ih passed shorter next
        refine ⟨s',blocks',frees',?_,sound',frame',by simpa using sum,?_,?_⟩
        · simp only [if_neg hit]
          exact ran
        · rw [remain]
          cases free : b.free with
          | true => simp [free,usedBlocks]
          | false =>
            have other : b.tag ≠ tag := by
              intro same
              rw [here.here] at hit
              exact hit ⟨by simp [Block.header,free],same⟩
            rw [usedUsed free,List.filter_cons_of_pos (by simp [other])]
            simp [usedBlocks,free]
        · intro x safe spared
          exact quiet x (by simpa using safe) (fun c m => spared c (by simp [m]))

end
end Syslinux.Malloc
