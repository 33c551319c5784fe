import Syslinux.MallocOps

/-! bios_realloc: in place, growing into the free block behind or leaving a residual one,
or by moving to a new block. -/
namespace Syslinux.Malloc
open Chain

section
variable {owner : Nat → Heap} {s : Arena} {heap : Heap} {xs ys : List Block} {b c : Block} {frees : List Nat} {size : Nat}

theorem growWrites {ah newsize : Nat} (touch : s.all.next ah = add32 ah (s.hdr ah).size ∧
      (s.hdr (s.all.next ah)).type = .free ∧ newsize ≤ add32 (s.hdr (s.all.next ah)).size (s.hdr ah).size)
    (self : s.free.next (s.all.next ah) ≠ s.all.next ah) :
    ∃ mem, mergeNext s ah newsize = ({ ((s.setHdr ah { s.hdr ah with
        size := sizeMask (add32 (s.hdr ah).size (s.hdr (s.all.next ah)).size) }).joinFree
        (s.free.prev (s.all.next ah)) (s.free.next (s.all.next ah))).joinAll ah (s.all.next (s.all.next ah)) with mem := mem },
      sizeMask (add32 (s.hdr ah).size (s.hdr (s.all.next ah)).size)) ∧
      ∀ x, Beside x [ah,s.all.next (s.all.next ah)] [s.free.next (s.all.next ah),s.free.prev (s.all.next ah)] →
        mem x = s.mem x := by
  refine ⟨(mergeNext s ah newsize).1.mem,?_,?_⟩
  · simp only [mergeNext,if_pos touch]
    simp only [Arena.setSize,Arena.setAttrs,Arena.setHdr,Arena.setNext,Arena.setPrev,Arena.setNextFree,Arena.setPrevFree,
      Arena.poke,Arena.joinFree,Arena.joinAll,Links.join,Links.setNext,Links.setPrev,Function.update_self,
      Function.update_of_ne self.symm]
  · intro x beside
    simp only [Beside,List.forall_mem_cons,List.not_mem_nil,false_implies,implies_true,and_true,headerSize] at beside
    simp only [mergeNext,if_pos touch]
    simp only [Arena.setSize,Arena.setAttrs,Arena.setHdr,Arena.setNext,Arena.setPrev,Arena.setNextFree,Arena.setPrevFree,
      Arena.poke,Links.setNext,Links.setPrev,Function.update_self,Function.update_of_ne self.symm]
    simp (disch := omega) only [pokeBeside]

/- bios_realloc on its way to a block that is large enough: merged with the free block
behind it, or left alone. -/
theorem mergeNextSound (h : Sound owner s heap (xs ++ b::ys) frees) (used : b.free = false) (newsize : Nat) :
    ∃ g zs frees', (mergeNext s b.addr newsize).2 = g.size ∧ g.addr = b.addr ∧ g.tag = b.tag ∧ g.free = false ∧
      Rep (mergeNext s b.addr newsize).1 heap (xs ++ g::zs) frees' ∧ Laid owner heap (xs ++ g::zs) ∧
      Apart (xs ++ zs) ∧ (newsize ≤ g.size → ∀ c ∈ zs, c.free → g.addr + g.size ≠ c.addr) ∧
      (g.size < newsize → (mergeNext s b.addr newsize).1 = s ∧ g = b ∧ zs = ys) ∧ total (xs ++ g::zs) = total (xs ++ b::ys) ∧
      usedBlocks zs = usedBlocks ys ∧ Frame owner heap s (mergeNext s b.addr newsize).1 ∧
      ∀ x, Safe (xs ++ b::ys) x → (mergeNext s b.addr newsize).1.mem x = s.mem x ∧ Safe (xs ++ g::zs) x ∧
        (g.Inside x → b.Inside x) := by
  have header := (repHere h.rep).here
  have good := laidHere h.laid
  have dropped : Apart (xs ++ ys) := h.apart.sublist ((List.sublist_cons_self b ys).append_left xs)
  have allowed := fun p m => allowedNode h.laid (p := p) m
  by_cases touch : s.all.next b.addr = add32 b.addr (s.hdr b.addr).size ∧
      (s.hdr (s.all.next b.addr)).type = .free ∧ newsize ≤ add32 (s.hdr (s.all.next b.addr)).size (s.hdr b.addr).size
  · rcases nextOf h.rep with ⟨rfl,next⟩ | ⟨c,zs,rfl,next,following⟩
    · rw [next,h.rep.headType] at touch
      exact absurd touch.2.1 (by decide)
    · have behind := h.laid.good c (by simp)
      have split : xs ++ b::c::zs = (xs ++ [b]) ++ c::zs := by simp
      have isFree : c.free = true := by
        have := touch.2.1
        rwa [next,following,headerFree] at this
      have meet : b.addr + b.size = c.addr := by
        have := touch.1
        rw [next,header] at this
        exact (blockEnd good).symm.trans this.symm
      obtain ⟨us,vs,eq,_⟩ := repFree (split ▸ h.rep) isFree
      have ring := h.rep.free
      rw [eq] at ring
      obtain ⟨mem,writes,others⟩ := growWrites touch (by rw [next]; exact circularNextNe ring)
      have sum := joinedSize good behind meet
      rw [next] at writes others
      rw [header,following] at writes
      obtain ⟨frees',merged⟩ := repMergeNext { b with size := b.size + c.size } h.rep isFree rfl rfl
      have onChain : c.addr ∈ head heap::frees := by simp [eq]
      have enough : newsize ≤ b.size + c.size := by
        have := touch.2.2
        have below := behind.below
        unfold memMax at below
        rw [next,following,header] at this
        rwa [show add32 (c.header heap).size (b.header heap).size = b.size + c.size from
          (add32Eq (by show c.size + b.size < 2^32; omega)).trans (Nat.add_comm _ _)] at this
      rw [writes]
      refine ⟨{ b with size := b.size + c.size },zs,frees',sum,rfl,rfl,used,?_,?_,?_,?_,?_,?_,?_,?_,?_⟩
      · exact repMem mem (by simpa [Block.header,sum] using merged)
      · exact freedRightLaid h.laid (.merged rfl isFree meet)
      · exact dropped.sublist ((List.sublist_cons_self c zs).append_left xs)
      · intro _ d m free
        have regrouped : Apart ((xs ++ [b]) ++ c::zs) := by simpa using h.apart
        have old := apartRight regrouped d m isFree free
        simp only [ne_eq]
        omega
      · intro small
        simp only at small
        omega
      · simp [total]; omega
      · simp [isFree]
      · exact frameMem mem <| frameTrans (frameTrans (frameHdr (allowed _ (by simp)) _)
          (frameFree (allowed _ (nodeOfFree h.rep (circularPrevMem h.rep.free onChain)))
            (allowed _ (nodeOfFree h.rep (circularNextMem h.rep.free onChain)))))
          (frameAll (allowed _ (by simp)) (allowed _ (circularNextMem h.rep.all (by simp))))
      · intro x safe
        refine ⟨others x ⟨?_,?_⟩,freedRightSafe (.merged rfl isFree meet) safe,?_⟩
        · simp only [List.forall_mem_cons,List.not_mem_nil,false_implies,implies_true,and_true]
          exact ⟨safeHeader safe h.laid (by simp),safeHeader safe h.laid (circularNextMem h.rep.all (by simp))⟩
        · simp only [List.forall_mem_cons,List.not_mem_nil,false_implies,implies_true,and_true]
          exact ⟨safeLinks safe h.rep h.laid (circularNextMem h.rep.free onChain),
            safeLinks safe h.rep h.laid (circularPrevMem h.rep.free onChain)⟩
        · intro inside
          have notBehind : ¬ c.Inside x := by
            intro behind
            have := (safe.2 c (by simp) behind).1
            rw [isFree] at this
            contradiction
          unfold Block.Inside at *
          simp only at inside
          omega
  · have alone : mergeNext s b.addr newsize = (s,b.size) := by
      rw [mergeNext,if_neg touch,header]
      rfl
    rw [alone]
    refine ⟨b,ys,frees,rfl,rfl,rfl,used,h.rep,h.laid,dropped,?_,fun _ => ⟨rfl,rfl,rfl⟩,rfl,rfl,frameRefl,
      fun _ safe => ⟨rfl,safe,id⟩⟩
    intro enough c m isFree same
    rcases nextOf h.rep with ⟨rfl,_⟩ | ⟨d,zs,rfl,next,following⟩
    · simp at m
    · rcases List.mem_cons.mp m with rfl | m
      · rw [next,following,headerFree,header] at touch
        have below := (h.laid.good c (by simp)).below
        unfold memMax at below
        refine touch ⟨same.symm.trans (blockEnd good).symm,isFree,?_⟩
        rw [show add32 (c.header heap).size (b.header heap).size = c.size + b.size from
          add32Eq (by show c.size + b.size < 2^32; omega)]
        omega
      · have regrouped : Laid owner heap ((xs ++ [b]) ++ d::zs) := by simpa using h.laid
        have := laidRight h.laid d (by simp)
        have := laidRight regrouped c m
        have := (h.laid.good d (by simp)).room
        unfold headerSize at this
        omega

section
variable {ah nah oldsize newsize xsize : Nat}

theorem cutWrites (oldsize xsize : Nat) (place : add32 ah newsize = nah) (ne : nah ≠ ah) (notHead : nah ≠ head (s.hdr ah).heap)
    (fresh : s.free.next (head (s.hdr ah).heap) ≠ nah) :
    ∃ mem, cutResidual s ah oldsize newsize xsize = {
      (let s' := (((s.setHdr nah ⟨(s.hdr nah).tag,.free,(s.hdr ah).heap,sizeMask (xsize - newsize)⟩).setHdr ah
        { s.hdr ah with size := sizeMask newsize }).joinAll nah (s.all.next ah)).joinAll ah nah
      if oldsize < newsize then
        (s'.joinFree nah (head (s.hdr ah).heap)).joinFree (s.free.prev (head (s.hdr ah).heap)) nah
      else (s'.joinFree nah (s.free.next (head (s.hdr ah).heap))).joinFree (head (s.hdr ah).heap) nah) with mem := mem } ∧
      ∀ x, Beside x [ah,nah,s.all.next ah]
        [nah,head (s.hdr ah).heap,s.free.next (head (s.hdr ah).heap),s.free.prev (head (s.hdr ah).heap)] → mem x = s.mem x := by
  refine ⟨(cutResidual s ah oldsize newsize xsize).mem,?_,?_⟩
  · rw [cutResidual]
    simp only [place]
    by_cases grown : oldsize < newsize
    · simp only [if_pos grown]
      simp only [Arena.setType,Arena.setHeap,Arena.setSize,Arena.setAttrs,Arena.setHdr,Arena.setNext,Arena.setPrev,
        Arena.setNextFree,Arena.setPrevFree,Arena.poke,Arena.joinAll,Arena.joinFree,Links.join,Links.setNext,Links.setPrev,
        Function.update_self,Function.update_of_ne ne,Function.update_of_ne ne.symm,Function.update_of_ne notHead,
        Function.update_idem,Function.update_comm ne.symm,Function.update_comm notHead.symm]
    · simp only [if_neg grown]
      simp only [Arena.setType,Arena.setHeap,Arena.setSize,Arena.setAttrs,Arena.setHdr,Arena.setNext,Arena.setPrev,
        Arena.setNextFree,Arena.setPrevFree,Arena.poke,Arena.joinAll,Arena.joinFree,Links.join,Links.setNext,Links.setPrev,
        Function.update_self,Function.update_of_ne ne,Function.update_of_ne ne.symm,Function.update_of_ne notHead,
        Function.update_idem,Function.update_comm ne.symm,Function.update_comm fresh]
  · intro x beside
    simp only [Beside,List.forall_mem_cons,List.not_mem_nil,false_implies,implies_true,and_true,headerSize] at beside
    simp only [cutResidual,place]
    split
    all_goals
      simp only [Arena.setType,Arena.setHeap,Arena.setSize,Arena.setAttrs,Arena.setHdr,Arena.setNext,Arena.setPrev,
        Arena.setNextFree,Arena.setPrevFree,Arena.poke,Links.setNext,Links.setPrev,Function.update_self,
        Function.update_of_ne ne,Function.update_of_ne ne.symm,Function.update_of_ne notHead]
      simp (disch := omega) only [pokeBeside]

theorem cutSound (rep : Rep s heap (xs ++ b::ys) frees) (laid : Laid owner heap (xs ++ b::ys)) (apart : Apart (xs ++ ys))
    (used : b.free = false) (right : ∀ c ∈ ys, c.free → b.addr + b.size ≠ c.addr) (aligned : headerSize ∣ newsize)
    (room : 2*headerSize ≤ newsize) (enough : newsize + 2*headerSize ≤ b.size) (oldsize : Nat) :
    ∃ tag frees', Sound owner (cutResidual s b.addr oldsize newsize b.size) heap
        (xs ++ { b with size := newsize }::⟨b.addr + newsize,b.size - newsize,tag,true⟩::ys) frees' ∧
      Frame owner heap s (cutResidual s b.addr oldsize newsize b.size) ∧
      ∀ x, Safe (xs ++ b::ys) x → ¬ (b.addr + newsize ≤ x ∧ x < b.addr + b.size) →
        (cutResidual s b.addr oldsize newsize b.size).mem x = s.mem x := by
  have header := (repHere rep).here
  have good := laidHere laid
  have below := good.below
  have allowed := fun p m => allowedNode laid (p := p) m
  have roomBytes := room
  have enoughBytes := enough
  unfold headerSize at roomBytes enoughBytes
  unfold memMax at below
  have inside := laidInside laid (x := b.addr + newsize) (by omega) (by omega)
  have fresh := freshFreeOf rep inside
  have okRest := allowedInside good (p := b.addr + newsize) (by omega) (by omega)
  have okHere := allowed b.addr (by simp)
  have okHead := allowed (head heap) (by simp)
  have onChain : head heap ∈ head heap::frees := by simp
  obtain ⟨mem,writes,others⟩ := cutWrites (s := s) oldsize b.size
    (add32Eq (by omega) : add32 b.addr newsize = _) (by omega)
    (by rw [header]; exact fun same => inside (by rw [same]; exact List.mem_cons_self))
    (by rw [header]; exact fun same => fresh (same ▸ circularNextMem rep.free onChain))
  rw [header] at writes others
  simp only [sizeMaskEq aligned,sizeMaskEq (Nat.dvd_sub good.aligned aligned)] at writes
  have quiet : ∀ x, Safe (xs ++ b::ys) x → ¬ (b.addr + newsize ≤ x ∧ x < b.addr + b.size) → mem x = s.mem x := by
    intro x safe outside
    refine others x ⟨?_,?_⟩
    · simp only [List.forall_mem_cons,List.not_mem_nil,false_implies,implies_true,and_true]
      refine ⟨safeHeader safe laid (by simp),?_,safeHeader safe laid (circularNextMem rep.all (by simp))⟩
      unfold headerSize
      omega
    · simp only [List.forall_mem_cons,List.not_mem_nil,false_implies,implies_true,and_true]
      refine ⟨?_,safeLinks safe rep laid onChain,safeLinks safe rep laid (circularNextMem rep.free onChain),
        safeLinks safe rep laid (circularPrevMem rep.free onChain)⟩
      unfold headerSize
      omega
  have laid' := cutLaid (s.hdr (b.addr + newsize)).tag laid aligned room enough
  have apart' := cutApart (s.hdr (b.addr + newsize)).tag laid apart used (show 0 < newsize by omega) (by omega) right
  have cut := fun free' frees' => @repCut s heap xs ys b frees free' frees' { b with size := newsize }
    ⟨b.addr + newsize,b.size - newsize,(s.hdr (b.addr + newsize)).tag,true⟩ rep used rfl used rfl inside
  have frame := fun rest here => frameTrans (frameTrans (frameTrans (frameHdr (s := s) okRest rest) (frameHdr okHere here))
    (frameAll okRest (allowed _ (circularNextMem rep.all (c := b.addr) (by simp))))) (frameAll okHere okRest)
  rw [writes]
  split
  · refine ⟨_,_,⟨repMem mem (cut _ _ (circularSnoc rep.free fresh) (List.perm_append_singleton _ _)),laid',apart'⟩,?_,quiet⟩
    exact frameMem mem <| frameTrans (frameTrans (frame _ _) (frameFree okRest okHead))
      (frameFree (allowed _ (nodeOfFree rep (circularPrevMem rep.free onChain))) okRest)
  · refine ⟨_,_,⟨repMem mem (cut _ _ (circularPush rep.free fresh) (List.Perm.refl _)),laid',apart'⟩,?_,quiet⟩
    exact frameMem mem <| frameTrans (frameTrans (frame _ _)
      (frameFree okRest (allowed _ (nodeOfFree rep (circularNextMem rep.free onChain))))) (frameFree okHead okRest)

/- The cases in which the block stays where it is; else it is moved. -/
theorem reallocInPlace (h : Sound owner s heap (xs ++ b::ys) frees) (used : b.free = false) (positive : 0 < size)
    (fits : size + 31 < 2^32) :
    (∃ s' b' blocks' frees', biosRealloc s (some (b.addr + headerSize)) size = some (s',some (b.addr + headerSize)) ∧
      Sound owner s' heap blocks' frees' ∧ total blocks' = total (xs ++ b::ys) ∧ b'.addr = b.addr ∧ b'.tag = b.tag ∧
      blockSize size ≤ b'.size ∧ usedBlocks blocks' = usedBlocks xs ++ b'::usedBlocks ys ∧ Frame owner heap s s' ∧
      ∀ x, Safe (xs ++ b::ys) x → (b.Inside x → x < b.addr + blockSize size) → s'.mem x = s.mem x) ∨
    biosRealloc s (some (b.addr + headerSize)) size = moveBlock s (b.addr + headerSize) size b.size := by
  obtain ⟨aligned,room⟩ := blockSizeOk positive fits
  have header := (repHere h.rep).here
  have below := (laidHere h.laid).below
  have start : sub32 (b.addr + headerSize) headerSize = b.addr := by
    rw [sub32Eq (Nat.le_add_left _ _),Nat.add_sub_cancel]
  have oldsize : (s.hdr b.addr).size = b.size := by rw [header]; rfl
  rw [biosRealloc]
  simp only [if_neg (show ¬ size = 0 by omega),start,oldsize]
  by_cases close : blockSize size ≤ b.size ∧ b.size / 4 ≤ blockSize size ∧ b.size - blockSize size < 4096
  · rw [if_pos close]
    exact Or.inl ⟨s,b,xs ++ b::ys,frees,rfl,h,rfl,rfl,rfl,close.1,by simp [used],frameRefl,fun _ _ _ => rfl⟩
  · rw [if_neg close]
    obtain ⟨g,zs,frees1,xsize,addr,tag,used',rep,laid,apart,right,small,sum,same,frame,quiet⟩ :=
      mergeNextSound h used (blockSize size)
    rw [xsize]
    by_cases enough : blockSize size ≤ g.size
    · rw [if_pos enough]
      have gBelow := (laidHere laid).below
      unfold memMax at gBelow
      have sumEq : add32 (blockSize size) (2*headerSize) = blockSize size + 2*headerSize :=
        add32Eq (by unfold headerSize; omega)
      rw [sumEq]
      by_cases residual : blockSize size + 2*headerSize ≤ g.size
      · rw [if_pos residual]
        obtain ⟨rest,frees',sound,frame',quiet'⟩ := cutSound rep laid apart used' (right enough) aligned room residual b.size
        rw [addr] at sound frame' quiet'
        refine Or.inl ⟨_,{ g with size := blockSize size },_,frees',rfl,sound,?_,addr,tag,Nat.le_refl _,?_,
          frameTrans frame frame',?_⟩
        · rw [← sum]
          simp [total]
          omega
        · simp [used',same,addr]
        · intro x safe kept
          obtain ⟨first,after,back⟩ := quiet x safe
          refine (quiet' x after ?_).trans first
          rintro ⟨above,below⟩
          have := kept (back ⟨by rw [addr]; omega,by rw [addr]; omega⟩)
          omega
      · rw [if_neg residual]
        refine Or.inl ⟨_,g,_,frees1,rfl,⟨rep,laid,insertApart apart used'⟩,sum,addr,tag,enough,?_,frame,fun x safe _ => (quiet x safe).1⟩
        simp [used',same]
    · rw [if_neg enough]
      obtain ⟨eq,_,_⟩ := small (by omega)
      rw [eq]
      exact Or.inr rfl

end
end
end Syslinux.Malloc
