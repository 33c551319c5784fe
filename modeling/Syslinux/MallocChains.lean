import Syslinux.MallocBlocks

/-! The links and headers that represent a list of blocks, and what the writes of the
allocator make of it. Every operation comes down to a header or two, and to pairs of
nodes joined in one of the two chains. -/
namespace Syslinux.Malloc
open Chain

def Block.header (b : Block) (heap : Heap) : Header := ⟨b.tag,if b.free then .free else .used,heap,b.size⟩

def freeAddrs (blocks : List Block) : List Nat := (blocks.filter Block.free).map Block.addr

def Holds (hdr : Nat → Header) (heap : Heap) (blocks : List Block) : Prop := ∀ b ∈ blocks, hdr b.addr = b.header heap

structure Rep (s : Arena) (heap : Heap) (blocks : List Block) (frees : List Nat) : Prop where
  headType : (s.hdr (head heap)).type = .head
  holds : Holds s.hdr heap blocks
  all : Circular s.all (head heap) (blocks.map Block.addr)
  free : Circular s.free (head heap) frees
  members : frees.Perm (freeAddrs blocks)

def Arena.joinAll (s : Arena) (p n : Nat) : Arena := { s with all := s.all.join p n }
def Arena.joinFree (s : Arena) (p n : Nat) : Arena := { s with free := s.free.join p n }

/- The byte is neither in the header of one of the first nodes nor in the links that a
free block has behind it. -/
def Beside (x : Nat) (headers links : List Nat) : Prop :=
  (∀ p ∈ headers, x < p ∨ p + headerSize ≤ x) ∧ ∀ p ∈ links, x < p + headerSize ∨ p + headerSize + 8 ≤ x

theorem pokeBeside {mem : Nat → UInt8} {a w x : Nat} (h : x < a ∨ a + 4 ≤ x) : store mem a (wordBytes w) x = mem x :=
  storeOutside (by simpa [wordBytes] using h)

def Block.Inside (b : Block) (x : Nat) : Prop := b.addr ≤ x ∧ x < b.addr + b.size

/- The byte belongs to no header and to no free block: it is a caller's, or another heap's. -/
def Safe (blocks : List Block) (x : Nat) : Prop :=
  x < 2^32 ∧ ∀ c ∈ blocks, c.Inside x → c.free = false ∧ c.addr + headerSize ≤ x

theorem repMem {s : Arena} {heap : Heap} {blocks : List Block} {frees : List Nat} (mem : Nat → UInt8)
    (rep : Rep s heap blocks frees) : Rep { s with mem := mem } heap blocks frees :=
  ⟨rep.headType,rep.holds,rep.all,rep.free,rep.members⟩

section
variable {s : Arena} {heap : Heap} {xs ys : List Block} {b c p : Block} {frees us vs : List Nat} {a n : Nat}

@[simp] theorem freeAddrsAppend : freeAddrs (xs ++ ys) = freeAddrs xs ++ freeAddrs ys := by simp [freeAddrs]
@[simp] theorem freeAddrsFree (h : b.free = true) : freeAddrs (b::ys) = b.addr::freeAddrs ys := by simp [freeAddrs,h]
@[simp] theorem freeAddrsUsed (h : b.free = false) : freeAddrs (b::ys) = freeAddrs ys := by simp [freeAddrs,h]

theorem permMiddle {α : Type} {us vs as bs : List α} {a : α} :
    (us ++ a::vs).Perm (as ++ a::bs) ↔ (us ++ vs).Perm (as ++ bs) :=
  ⟨fun h => (List.perm_cons a).mp (List.perm_middle.symm.trans (h.trans List.perm_middle)),
    fun h => List.perm_middle.trans ((h.cons a).trans List.perm_middle.symm)⟩

theorem holdsUpdate {hdr : Nat → Header} {h : Header} (holds : Holds hdr heap xs) (fresh : a ∉ xs.map Block.addr) :
    Holds (Function.update hdr a h) heap xs := by
  intro b m
  have ne : b.addr ≠ a := fun same => fresh (same ▸ List.mem_map_of_mem m)
  rw [Function.update_of_ne ne]
  exact holds b m

theorem holdsMiddle {hdr : Nat → Header} (left : Holds hdr heap xs) (here : hdr b.addr = b.header heap)
    (right : Holds hdr heap ys) : Holds hdr heap (xs ++ b::ys) := by
  intro c m
  rcases List.mem_append.mp m with m | m
  · exact left c m
  · rcases List.mem_cons.mp m with rfl | m
    · exact here
    · exact right c m

structure Here (s : Arena) (heap : Heap) (xs : List Block) (b : Block) (ys : List Block) : Prop where
  notHead : b.addr ≠ head heap
  notLeft : b.addr ∉ xs.map Block.addr
  notRight : b.addr ∉ ys.map Block.addr
  left : Holds s.hdr heap xs
  here : s.hdr b.addr = b.header heap
  right : Holds s.hdr heap ys

theorem repHere (rep : Rep s heap (xs ++ b::ys) frees) : Here s heap xs b ys := by
  have nodup := rep.all.2
  rw [List.map_append,List.map_cons] at nodup
  have fresh := freshOf nodup
  simp only [List.mem_cons,List.mem_append,not_or] at fresh
  exact ⟨fresh.1,fresh.2.1,fresh.2.2,fun c m => rep.holds c (by simp [m]),rep.holds b (by simp),
    fun c m => rep.holds c (by simp [m])⟩

theorem repNext (rep : Rep s heap (xs ++ b::ys) frees) :
    s.all.next b.addr = (ys.map Block.addr ++ [head heap]).head (by simp) := by
  have ring := rep.all
  rw [List.map_append,List.map_cons] at ring
  exact circularNext ring

theorem repFree (rep : Rep s heap (xs ++ b::ys) frees) (isFree : b.free = true) :
    ∃ us vs, frees = us ++ b.addr::vs ∧ (us ++ vs).Perm (freeAddrs (xs ++ ys)) := by
  have members := rep.members
  rw [freeAddrsAppend,freeAddrsFree isFree] at members
  obtain ⟨us,vs,eq⟩ := List.append_of_mem (members.mem_iff.mpr (by simp : b.addr ∈ _))
  refine ⟨us,vs,eq,?_⟩
  rw [eq,permMiddle] at members
  simpa using members

section
variable {b' c' : Block}

theorem holdsPut (h : Here s heap xs b ys) (addr : b'.addr = b.addr) :
    Holds (Function.update s.hdr b.addr (b'.header heap)) heap (xs ++ b'::ys) :=
  holdsMiddle (holdsUpdate h.left h.notLeft) (by rw [addr]; simp) (holdsUpdate h.right h.notRight)

theorem headPut (rep : Rep s heap (xs ++ b::ys) frees) (header : Header) :
    (Function.update s.hdr b.addr header (head heap)).type = .head := by
  rw [Function.update_of_ne (repHere rep).notHead.symm]
  exact rep.headType

theorem allPut (rep : Rep s heap (xs ++ b::ys) frees) (addr : b'.addr = b.addr) :
    Circular s.all (head heap) ((xs ++ b'::ys).map Block.addr) := by
  have all := rep.all
  rwa [List.map_append,List.map_cons,← addr,← List.map_cons,← List.map_append] at all

theorem repTake (b' : Block) (rep : Rep s heap (xs ++ b::ys) frees) (isFree : b.free = true) (addr : b'.addr = b.addr)
    (used : b'.free = false) : ∃ frees', Rep ((s.setHdr b.addr (b'.header heap)).joinFree
      (s.free.prev b.addr) (s.free.next b.addr)) heap (xs ++ b'::ys) frees' := by
  obtain ⟨us,vs,eq,members⟩ := repFree rep isFree
  have free := rep.free
  rw [eq] at free
  have all := allPut rep addr
  refine ⟨us ++ vs,headPut rep _,holdsPut (repHere rep) addr,all,circularUnlink free,?_⟩
  simpa [freeAddrsUsed used] using members

theorem freshFree (rep : Rep s heap xs frees) (fresh : ∀ b ∈ xs, b.free = true → b.addr ≠ a) (notHead : a ≠ head heap) :
    a ∉ head heap::frees := by
  intro m
  rcases List.mem_cons.mp m with atHead | m
  · exact notHead atHead
  · obtain ⟨d,md,same⟩ := List.mem_map.mp (rep.members.mem_iff.mp m)
    obtain ⟨md,isFree⟩ := List.mem_filter.mp md
    exact fresh d md isFree same

theorem repRelease (b' : Block) (rep : Rep s heap (xs ++ b::ys) frees) (used : b.free = false) (addr : b'.addr = b.addr)
    (isFree : b'.free = true) : ∃ frees', Rep (((s.setHdr b.addr (b'.header heap)).joinFree b.addr
      (s.free.next (head heap))).joinFree (head heap) b.addr) heap (xs ++ b'::ys) frees' := by
  have h := repHere rep
  have fresh : b.addr ∉ head heap::frees := by
    refine freshFree rep ?_ h.notHead
    intro d md free same
    rcases List.mem_append.mp md with m | m
    · exact h.notLeft (same ▸ List.mem_map_of_mem m)
    · rcases List.mem_cons.mp m with rfl | m
      · rw [used] at free
        contradiction
      · exact h.notRight (same ▸ List.mem_map_of_mem m)
  have all := allPut rep addr
  refine ⟨b.addr::frees,headPut rep _,holdsPut h addr,all,circularPush rep.free fresh,?_⟩
  have members := rep.members
  simp only [freeAddrsAppend,freeAddrsUsed used,freeAddrsFree isFree,addr] at members ⊢
  exact (members.cons b.addr).trans List.perm_middle.symm

theorem allSwallow (rep : Rep s heap (xs ++ b::c::ys) frees) (addr : b'.addr = b.addr) :
    Circular (s.all.join b.addr (s.all.next c.addr)) (head heap) ((xs ++ b'::ys).map Block.addr) := by
  have all := rep.all
  rw [List.map_append,List.map_cons,List.map_cons,← List.singleton_append,← List.append_assoc] at all
  have prev := circularPrev all
  rw [lastAppend,lastOf] at prev
  have unlinked := circularUnlink all
  rw [prev] at unlinked
  simpa [addr] using unlinked

theorem holdsSwallow (rep : Rep s heap (xs ++ b::c::ys) frees) (addr : b'.addr = b.addr) :
    Holds (Function.update s.hdr b.addr (b'.header heap)) heap (xs ++ b'::ys) := by
  have h := repHere rep
  refine holdsMiddle (holdsUpdate h.left h.notLeft) (by rw [addr]; simp) (holdsUpdate ?_ ?_)
  · exact fun d m => h.right d (by simp [m])
  · exact fun m => h.notRight (by simp [List.mem_map.mp m])

theorem repMergePrev (b' : Block) (rep : Rep s heap (xs ++ b::c::ys) frees) (isFree : b.free = true) (used : c.free = false)
    (addr : b'.addr = b.addr) (stays : b'.free = true) :
    Rep ((s.setHdr b.addr (b'.header heap)).joinAll b.addr (s.all.next c.addr)) heap (xs ++ b'::ys) frees := by
  have all := allSwallow rep addr
  refine ⟨headPut rep _,holdsSwallow rep addr,all,rep.free,?_⟩
  have members := rep.members
  simp only [freeAddrsAppend,freeAddrsFree isFree,freeAddrsUsed used] at members
  simpa [freeAddrsFree stays,addr] using members

theorem repMergeNext (b' : Block) (rep : Rep s heap (xs ++ b::c::ys) frees) (isFree : c.free = true) (addr : b'.addr = b.addr)
    (stays : b'.free = b.free) : ∃ frees', Rep (((s.setHdr b.addr (b'.header heap)).joinFree
      (s.free.prev c.addr) (s.free.next c.addr)).joinAll b.addr (s.all.next c.addr)) heap (xs ++ b'::ys) frees' := by
  have split : xs ++ b::c::ys = (xs ++ [b]) ++ c::ys := by simp
  obtain ⟨us,vs,eq,members⟩ := repFree (split ▸ rep) isFree
  have free := rep.free
  rw [eq] at free
  have all := allSwallow rep addr
  refine ⟨us ++ vs,headPut rep _,holdsSwallow rep addr,all,circularUnlink free,?_⟩
  cases status : b.free with
  | true =>
    have before : freeAddrs (xs ++ [b] ++ ys) = freeAddrs (xs ++ b'::ys) := by
      simp [freeAddrs,status,stays,addr]
    rwa [← before]
  | false =>
    have before : freeAddrs (xs ++ [b] ++ ys) = freeAddrs (xs ++ b'::ys) := by
      simp [freeAddrs,status,stays]
    rwa [← before]

theorem allBehind (rep : Rep s heap (xs ++ b::ys) frees) (addr : b'.addr = b.addr)
    (fresh : c'.addr ∉ head heap::(xs ++ b::ys).map Block.addr) :
    Circular ((s.all.join c'.addr (s.all.next b.addr)).join b.addr c'.addr) (head heap)
      ((xs ++ b'::c'::ys).map Block.addr) := by
  have all := rep.all
  have next := circularNext (by rwa [List.map_append,List.map_cons] at all)
  have split : (xs ++ b::ys).map Block.addr = (xs.map Block.addr ++ [b.addr]) ++ ys.map Block.addr := by simp
  rw [split] at all fresh
  have inserted := circularInsert _ _ all fresh
  rw [lastAppend,lastOf,← next] at inserted
  simpa [addr] using inserted

theorem holdsBehind (rep : Rep s heap (xs ++ b::ys) frees) (addr : b'.addr = b.addr)
    (fresh : c'.addr ∉ head heap::(xs ++ b::ys).map Block.addr) :
    Holds (Function.update (Function.update s.hdr c'.addr (c'.header heap)) b.addr (b'.header heap)) heap
      (xs ++ b'::c'::ys) := by
  have h := repHere rep
  simp only [List.map_append,List.map_cons,List.mem_cons,List.mem_append,not_or] at fresh
  obtain ⟨_,notLeft,notB,notRight⟩ := fresh
  refine holdsMiddle (holdsUpdate (holdsUpdate h.left notLeft) h.notLeft) (by rw [addr]; simp)
    (holdsMiddle (show Holds _ heap [] by simp [Holds]) ?_ (holdsUpdate (holdsUpdate h.right notRight) h.notRight))
  rw [Function.update_of_ne notB]
  simp

theorem headBehind (rep : Rep s heap (xs ++ b::ys) frees) (fresh : a ∉ head heap::(xs ++ b::ys).map Block.addr)
    (first second : Header) :
    (Function.update (Function.update s.hdr a first) b.addr second (head heap)).type = .head := by
  have notHead : head heap ≠ a := fun same => fresh (by simp [same])
  rw [Function.update_of_ne (repHere rep).notHead.symm,Function.update_of_ne notHead]
  exact rep.headType

theorem freshFreeOf (rep : Rep s heap xs frees) (fresh : a ∉ head heap::xs.map Block.addr) : a ∉ head heap::frees := by
  refine freshFree rep ?_ (fun same => fresh (by simp [same]))
  intro b m _ same
  exact fresh (List.mem_cons_of_mem _ (same ▸ List.mem_map_of_mem m))

theorem repSplit (b' c' : Block) (rep : Rep s heap (xs ++ b::ys) frees) (isFree : b.free = true) (addr : b'.addr = b.addr)
    (used : b'.free = false) (rest : c'.free = true) (fresh : c'.addr ∉ head heap::(xs ++ b::ys).map Block.addr) :
    ∃ frees', Rep ((((((s.setHdr c'.addr (c'.header heap)).setHdr b.addr (b'.header heap)).joinAll
        c'.addr (s.all.next b.addr)).joinAll b.addr c'.addr).joinFree c'.addr (s.free.next b.addr)).joinFree
        (s.free.prev b.addr) c'.addr) heap (xs ++ b'::c'::ys) frees' := by
  obtain ⟨us,vs,eq,members⟩ := repFree rep isFree
  have free := rep.free
  rw [eq] at free
  have freshFree := freshFreeOf rep fresh
  rw [eq] at freshFree
  have all := allBehind rep addr fresh
  refine ⟨us ++ c'.addr::vs,headBehind rep fresh _ _,holdsBehind rep addr fresh,all,
    circularReplace free freshFree,?_⟩
  simp only [freeAddrsAppend,freeAddrsUsed used,freeAddrsFree rest] at members ⊢
  exact permMiddle.2 members

theorem repCut {free' : Links Nat} {frees' : List Nat} (b' c' : Block) (rep : Rep s heap (xs ++ b::ys) frees) (used : b.free = false)
    (addr : b'.addr = b.addr) (stays : b'.free = false) (rest : c'.free = true)
    (fresh : c'.addr ∉ head heap::(xs ++ b::ys).map Block.addr) (ring : Circular free' (head heap) frees')
    (perm : frees'.Perm (c'.addr::frees)) :
    Rep { ((((s.setHdr c'.addr (c'.header heap)).setHdr b.addr (b'.header heap)).joinAll
        c'.addr (s.all.next b.addr)).joinAll b.addr c'.addr) with free := free' } heap (xs ++ b'::c'::ys) frees' := by
  have all := allBehind rep addr fresh
  refine ⟨headBehind rep fresh _ _,holdsBehind rep addr fresh,all,ring,?_⟩
  have members := rep.members
  simp only [freeAddrsAppend,freeAddrsUsed used,freeAddrsUsed stays,freeAddrsFree rest] at members ⊢
  exact perm.trans ((members.cons c'.addr).trans List.perm_middle.symm)

theorem repInsert (rep : Rep s heap (xs ++ ys) frees) (used : c'.free = false)
    (fresh : c'.addr ∉ head heap::(xs ++ ys).map Block.addr) :
    Rep (((s.setHdr c'.addr (c'.header heap)).joinAll c'.addr ((ys.map Block.addr ++ [head heap]).head (by simp))).joinAll
      (lastOf (head heap) (xs.map Block.addr)) c'.addr) heap (xs ++ c'::ys) frees := by
  have all := rep.all
  rw [List.map_append] at all fresh
  have notHead : head heap ≠ c'.addr := fun same => fresh (by simp [same])
  simp only [List.mem_cons,List.mem_append,not_or] at fresh
  refine ⟨?_,holdsMiddle (holdsUpdate ?_ fresh.2.1) ?_ (holdsUpdate ?_ fresh.2.2),?_,rep.free,?_⟩
  · show (Function.update s.hdr c'.addr (c'.header heap) (head heap)).type = _
    rw [Function.update_of_ne notHead]
    exact rep.headType
  · exact fun d m => rep.holds d (by simp [m])
  · exact Function.update_self ..
  · exact fun d m => rep.holds d (by simp [m])
  · rw [List.map_append,List.map_cons]
    exact circularInsert _ _ all (by simpa [not_or] using fresh)
  · simpa [freeAddrsUsed used] using rep.members

end
end
/- The nodes an operation on a heap may write: its head node, and what it was given. -/
def Allowed (owner : Nat → Heap) (heap : Heap) (p : Nat) : Prop := p = head heap ∨ (p < 2^32 ∧ owner p = heap)

structure SameAt (s s' : Arena) (p : Nat) : Prop where
  hdr : s'.hdr p = s.hdr p
  next : s'.all.next p = s.all.next p
  prev : s'.all.prev p = s.all.prev p
  nextFree : s'.free.next p = s.free.next p
  prevFree : s'.free.prev p = s.free.prev p

def Frame (owner : Nat → Heap) (heap : Heap) (s s' : Arena) : Prop := ∀ p, ¬ Allowed owner heap p → SameAt s s' p

section
variable {owner : Nat → Heap} {heap other : Heap} {s s' s'' : Arena} {p n : Nat} {blocks : List Block} {frees : List Nat}

theorem frameRefl : Frame owner heap s s := fun _ _ => ⟨rfl,rfl,rfl,rfl,rfl⟩

theorem frameTrans (first : Frame owner heap s s') (second : Frame owner heap s' s'') : Frame owner heap s s'' := by
  intro p outside
  have one := first p outside
  have two := second p outside
  exact ⟨two.hdr.trans one.hdr,two.next.trans one.next,two.prev.trans one.prev,two.nextFree.trans one.nextFree,
    two.prevFree.trans one.prevFree⟩

theorem frameMem (mem : Nat → UInt8) (frame : Frame owner heap s s') : Frame owner heap s { s' with mem := mem } := by
  intro p outside
  have same := frame p outside
  exact ⟨same.hdr,same.next,same.prev,same.nextFree,same.prevFree⟩

theorem frameHdr (ok : Allowed owner heap p) (h : Header) : Frame owner heap s (s.setHdr p h) := by
  intro q outside
  have ne : q ≠ p := fun same => outside (same ▸ ok)
  exact ⟨Function.update_of_ne ne _ _,rfl,rfl,rfl,rfl⟩

theorem frameAll (okp : Allowed owner heap p) (okn : Allowed owner heap n) : Frame owner heap s (s.joinAll p n) := by
  intro q outside
  have notP : q ≠ p := fun same => outside (same ▸ okp)
  have notN : q ≠ n := fun same => outside (same ▸ okn)
  exact ⟨rfl,Function.update_of_ne notP _ _,Function.update_of_ne notN _ _,rfl,rfl⟩

theorem frameFree (okp : Allowed owner heap p) (okn : Allowed owner heap n) : Frame owner heap s (s.joinFree p n) := by
  intro q outside
  have notP : q ≠ p := fun same => outside (same ▸ okp)
  have notN : q ≠ n := fun same => outside (same ▸ okn)
  exact ⟨rfl,rfl,rfl,Function.update_of_ne notP _ _,Function.update_of_ne notN _ _⟩

theorem allowedInside {b : Block} (good : Good owner heap b) (above : b.addr ≤ p) (below : p < b.addr + b.size) :
    Allowed owner heap p := by
  have bound := good.below
  unfold memMax at bound
  exact Or.inr ⟨by omega,good.owned p above below⟩

theorem allowedNode (laid : Laid owner heap blocks) (m : p ∈ head heap::blocks.map Block.addr) :
    Allowed owner heap p := by
  rcases List.mem_cons.mp m with atHead | m
  · exact Or.inl atHead
  · obtain ⟨b,mb,rfl⟩ := List.mem_map.mp m
    have good := laid.good b mb
    have room := good.room
    unfold headerSize at room
    exact allowedInside good (Nat.le_refl _) (by omega)

theorem nodeOfFree (rep : Rep s heap blocks frees) (m : p ∈ head heap::frees) : p ∈ head heap::blocks.map Block.addr := by
  rcases List.mem_cons.mp m with rfl | m
  · simp
  · obtain ⟨b,mb,rfl⟩ := List.mem_map.mp (rep.members.mem_iff.mp m)
    exact List.mem_cons_of_mem _ (List.mem_map_of_mem (List.mem_of_mem_filter mb))

section
variable {x : Nat} (safe : Safe blocks x)
include safe

theorem safeHeader (laid : Laid owner heap blocks) (m : p ∈ head heap::blocks.map Block.addr) :
    x < p ∨ p + headerSize ≤ x := by
  rcases List.mem_cons.mp m with rfl | m
  · have := safe.1
    cases heap <;> simp only [head] <;> omega
  · obtain ⟨c,mc,rfl⟩ := List.mem_map.mp m
    have room := (laid.good c mc).room
    by_cases inside : c.Inside x
    · exact Or.inr (safe.2 c mc inside).2
    · unfold Block.Inside at inside
      omega

theorem safeLinks (rep : Rep s heap blocks frees) (laid : Laid owner heap blocks) (m : p ∈ head heap::frees) :
    x < p + headerSize ∨ p + headerSize + 8 ≤ x := by
  rcases List.mem_cons.mp m with rfl | m
  · have := safe.1
    cases heap <;> simp only [head] <;> omega
  · obtain ⟨c,mc,rfl⟩ := List.mem_map.mp (rep.members.mem_iff.mp m)
    obtain ⟨mc,isFree⟩ := List.mem_filter.mp mc
    have room := (laid.good c mc).room
    by_cases inside : c.Inside x
    · have := (safe.2 c mc inside).1
      rw [isFree] at this
      contradiction
    · unfold Block.Inside headerSize at *
      omega

end

theorem repFrame (rep : Rep s other blocks frees) (laid : Laid owner other blocks) (ne : other ≠ heap)
    (frame : Frame owner heap s s') : Rep s' other blocks frees := by
  have same : ∀ p ∈ head other::blocks.map Block.addr, SameAt s s' p := by
    intro p m
    refine frame p ?_
    have here := allowedNode laid m
    rintro (atHead | ⟨below,owned⟩)
    · rcases here with here | ⟨below,_⟩
      · rw [here] at atHead
        cases other <;> cases heap <;> simp [head] at atHead ne
      · cases heap <;> simp only [head] at atHead <;> omega
    · rcases here with here | ⟨_,ours⟩
      · cases other <;> simp only [head] at here <;> omega
      · exact ne (ours.symm.trans owned)
  have sameFree := fun p m => same p (nodeOfFree rep (p := p) m)
  refine ⟨?_,?_,?_,?_,rep.members⟩
  · rw [(same _ (by simp)).hdr]
    exact rep.headType
  · intro b m
    rw [(same _ (by simp [List.mem_map_of_mem m])).hdr]
    exact rep.holds b m
  · exact circularCongr (fun p m => (same p m).next) (fun p m => (same p m).prev) rep.all
  · exact circularCongr (fun p m => (sameFree p m).nextFree) (fun p m => (sameFree p m).prevFree) rep.free

end

end Syslinux.Malloc
