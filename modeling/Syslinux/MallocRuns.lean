import Syslinux.MallocMemory
import Syslinux.Runs

/-! The allocator under use: any sequence of injections, allocations, reallocations and
frees keeps both heaps in order. -/
namespace Syslinux.Malloc
open Chain Runs

/- `live` are the pointers that have been handed out and not been freed since;
`accepted` the bytes that each heap has been given. -/
structure Session where
  arena : Arena
  live : List Nat
  accepted : Heap → Nat

inductive Event where
  | inject (ah : Nat) (heap : Heap) (size : Nat)
  | malloc (size : Nat) (heap : Heap) (tag : Nat)
  | free (ptr : Nat)
  | realloc (ptr : Option Nat) (size : Nat)
  | freeTagged (tag : Nat)
  deriving DecidableEq, Repr

/- Before it calls __inject_free_block, the caller writes the attributes of the block. -/
def prepare (s : Arena) (ah : Nat) (heap : Heap) (size : Nat) : Arena :=
  s.setAttrs ah ⟨(s.hdr ah).tag,.used,heap,sizeMask size⟩

def liveAfterRealloc (live : List Nat) (size : Nat) : Option Nat → Option Nat → List Nat
  | none,result => live ++ result.toList
  | some ptr,none => if size = 0 then live.filter (· ≠ ptr) else live
  | some ptr,some newptr => if newptr = ptr then live else (live ++ [newptr]).filter (· ≠ ptr)

def step (s : Session) : Event → Option Session
  | .inject ah heap size => (injectFreeBlock (prepare s.arena ah heap size) ah).map (fun (arena,ok) =>
      { s with
        arena := arena
        accepted := if ok then Function.update s.accepted heap (s.accepted heap + size) else s.accepted })
  | .malloc size heap tag => (biosMalloc s.arena size heap tag).map (fun (arena,ptr) =>
      { s with arena := arena, live := s.live ++ ptr.toList })
  | .free ptr => some { s with arena := biosFree s.arena ptr, live := s.live.filter (· ≠ ptr) }
  | .realloc ptr size => (biosRealloc s.arena ptr size).map (fun (arena,newptr) =>
      { s with arena := arena, live := liveAfterRealloc s.live size ptr newptr })
  | .freeTagged tag => (freeTagged s.arena tag).map (fun arena =>
      { s with arena := arena, live := s.live.filter (fun p => (s.arena.hdr (p - headerSize)).tag ≠ tag) })

/- What the callers promise. A block given to a heap lies in memory that belongs to no
other heap and below E820_MEM_MAX, and the caller does not write its header over the
header of a block that the heap already has. -/
def Promised (owner : Nat → Heap) (s : Session) : Event → Prop
  | .inject ah heap size => headerSize ∣ size ∧ 2*headerSize ≤ size ∧ ah + size ≤ memMax ∧
      (∀ x, ah ≤ x → x < ah + size → owner x = heap) ∧
      ∀ chain, Circular s.arena.all (head heap) chain → ∀ a ∈ chain, ah + headerSize ≤ a ∨ a + 2*headerSize ≤ ah
  | .malloc size _ _ => size + 2*headerSize - 1 < 2^32
  | .free ptr => ptr ∈ s.live
  | .realloc ptr size => (∀ p, ptr = some p → p ∈ s.live) ∧ size + 2*headerSize - 1 < 2^32
  | .freeTagged _ => True

def booted (s : Arena) : Session := ⟨memInit s,[],fun _ => 0⟩

structure InOrder (s : Session) (heap : Heap) (all frees : List Nat) : Prop where
  allChain : Circular s.arena.all (head heap) all
  increasing : all.Pairwise (· < ·)
  disjoint : all.Pairwise (fun a b => a + (s.arena.hdr a).size ≤ b)
  freeChain : Circular s.arena.free (head heap) frees
  marked : ∀ a, a ∈ frees ↔ a ∈ all ∧ (s.arena.hdr a).type = .free
  apart : ∀ a ∈ all, ∀ b ∈ all, (s.arena.hdr a).type = .free → (s.arena.hdr b).type = .free → a + (s.arena.hdr a).size ≠ b
  sizes : ∀ a ∈ all, headerSize ∣ (s.arena.hdr a).size ∧ 2*headerSize ≤ (s.arena.hdr a).size
  sum : (all.map (fun a => (s.arena.hdr a).size)).sum = s.accepted heap

section
variable {owner : Nat → Heap} {s s' : Arena} {heap : Heap} {live : List Nat} {accepted : Heap → Nat}
  {blocks : Heap → List Block} {frees : Heap → List Nat}

def pointers (blocks : List Block) : List Nat := (usedBlocks blocks).map (fun b => b.addr + headerSize)

structure Inv (owner : Nat → Heap) (s : Arena) (live : List Nat) (accepted : Heap → Nat) (blocks : Heap → List Block)
    (frees : Heap → List Nat) : Prop where
  sound : ∀ heap, Sound owner s heap (blocks heap) (frees heap)
  sums : ∀ heap, total (blocks heap) = accepted heap
  live : ∀ p, p ∈ live ↔ ∃ heap, p ∈ pointers (blocks heap)

theorem invAt {bs : List Block} {fs : List Nat} {live' : List Nat} {accepted' : Heap → Nat}
    (inv : Inv owner s live accepted blocks frees) (frame : Frame owner heap s s') (sound : Sound owner s' heap bs fs)
    (sum : total bs = accepted' heap) (others : ∀ other, other ≠ heap → accepted' other = accepted other)
    (alive : ∀ p, p ∈ live' ↔ p ∈ pointers bs ∨ ∃ other, other ≠ heap ∧ p ∈ pointers (blocks other)) :
    Inv owner s' live' accepted' (Function.update blocks heap bs) (Function.update frees heap fs) := by
  refine ⟨?_,?_,?_⟩
  · intro other
    by_cases same : other = heap
    · subst same
      simpa using sound
    · have h := inv.sound other
      simp only [Function.update_of_ne same]
      exact ⟨repFrame h.rep h.laid same frame,h.laid,h.apart⟩
  · intro other
    by_cases same : other = heap
    · subst same
      simpa using sum
    · rw [Function.update_of_ne same,others other same]
      exact inv.sums other
  · intro p
    rw [alive p]
    constructor
    · rintro (here | ⟨other,ne,there⟩)
      · exact ⟨heap,by simpa using here⟩
      · exact ⟨other,by simpa [Function.update_of_ne ne] using there⟩
    · rintro ⟨other,m⟩
      by_cases same : other = heap
      · subst same
        exact Or.inl (by simpa using m)
      · exact Or.inr ⟨other,same,by simpa [Function.update_of_ne same] using m⟩

theorem liveAt (inv : Inv owner s live accepted blocks frees) (heap : Heap) (p : Nat) :
    p ∈ live ↔ p ∈ pointers (blocks heap) ∨ ∃ other, other ≠ heap ∧ p ∈ pointers (blocks other) := by
  rw [inv.live p]
  constructor
  · rintro ⟨other,there⟩
    by_cases here : other = heap
    · subst here
      exact Or.inl there
    · exact Or.inr ⟨other,here,there⟩
  · rintro (here | ⟨other,_,there⟩)
    · exact ⟨heap,here⟩
    · exact ⟨other,there⟩

theorem pointerOwner {other : Heap} (inv : Inv owner s live accepted blocks frees) {b : Block}
    (m : b ∈ blocks heap) (there : b.addr + headerSize ∈ pointers (blocks other)) : other = heap := by
  obtain ⟨c,mc,same⟩ := List.mem_map.mp there
  have good := (inv.sound heap).laid.good b m
  have good' := (inv.sound other).laid.good c (List.mem_of_mem_filter mc)
  have room := good.room
  have room' := good'.room
  unfold headerSize at *
  have addr : c.addr = b.addr := by omega
  exact (good'.owned c.addr (by omega) (by omega)).symm.trans (addr ▸ good.owned b.addr (by omega) (by omega))

theorem pointerAlone {xs ys : List Block} {b : Block} (laid : Laid owner heap (xs ++ b::ys)) :
    b.addr + headerSize ∉ (usedBlocks xs ++ usedBlocks ys).map (fun b => b.addr + headerSize) := by
  intro m
  obtain ⟨c,mc,same⟩ := List.mem_map.mp m
  have room := (laidHere laid).room
  rcases List.mem_append.mp mc with mc | mc
  · have m := List.mem_of_mem_filter mc
    have := laidLeft laid c m
    have := (laid.good c (by simp [m])).room
    unfold headerSize at *
    omega
  · have := laidRight laid c (List.mem_of_mem_filter mc)
    unfold headerSize at *
    omega

theorem liveBlock {ptr : Nat} (inv : Inv owner s live accepted blocks frees) (m : ptr ∈ live) :
    ∃ heap xs b ys, blocks heap = xs ++ b::ys ∧ b.free = false ∧ ptr = b.addr + headerSize := by
  obtain ⟨heap,m⟩ := (inv.live ptr).mp m
  obtain ⟨b,mb,rfl⟩ := List.mem_map.mp m
  obtain ⟨mb,used⟩ := List.mem_filter.mp mb
  obtain ⟨xs,ys,eq⟩ := List.append_of_mem mb
  exact ⟨heap,xs,b,ys,eq,by simpa using used,rfl⟩

theorem usableOf {c : Block} (header : s.hdr c.addr = c.header heap) :
    usable s (c.addr + headerSize) = c.size - headerSize := by
  rw [usable,Nat.add_sub_cancel,header]
  rfl

theorem liveUsed {q : Nat} (inv : Inv owner s live accepted blocks frees) (m : q ∈ live) :
    ∃ heap c, c ∈ blocks heap ∧ c.free = false ∧ q = c.addr + headerSize ∧ usable s q = c.size - headerSize := by
  obtain ⟨heap,xs,c,ys,eq,used,rfl⟩ := liveBlock inv m
  have mc : c ∈ blocks heap := by simp [eq]
  exact ⟨heap,c,mc,used,rfl,usableOf ((inv.sound heap).rep.holds c mc)⟩

theorem invSafe {other : Heap} {c : Block} {x : Nat} (inv : Inv owner s live accepted blocks frees) (heap : Heap)
    (m : c ∈ blocks other) (used : c.free = false) (above : c.addr + headerSize ≤ x) (below : x < c.addr + c.size) :
    Safe (blocks heap) x := by
  by_cases same : other = heap
  · subst same
    exact contentsSafe (inv.sound other).laid m used above below
  · exact contentsApart (inv.sound heap).laid (inv.sound other).laid same m above below

theorem invOutside {other : Heap} {b c : Block} {x : Nat} (inv : Inv owner s live accepted blocks frees)
    (mb : b ∈ blocks heap) (mc : c ∈ blocks other) (ne : c.addr ≠ b.addr) (inside : c.Inside x) : ¬ b.Inside x := by
  intro both
  have same := insideOwner (inv.sound heap).laid (inv.sound other).laid mb mc both inside
  subst same
  exact ne (congrArg Block.addr (insideUnique (inv.sound other).laid mc mb inside both))

theorem invUnchanged {other : Heap} {c : Block} {bs : List Block} {fs : List Nat} (inv : Inv owner s live accepted blocks frees)
    (frame : Frame owner heap s s') (sound : Sound owner s' heap bs fs) (m : c ∈ blocks other)
    (stays : other = heap → c ∈ bs) (quiet : ∀ x, c.addr + headerSize ≤ x → x < c.addr + c.size → s'.mem x = s.mem x) :
    Unchanged s s' (c.addr + headerSize) := by
  have h := inv.sound other
  have after : s'.hdr c.addr = c.header other := by
    by_cases same : other = heap
    · subst same
      exact sound.rep.holds c (stays rfl)
    · exact (repFrame h.rep h.laid same frame).holds c m
  exact unchangedOf (h.rep.holds c m) after quiet

theorem liveApart {p q x : Nat} (inv : Inv owner s live accepted blocks frees) (mp : p ∈ live) (mq : q ∈ live) (ne : p ≠ q)
    (inside : p ≤ x ∧ x < p + usable s p) : ¬ (q ≤ x ∧ x < q + usable s q) := by
  obtain ⟨heap,b,mb,_,rfl,sizeB⟩ := liveUsed inv mp
  obtain ⟨other,c,mc,_,rfl,sizeC⟩ := liveUsed inv mq
  rw [sizeB] at inside
  rw [sizeC]
  rintro ⟨above,below⟩
  exact invOutside inv mb mc (fun same => ne (by rw [same])) (contentsInside above (by omega))
    (contentsInside inside.1 (by omega))

theorem invMalloc (inv : Inv owner s live accepted blocks frees) {size : Nat} (fits : size + 31 < 2^32) (heap : Heap)
    (tag : Nat) : ∃ s' ptr blocks' frees', biosMalloc s size heap tag = some (s',ptr) ∧
      Inv owner s' (live ++ ptr.toList) accepted blocks' frees' ∧ (∀ p, ptr = some p → p ∉ live ∧ size ≤ usable s' p) ∧
      ∀ q ∈ live, Unchanged s s' q := by
  by_cases zero : size = 0
  · refine ⟨s,none,blocks,frees,by rw [biosMalloc,if_pos zero],?_,by simp,fun _ _ => unchangedRefl⟩
    simpa using inv
  rcases biosMallocSound (by omega) fits (inv.sound heap) tag with
    none' | ⟨xs,b,ys,s',fs,eq,isFree,enough,ran,sound,frame,quiet⟩
  · refine ⟨s,none,blocks,frees,none',?_,by simp,fun _ _ => unchangedRefl⟩
    simpa using inv
  · obtain ⟨taken,addr,_,_,large,before,after⟩ := carveUsed xs ys (blockSize size) tag isFree
    have laid := (inv.sound heap).laid
    rw [eq] at laid
    have alone := pointerAlone laid
    have inHeap : ∀ p, p ∈ pointers (blocks heap) ↔
        p ∈ (usedBlocks xs ++ usedBlocks ys).map (fun b => b.addr + headerSize) := by
      intro p
      rw [pointers,eq,before]
    refine ⟨s',some (b.addr + headerSize),_,_,ran,
      invAt inv frame sound ?_ (fun _ _ => rfl) ?_,?_,?_⟩
    · rw [carveTotal enough,← eq]
      exact inv.sums heap
    · intro p
      have split : p ∈ pointers (xs ++ carve b (blockSize size) tag ++ ys) ↔
          p ∈ pointers (blocks heap) ∨ p = b.addr + headerSize := by
        rw [inHeap,pointers,after]
        simp only [List.map_append,List.map_cons,List.mem_append,List.mem_cons,addr]
        tauto
      rw [split,List.mem_append,liveAt inv heap p]
      simp only [Option.toList_some,List.mem_cons,List.not_mem_nil,or_false]
      exact or_right_comm
    · intro p ptr
      cases Option.some.inj ptr
      refine ⟨?_,?_⟩
      · intro m
        obtain ⟨other,there⟩ := (inv.live _).mp m
        have here : b ∈ blocks heap := by
          rw [eq]
          simp
        have same := pointerOwner inv here there
        subst same
        exact alone ((inHeap _).mp there)
      · have m : taken ∈ usedBlocks (xs ++ carve b (blockSize size) tag ++ ys) := by
          rw [after]
          simp
        have header := sound.rep.holds taken (usedMem.1 m).1
        have room := blockSizeRoom fits
        have := large enough
        rw [← addr,usableOf header]
        omega
    · intro q m
      obtain ⟨other,c,mc,used,rfl,_⟩ := liveUsed inv m
      refine invUnchanged inv frame sound mc ?_ (fun x above below => quiet x (invSafe inv heap mc used above below))
      rintro rfl
      have m := usedMem.2 ⟨mc,used⟩
      rw [eq,before] at m
      refine (usedMem.1 ?_).1
      rw [after]
      simp only [List.mem_append,List.mem_cons] at m ⊢
      tauto

theorem invFree {ptr : Nat} (inv : Inv owner s live accepted blocks frees) (m : ptr ∈ live) :
    ∃ blocks' frees', Inv owner (biosFree s ptr) (live.filter (· ≠ ptr)) accepted blocks' frees' ∧
      ∀ q ∈ live, q ≠ ptr → Unchanged s (biosFree s ptr) q := by
  obtain ⟨heap,xs,b,ys,eq,used,rfl⟩ := liveBlock inv m
  have h := inv.sound heap
  rw [eq] at h
  obtain ⟨ws,f,g,zs,fs,left,right,_,sound,frame,quiet⟩ := freeBlockSound h used
  rw [biosFreeEq]
  refine ⟨_,_,invAt inv frame sound ?_ (fun _ _ => rfl) ?_,?_⟩
  · rw [freedTotal left right,← eq]
    exact inv.sums heap
  · intro p
    have alone := pointerAlone h.laid
    have inHeap : p ∈ pointers (blocks heap) ↔
        p ∈ (usedBlocks xs ++ usedBlocks ys).map (fun b => b.addr + headerSize) ∨ p = b.addr + headerSize := by
      rw [pointers,eq,usedAppend,usedUsed used]
      simp only [List.map_append,List.map_cons,List.mem_append,List.mem_cons]
      tauto
    rw [pointers,freedUsed left right]
    simp only [List.mem_filter,decide_eq_true_eq,liveAt inv heap p]
    constructor
    · rintro ⟨here | there,ne⟩
      · rcases inHeap.mp here with m | same
        · exact Or.inl m
        · exact absurd same ne
      · exact Or.inr there
    · rintro (m | ⟨other,ne,there⟩)
      · exact ⟨Or.inl (inHeap.mpr (Or.inl m)),fun same => alone (same ▸ m)⟩
      · refine ⟨Or.inr ⟨other,ne,there⟩,?_⟩
        rintro rfl
        exact ne (pointerOwner inv (b := b) (by rw [eq]; simp) there)
  · intro q m ne
    obtain ⟨other,c,mc,used',rfl,_⟩ := liveUsed inv m
    have apart : c.addr ≠ b.addr := fun same => ne (by rw [same])
    refine invUnchanged inv frame sound mc ?_ ?_
    · rintro rfl
      have m := usedMem.2 ⟨mc,used'⟩
      rw [eq,usedAppend,usedUsed used] at m
      refine (usedMem.1 ?_).1
      rw [freedUsed left right]
      simp only [List.mem_append,List.mem_cons] at m ⊢
      rcases m with m | rfl | m
      · exact Or.inl m
      · exact absurd rfl apart
      · exact Or.inr m
    · intro x above below
      have mb : b ∈ blocks heap := by simp [eq]
      have safe := invSafe inv heap mc used' above below
      rw [eq] at safe
      exact quiet x safe (invOutside inv mb mc apart (contentsInside above below))

theorem invMem (inv : Inv owner s live accepted blocks frees) (mem : Nat → UInt8) :
    Inv owner { s with mem := mem } live accepted blocks frees :=
  ⟨fun heap => ⟨⟨(inv.sound heap).rep.headType,(inv.sound heap).rep.holds,(inv.sound heap).rep.all,
    (inv.sound heap).rep.free,(inv.sound heap).rep.members⟩,(inv.sound heap).laid,(inv.sound heap).apart⟩,inv.sums,inv.live⟩

theorem invLive {live' : List Nat} (inv : Inv owner s live accepted blocks frees) (same : ∀ p, p ∈ live' ↔ p ∈ live) :
    Inv owner s live' accepted blocks frees :=
  ⟨inv.sound,inv.sums,fun p => (same p).trans (inv.live p)⟩

/- What bios_realloc makes of the contents of the live blocks. -/
structure Resized (live : List Nat) (s s' : Arena) (ptr newptr : Option Nat) (size : Nat) : Prop where
  others : ∀ q ∈ live, some q ≠ ptr → Unchanged s s' q
  failed : newptr = none → 0 < size → ∀ q ∈ live, Unchanged s s' q
  room : ∀ new, newptr = some new → size ≤ usable s' new
  fresh : ∀ new, newptr = some new → some new ≠ ptr → new ∉ live
  copied : ∀ p new, ptr = some p → newptr = some new →
    read s'.mem new (min (usable s p) size) = read s.mem p (min (usable s p) size)

theorem resizedInPlace {xs ys bs : List Block} {b b' : Block} {fs : List Nat} {size : Nat}
    (inv : Inv owner s live accepted blocks frees) (eq : blocks heap = xs ++ b::ys) (used : b.free = false)
    (fits : size + 31 < 2^32) (frame : Frame owner heap s s') (sound : Sound owner s' heap bs fs)
    (remain : usedBlocks bs = usedBlocks xs ++ b'::usedBlocks ys) (addr : b'.addr = b.addr) (large : blockSize size ≤ b'.size)
    (quiet : ∀ x, Safe (xs ++ b::ys) x → (b.Inside x → x < b.addr + blockSize size) → s'.mem x = s.mem x) :
    Resized live s s' (some (b.addr + headerSize)) (some (b.addr + headerSize)) size := by
  have mb : b ∈ blocks heap := by simp [eq]
  have room := blockSizeRoom fits
  refine ⟨?_,by simp,?_,by simp,?_⟩
  · intro q m ne
    obtain ⟨other,c,mc,used',rfl,_⟩ := liveUsed inv m
    have apart : c.addr ≠ b.addr := fun same => ne (by rw [same])
    refine invUnchanged inv frame sound mc ?_ ?_
    · rintro rfl
      have m := usedMem.2 ⟨mc,used'⟩
      rw [eq,usedAppend,usedUsed used] at m
      refine (usedMem.1 ?_).1
      rw [remain]
      simp only [List.mem_append,List.mem_cons] at m ⊢
      rcases m with m | rfl | m
      · exact Or.inl m
      · exact absurd rfl apart
      · exact Or.inr (Or.inr m)
    · intro x above below
      have safe := invSafe inv heap mc used' above below
      rw [eq] at safe
      exact quiet x safe (fun inside => absurd inside (invOutside inv mb mc apart (contentsInside above below)))
  · intro new here
    cases Option.some.inj here
    have m : b' ∈ usedBlocks bs := by
      rw [remain]
      simp
    rw [← addr,usableOf (sound.rep.holds b' (usedMem.1 m).1)]
    omega
  · intro p new here there
    cases Option.some.inj here
    cases Option.some.inj there
    refine List.map_congr_left ?_
    intro i small
    have small := List.mem_range.mp small
    rw [usableOf ((inv.sound heap).rep.holds b mb)] at small
    have safe := invSafe inv heap mb used (Nat.le_add_right _ i) (by omega)
    rw [eq] at safe
    exact quiet _ safe (fun _ => by omega)

/- The copy of bios_realloc goes into the new block, and the old one is then freed. -/
theorem resizedMoved {s1 s3 : Arena} {blocks1 : Heap → List Block} {frees1 : Heap → List Nat} {ptr new size : Nat}
    (inv : Inv owner s1 (live ++ [new]) accepted blocks1 frees1) (same : ∀ q ∈ live, Unchanged s s1 q) (m : ptr ∈ live)
    (fresh : new ∉ live) (enough : size ≤ usable s1 new)
    (same' : ∀ q ∈ live ++ [new], q ≠ ptr →
      Unchanged { s1 with mem := store s1.mem new (read s1.mem ptr (min size (usable s ptr))) } s3 q) :
    Resized live s s3 (some ptr) (some new) size := by
  have neOf : ∀ q ∈ live, new ≠ q := fun q m same => fresh (same ▸ m)
  have last := same' new (by simp) (neOf ptr m)
  refine ⟨?_,by simp,?_,?_,?_⟩
  · intro q mq ne
    have stored : Unchanged s1 { s1 with mem := store s1.mem new (read s1.mem ptr (min size (usable s ptr))) } q := by
      refine ⟨rfl,List.map_congr_left ?_⟩
      intro i small
      have small := List.mem_range.mp small
      refine storeOutside ?_
      have apart := liveApart inv (p := q) (q := new) (x := q + i) (by simp [mq]) (by simp) (neOf q mq).symm
        ⟨by omega,by omega⟩
      rw [readLength]
      omega
    exact unchangedTrans (same q mq) (unchangedTrans stored
      (same' q (by simp [mq]) (fun here => ne (congrArg some here))))
  · intro p here
    cases Option.some.inj here
    rw [usable,last.header]
    exact enough
  · intro p here _
    cases Option.some.inj here
    exact fresh
  · intro p q here there
    cases Option.some.inj here
    cases Option.some.inj there
    have small : 0 + min size (usable s ptr) ≤ usable s ptr := by omega
    have small' : 0 + min size (usable s ptr) ≤ usable s1 new := by omega
    have old := readPart (same ptr m).contents small
    have stored := readPart last.contents small'
    rw [Nat.add_zero] at old stored
    rw [Nat.min_comm,stored,readInside (by simp),List.take_of_length_le (by simp)]
    exact old

theorem invRealloc (inv : Inv owner s live accepted blocks frees) {ptr : Option Nat} {size : Nat}
    (m : ∀ p, ptr = some p → p ∈ live) (fits : size + 31 < 2^32) :
    ∃ s' newptr blocks' frees', biosRealloc s ptr size = some (s',newptr) ∧
      Inv owner s' (liveAfterRealloc live size ptr newptr) accepted blocks' frees' ∧ Resized live s s' ptr newptr size := by
  cases ptr with
  | none =>
    obtain ⟨s',newptr,blocks',frees',ran,inv',new,same⟩ := invMalloc inv fits .main mallocCore
    exact ⟨s',newptr,blocks',frees',ran,inv',fun q m _ => same q m,fun _ _ q m => same q m,fun p here => (new p here).2,
      fun p here _ => (new p here).1,by simp⟩
  | some ptr =>
    have m := m ptr rfl
    by_cases zero : size = 0
    · obtain ⟨blocks',frees',inv',same⟩ := invFree inv m
      refine ⟨_,none,blocks',frees',by rw [biosRealloc]; exact if_pos zero,?_,?_,by omega,by simp,by simp,by simp⟩
      · rwa [liveAfterRealloc,if_pos zero]
      · exact fun q m ne => same q m (fun same => ne (by rw [same]))
    · obtain ⟨heap,xs,b,ys,eq,used,rfl⟩ := liveBlock inv m
      have h := inv.sound heap
      rw [eq] at h
      rcases reallocInPlace h used (by omega) fits with ⟨s',b',bs,fs,ran,sound,sum,addr,_,large,remain,frame,quiet⟩ | move
      · have alive : ∀ p, p ∈ live ↔ p ∈ pointers bs ∨ ∃ other, other ≠ heap ∧ p ∈ pointers (blocks other) := by
          intro p
          have same : p ∈ pointers bs ↔ p ∈ pointers (blocks heap) := by
            rw [pointers,remain,pointers,eq,usedAppend,usedUsed used]
            simp [addr]
          rw [same]
          exact liveAt inv heap p
        have kept := invAt inv frame sound (by rw [sum,← eq]; exact inv.sums heap) (fun _ _ => rfl) alive
        refine ⟨s',some (b.addr + headerSize),Function.update blocks heap bs,Function.update frees heap fs,ran,?_,?_⟩
        · rw [liveAfterRealloc,if_pos rfl]
          exact kept
        · exact resizedInPlace inv eq used fits frame sound remain addr large quiet
      · rw [move,moveBlock]
        obtain ⟨s1,newptr,blocks1,frees1,ran,inv1,new,same⟩ := invMalloc inv fits .main mallocCore
        rw [ran]
        cases newptr with
        | none =>
          refine ⟨s1,none,blocks1,frees1,rfl,?_,fun q m _ => same q m,fun _ _ q m => same q m,by simp,by simp,by simp⟩
          rw [liveAfterRealloc,if_neg zero]
          simpa using inv1
        | some newptr =>
          obtain ⟨fresh,enough⟩ := new newptr rfl
          have ne : newptr ≠ b.addr + headerSize := fun same => fresh (same ▸ m)
          have stillLive : b.addr + headerSize ∈ live ++ (some newptr).toList := by simp [m]
          obtain ⟨blocks',frees',inv',same'⟩ := invFree (invMem inv1 (store s1.mem newptr
            (read s1.mem (b.addr + headerSize) (min size (b.size - headerSize))))) stillLive
          refine ⟨_,some newptr,blocks',frees',rfl,?_,?_⟩
          · rw [liveAfterRealloc,if_neg ne]
            simpa using inv'
          · have size' := usableOf ((inv.sound heap).rep.holds b (by simp [eq]))
            rw [← size'] at same' ⊢
            exact resizedMoved inv1 same m fresh enough same'

theorem invPrepare (inv : Inv owner s live accepted blocks frees) {ah : Nat} (size : Nat) (heap : Heap)
    (fresh : ∀ other, ah ∉ head other::(blocks other).map Block.addr) :
    Inv owner (prepare s ah heap size) live accepted blocks frees := by
  refine ⟨?_,inv.sums,inv.live⟩
  intro other
  have h := inv.sound other
  have notHead : head other ≠ ah := fun same => fresh other (by simp [same])
  refine ⟨⟨?_,holdsUpdate h.rep.holds (fun m => fresh other (List.mem_cons_of_mem _ m)),h.rep.all,h.rep.free,h.rep.members⟩,
    h.laid,h.apart⟩
  show (Function.update s.hdr ah _ (head other)).type = _
  rw [Function.update_of_ne notHead]
  exact h.rep.headType

theorem invInject (inv : Inv owner s live accepted blocks frees) {ah size : Nat} (aligned : headerSize ∣ size)
    (room : 2*headerSize ≤ size) (below : ah + size ≤ memMax) (owned : ∀ x, ah ≤ x → x < ah + size → owner x = heap)
    (apart : ∀ chain, Circular s.all (head heap) chain → ∀ a ∈ chain, ah + headerSize ≤ a ∨ a + 2*headerSize ≤ ah) :
    ∃ s' ok blocks' frees', injectFreeBlock (prepare s ah heap size) ah = some (s',ok) ∧
      Inv owner s' live (if ok then Function.update accepted heap (accepted heap + size) else accepted) blocks' frees' := by
  have good : Good owner heap ⟨ah,size,(s.hdr ah).tag,false⟩ := ⟨aligned,room,below,owned⟩
  have fresh : ∀ other, ah ∉ head other::(blocks other).map Block.addr := by
    intro other m
    rcases List.mem_cons.mp m with atHead | m
    · unfold memMax at below
      cases other <;> simp only [head] at atHead <;> omega
    · by_cases same : other = heap
      · subst same
        have := apart _ (inv.sound other).rep.all ah m
        unfold headerSize at this
        omega
      · obtain ⟨c,mc,rfl⟩ := List.mem_map.mp m
        have there := (inv.sound other).laid.good c mc
        have := there.room
        unfold headerSize at this room
        exact same ((there.owned c.addr (by omega) (by omega)).symm.trans (owned c.addr (by omega) (by omega)))
  have inv := invPrepare inv size heap fresh
  have header : (prepare s ah heap size).hdr ah = Block.header ⟨ah,size,(s.hdr ah).tag,false⟩ heap := by
    simp [prepare,Arena.setAttrs,Arena.poke,Arena.setHdr,Block.header,sizeMaskEq aligned]
  rcases injectSound (inv.sound heap) good rfl header (fresh heap) with
    rejected | ⟨us,vs,ws,f,g,zs,s',fs,eq,left,right,ran,sound,frame⟩
  · exact ⟨_,false,blocks,frees,rejected,inv⟩
  · refine ⟨s',true,_,_,ran,invAt inv frame sound ?_ ?_ ?_⟩
    · rw [freedTotal left right,if_pos rfl,Function.update_self,← inv.sums heap,eq]
      simp [total]
      omega
    · intro other ne
      rw [if_pos rfl,Function.update_of_ne ne]
    · intro p
      have same : p ∈ pointers (ws ++ g::zs) ↔ p ∈ pointers (blocks heap) := by
        rw [pointers,freedUsed left right,pointers,eq,usedAppend]
      rw [same]
      exact liveAt inv heap p

/- One heap's turn in __free_tagged; what is live then is settled at the end. -/
theorem invFreeTaggedHeap (inv : Inv owner s live accepted blocks frees) (heap : Heap) (tag : Nat) :
    ∃ s' live' bs fs, freeTaggedHeap tag (head heap) turns s (s.all.next (head heap)) = some s' ∧
      usedBlocks bs = (usedBlocks (blocks heap)).filter (fun b => b.tag ≠ tag) ∧
      Inv owner s' live' accepted (Function.update blocks heap bs) (Function.update frees heap fs) ∧
      ∀ other, ∀ c ∈ usedBlocks (blocks other), (other = heap → c.tag ≠ tag) → Unchanged s s' (c.addr + headerSize) := by
  have h := inv.sound heap
  have start : Sound owner s heap ([] ++ blocks heap) (frees heap) := h
  obtain ⟨s',bs,fs,ran,sound,frame,sum,remain,quiet⟩ := freeTaggedHeapSound tag start (allLength h.laid)
    (circularHeadNext h.rep.all)
  have remain : usedBlocks bs = (usedBlocks (blocks heap)).filter (fun b => b.tag ≠ tag) := by
    simpa [usedBlocks] using remain
  refine ⟨s',pointers bs ++ pointers (blocks (if heap = .main then .lowmem else .main)),bs,fs,ran,remain,
    invAt inv frame sound (sum.trans (inv.sums heap)) (fun _ _ => rfl) ?_,?_⟩
  · intro p
    rw [List.mem_append]
    refine or_congr_right ⟨fun m => ⟨_,?_,m⟩,?_⟩
    · cases heap <;> decide
    · rintro ⟨other,ne,m⟩
      cases heap <;> cases other <;> first | exact m | exact absurd rfl ne
  · intro other c m spared
    obtain ⟨mc,used⟩ := usedMem.1 m
    refine invUnchanged inv frame sound mc ?_ ?_
    · rintro rfl
      refine (usedMem.1 ?_).1
      rw [remain]
      exact List.mem_filter.mpr ⟨m,by simpa using spared rfl⟩
    · intro x above below
      have inside := contentsInside above below
      refine quiet x (invSafe inv heap mc used above below) ?_
      intro d md tagged both
      have same := insideOwner h.laid (inv.sound other).laid md mc both inside
      subst same
      exact spared rfl (insideUnique h.laid mc md inside both ▸ tagged)

theorem invFreeTagged (inv : Inv owner s live accepted blocks frees) (tag : Nat) :
    ∃ s' blocks' frees', freeTagged s tag = some s' ∧
      Inv owner s' (live.filter (fun p => (s.hdr (p - headerSize)).tag ≠ tag)) accepted blocks' frees' ∧
      (∀ heap, ∀ c ∈ usedBlocks (blocks' heap), c.tag ≠ tag) ∧
      ∀ q ∈ live, (s.hdr (q - headerSize)).tag ≠ tag → Unchanged s s' q := by
  obtain ⟨s1,live1,bs1,fs1,ran1,used1,inv1,same1⟩ := invFreeTaggedHeap inv .main tag
  obtain ⟨s2,live2,bs2,fs2,ran2,used2,inv2,same2⟩ := invFreeTaggedHeap inv1 .lowmem tag
  refine ⟨s2,_,_,by rw [freeTagged,ran1]; exact ran2,invLive inv2 ?_,?_,?_⟩
  · intro p
    have spared : ∀ heap, (p ∈ pointers (blocks heap) ∧ (s.hdr (p - headerSize)).tag ≠ tag) ↔
        p ∈ ((usedBlocks (blocks heap)).filter (fun b => b.tag ≠ tag)).map (fun b => b.addr + headerSize) := by
      intro heap
      have tagOf : ∀ b ∈ usedBlocks (blocks heap), (s.hdr (b.addr + headerSize - headerSize)).tag = b.tag := by
        intro b m
        rw [Nat.add_sub_cancel,(inv.sound heap).rep.holds b (List.mem_of_mem_filter m)]
        rfl
      constructor
      · rintro ⟨m,other⟩
        obtain ⟨b,mb,rfl⟩ := List.mem_map.mp m
        rw [tagOf b mb] at other
        exact List.mem_map_of_mem (List.mem_filter.mpr ⟨mb,by simpa using other⟩)
      · intro m
        obtain ⟨b,mb,rfl⟩ := List.mem_map.mp m
        obtain ⟨mb,other⟩ := List.mem_filter.mp mb
        exact ⟨List.mem_map_of_mem mb,by rw [tagOf b mb]; simpa using other⟩
    rw [inv2.live p,List.mem_filter,inv.live p]
    simp only [decide_eq_true_eq]
    constructor
    · rintro ⟨⟨heap,m⟩,other⟩
      have there := (spared heap).mp ⟨m,other⟩
      cases heap with
      | main => exact ⟨.main,by simpa [pointers,used1] using there⟩
      | lowmem => exact ⟨.lowmem,by simpa [pointers,used2] using there⟩
    · rintro ⟨heap,m⟩
      have there : p ∈ ((usedBlocks (blocks heap)).filter (fun b => b.tag ≠ tag)).map (fun b => b.addr + headerSize) := by
        cases heap with
        | main => simpa [pointers,used1] using m
        | lowmem => simpa [pointers,used2] using m
      have here := (spared heap).mpr there
      exact ⟨⟨heap,here.1⟩,here.2⟩
  · intro heap c m
    cases heap with
    | main =>
      rw [Function.update_of_ne (by decide),Function.update_self,used1] at m
      simpa using (List.mem_filter.mp m).2
    | lowmem =>
      rw [Function.update_self,used2] at m
      simpa using (List.mem_filter.mp m).2
  · intro q m other
    obtain ⟨heap,c,mc,used,rfl,_⟩ := liveUsed inv m
    rw [Nat.add_sub_cancel,(inv.sound heap).rep.holds c mc] at other
    have spared : c.tag ≠ tag := other
    have m := usedMem.2 ⟨mc,used⟩
    refine unchangedTrans (same1 heap c m (fun _ => spared)) (same2 heap c ?_ (fun _ => spared))
    cases heap with
    | main =>
      rw [Function.update_self,used1]
      exact List.mem_filter.mpr ⟨m,by simpa using spared⟩
    | lowmem => exact m

end

section
variable {owner : Nat → Heap} {s : Session}

def Kept (owner : Nat → Heap) (s : Session) : Prop := ∃ blocks frees, Inv owner s.arena s.live s.accepted blocks frees

theorem keptStep (kept : Kept owner s) {e : Event} (promised : Promised owner s e) :
    ∃ s', step s e = some s' ∧ Kept owner s' := by
  obtain ⟨blocks,frees,inv⟩ := kept
  cases e with
  | inject ah heap size =>
    obtain ⟨aligned,room,below,owned,apart⟩ := promised
    obtain ⟨a,ok,blocks',frees',ran,inv'⟩ := invInject inv aligned room below owned apart
    exact ⟨_,by rw [step,ran]; rfl,blocks',frees',inv'⟩
  | malloc size heap tag =>
    obtain ⟨a,ptr,blocks',frees',ran,inv',_⟩ := invMalloc inv promised heap tag
    exact ⟨_,by rw [step,ran]; rfl,blocks',frees',inv'⟩
  | free ptr =>
    obtain ⟨blocks',frees',inv',_⟩ := invFree inv promised
    exact ⟨_,rfl,blocks',frees',inv'⟩
  | realloc ptr size =>
    obtain ⟨a,newptr,blocks',frees',ran,inv',_⟩ := invRealloc inv promised.1 promised.2
    exact ⟨_,by rw [step,ran]; rfl,blocks',frees',inv'⟩
  | freeTagged tag =>
    obtain ⟨a,blocks',frees',ran,inv',_⟩ := invFreeTagged inv tag
    exact ⟨_,by rw [step,ran]; rfl,blocks',frees',inv'⟩

theorem invInOrder {blocks : Heap → List Block} {frees : Heap → List Nat}
    (inv : Inv owner s.arena s.live s.accepted blocks frees) (heap : Heap) :
    InOrder s heap ((blocks heap).map Block.addr) (frees heap) := by
  have h := inv.sound heap
  have sizeOf' : ∀ b ∈ blocks heap, (s.arena.hdr b.addr).size = b.size := fun b m => by rw [h.rep.holds b m]; rfl
  have freeOf : ∀ b ∈ blocks heap, (s.arena.hdr b.addr).type = .free ↔ b.free = true :=
    fun b m => by rw [h.rep.holds b m]; exact headerFree
  refine ⟨h.rep.all,?_,?_,h.rep.free,?_,?_,?_,?_⟩
  · refine List.pairwise_map.mpr (h.laid.ordered.imp_of_mem ?_)
    intro b c mb _ le
    have := (h.laid.good b mb).room
    unfold headerSize at this
    omega
  · refine List.pairwise_map.mpr (h.laid.ordered.imp_of_mem ?_)
    intro b c mb _ le
    rwa [sizeOf' b mb]
  · intro a
    rw [h.rep.members.mem_iff,freeAddrs]
    simp only [List.mem_map,List.mem_filter]
    constructor
    · rintro ⟨b,⟨mb,free⟩,rfl⟩
      exact ⟨⟨b,mb,rfl⟩,(freeOf b mb).mpr free⟩
    · rintro ⟨⟨b,mb,rfl⟩,free⟩
      exact ⟨b,⟨mb,(freeOf b mb).mp free⟩,rfl⟩
  · intro a ma b mb free free'
    obtain ⟨x,mx,rfl⟩ := List.mem_map.mp ma
    obtain ⟨y,my,rfl⟩ := List.mem_map.mp mb
    rw [sizeOf' x mx]
    exact apartAll h.laid h.apart mx my ((freeOf x mx).mp free) ((freeOf y my).mp free')
  · intro a ma
    obtain ⟨b,mb,rfl⟩ := List.mem_map.mp ma
    rw [sizeOf' b mb]
    exact ⟨(h.laid.good b mb).aligned,(h.laid.good b mb).room⟩
  · rw [← inv.sums heap,total,List.map_map]
    exact congrArg List.sum (List.map_congr_left sizeOf')

theorem keptInOrder (kept : Kept owner s) (heap : Heap) : ∃ all frees, InOrder s heap all frees := by
  obtain ⟨blocks,frees,inv⟩ := kept
  exact ⟨_,_,invInOrder inv heap⟩

theorem keptBooted (owner : Nat → Heap) (a : Arena) : Kept owner (booted a) := by
  refine ⟨fun _ => [],fun _ => [],?_,fun _ => rfl,by simp [booted,pointers,usedBlocks]⟩
  intro heap
  refine ⟨⟨?_,by simp [Holds],?_,?_,by simp [freeAddrs]⟩,⟨List.Pairwise.nil,by simp⟩,List.Pairwise.nil⟩
  · cases heap <;>
      simp [booted,memInit,initHead,Arena.setHdr,Arena.setNext,Arena.setPrev,Arena.setNextFree,Arena.setPrevFree,Arena.poke,head]
  · refine ⟨⟨?_,?_,trivial⟩,by simp⟩ <;> cases heap <;>
      simp [booted,memInit,initHead,Arena.setHdr,Arena.setNext,Arena.setPrev,Arena.setNextFree,Arena.setPrevFree,Arena.poke,head]
  · refine ⟨⟨?_,?_,trivial⟩,by simp⟩ <;> cases heap <;>
      simp [booted,memInit,initHead,Arena.setHdr,Arena.setNext,Arena.setPrev,Arena.setNextFree,Arena.setPrevFree,Arena.poke,head]

/- Every run of the allocator whose callers keep their promises goes through, and leaves
both heaps in order. -/
theorem heapsInOrder {owner : Nat → Heap} {a : Arena} {events : List Event}
    (promised : Along step (Promised owner) (booted a) events) :
    ∃ s, run step (booted a) events = some s ∧ ∀ heap, ∃ all frees, InOrder s heap all frees := by
  obtain ⟨s,ran,kept⟩ := runProgress (fun _ _ kept here => keptStep kept here) (keptBooted owner a) promised
  exact ⟨s,ran,keptInOrder kept⟩

/- One page given to the main heap; an allocation from it is freed again. -/
theorem heapsInOrderPage :
    let a : Arena := ⟨fun _ => ⟨0,.used,.main,0⟩,⟨id,id⟩,⟨id,id⟩,fun _ => 0⟩
    ∃ s, run step (booted a) [.inject 0x100000 .main 4096,.malloc 100 .main mallocModule,.free 0x100010] = some s ∧
      ∀ heap, ∃ all frees, InOrder s heap all frees := by
  intro a
  refine @heapsInOrder (fun x => if x < 0x100000 then .lowmem else .main) _ _ ⟨⟨?_,?_,?_,?_,?_⟩,?_⟩
  · decide
  · decide
  · decide
  · intro x above _
    exact if_neg (by omega)
  · intro chain ring
    rw [circularNil ring (by decide)]
    simp
  · generalize first : step (booted a) (.inject 0x100000 .main 4096) = r
    cases r with
    | none => trivial
    | some s1 =>
      refine ⟨(by decide : 100 + 2*headerSize - 1 < 2^32),?_⟩
      generalize second : step s1 (.malloc 100 .main mallocModule) = r
      cases r with
      | none => trivial
      | some s2 =>
        have both : run step (booted a) [.inject 0x100000 .main 4096,.malloc 100 .main mallocModule] = some s2 := by
          rw [run,first,Option.bind_some,run,second]
          rfl
        have live : (run step (booted a) [.inject 0x100000 .main 4096,.malloc 100 .main mallocModule]).map Session.live =
            some [0x100010] := by decide
        rw [both] at live
        refine ⟨?_,?_⟩
        · show 0x100010 ∈ s2.live
          rw [Option.some.inj live]
          simp
        · split
          · trivial
          · trivial

end
end Syslinux.Malloc
