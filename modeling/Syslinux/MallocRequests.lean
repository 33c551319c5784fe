import Syslinux.MallocRuns

/-! What the callers of the allocator may rely on: how large the block is that they get,
what a reallocation keeps, and what is left after the memory of a module has been freed. -/
namespace Syslinux.Malloc
open Chain Runs

def BlocksApart (s : Arena) (p q : Nat) : Prop :=
  p - headerSize + (s.hdr (p - headerSize)).size ≤ q - headerSize ∨
    q - headerSize + (s.hdr (q - headerSize)).size ≤ p - headerSize

/- A request is refused, or granted by a block that is large enough and away from every
live block but the one that is given up for it. -/
def Granted (live : List Nat) (s : Arena) (size : Nat) (ptr result : Option Nat) : Prop :=
  ∀ q, result = some q → size ≤ usable s q ∧ ∀ p ∈ live, some p ≠ ptr → BlocksApart s p q

section
variable {owner : Nat → Heap} {s : Arena} {live : List Nat} {accepted : Heap → Nat} {blocks : Heap → List Block}
  {frees : Heap → List Nat} {heap : Heap} {size : Nat}

theorem liveBlocksApart {p q : Nat} (inv : Inv owner s live accepted blocks frees) (mp : p ∈ live) (mq : q ∈ live)
    (ne : p ≠ q) : BlocksApart s p q := by
  obtain ⟨heap,b,mb,_,rfl,_⟩ := liveUsed inv mp
  obtain ⟨other,c,mc,_,rfl,_⟩ := liveUsed inv mq
  have headerB : s.hdr b.addr = b.header heap := (inv.sound heap).rep.holds b mb
  have headerC : s.hdr c.addr = c.header other := (inv.sound other).rep.holds c mc
  rw [BlocksApart,Nat.add_sub_cancel,Nat.add_sub_cancel,headerB,headerC]
  show b.addr + b.size ≤ c.addr ∨ c.addr + c.size ≤ b.addr
  by_contra overlap
  have roomB := ((inv.sound heap).laid.good b mb).room
  have roomC := ((inv.sound other).laid.good c mc).room
  unfold headerSize at roomB roomC
  -- The later of the two starts is a byte of both.
  have inB : b.Inside (max b.addr c.addr) := ⟨by omega,by omega⟩
  have inC : c.Inside (max b.addr c.addr) := ⟨by omega,by omega⟩
  exact invOutside inv mb mc (fun same => ne (by rw [same])) inC inB

theorem mallocGranted (inv : Inv owner s live accepted blocks frees) (fits : size + 31 < 2^32) (heap : Heap) (tag : Nat) :
    ∃ s' r, biosMalloc s size heap tag = some (s',r) ∧ Granted live s' size none r := by
  obtain ⟨s',r,blocks',frees',ran,inv',new,_⟩ := invMalloc inv fits heap tag
  refine ⟨s',r,ran,?_⟩
  rintro q rfl
  obtain ⟨fresh,enough⟩ := new q rfl
  refine ⟨enough,fun p m _ => liveBlocksApart inv' (by simp [m]) (by simp) ?_⟩
  rintro rfl
  exact fresh m

theorem reallocGranted (inv : Inv owner s live accepted blocks frees) (fits : size + 31 < 2^32) {ptr : Option Nat}
    (m : ∀ p, ptr = some p → p ∈ live) : ∃ s' r, biosRealloc s ptr size = some (s',r) ∧ Granted live s' size ptr r := by
  obtain ⟨s',r,blocks',frees',ran,inv',resized⟩ := invRealloc inv m fits
  refine ⟨s',r,ran,?_⟩
  rintro q rfl
  refine ⟨resized.room q rfl,?_⟩
  intro p mp ne
  cases ptr with
  | none =>
    refine liveBlocksApart inv' (by simp [liveAfterRealloc,mp]) (by simp [liveAfterRealloc]) ?_
    rintro rfl
    exact resized.fresh p rfl (by simp) mp
  | some ptr =>
    have notPtr : p ≠ ptr := fun same => ne (congrArg some same)
    by_cases same : q = ptr
    · subst same
      refine liveBlocksApart inv' (by simp [liveAfterRealloc,mp]) ?_ notPtr
      simp [liveAfterRealloc,m q rfl]
    · refine liveBlocksApart inv' ?_ ?_ ?_
      · simp [liveAfterRealloc,same,mp,notPtr]
      · simp [liveAfterRealloc,same]
      · rintro rfl
        exact resized.fresh p rfl (fun here => same (Option.some.inj here)) mp

theorem mallocFromBlockSize (s : Arena) (fp size tag : Nat) :
    ((mallocFromBlock s fp size tag).1.hdr fp).size = sizeMask size ∨
    ((mallocFromBlock s fp size tag).1.hdr fp).size = (s.hdr fp).size := by
  by_cases enough : add32 size (2*headerSize) ≤ (s.hdr fp).size
  · left
    simp [mallocFromBlock,enough,Arena.setType,Arena.setHeap,Arena.setSize,Arena.setTag,Arena.setAttrs,Arena.setHdr,
      Arena.setNext,Arena.setPrev,Arena.setNextFree,Arena.setPrevFree,Arena.poke]
  · right
    simp [mallocFromBlock,enough,Arena.setType,Arena.setTag,Arena.setAttrs,Arena.setHdr,Arena.setNextFree,
      Arena.setPrevFree,Arena.poke]

theorem cutResidualSize (s : Arena) (ah oldsize newsize xsize : Nat) :
    ((cutResidual s ah oldsize newsize xsize).hdr ah).size = sizeMask newsize := by
  by_cases same : ah = add32 ah newsize
  · unfold cutResidual
    simp only [← same]
    split <;> simp [Arena.setType,Arena.setHeap,Arena.setSize,Arena.setAttrs,Arena.setHdr,
      Arena.setNext,Arena.setPrev,Arena.setNextFree,Arena.setPrevFree,Arena.poke]
  · unfold cutResidual
    split <;> simp [Arena.setType,Arena.setHeap,Arena.setSize,Arena.setAttrs,Arena.setHdr,Function.update_of_ne same,
      Arena.setNext,Arena.setPrev,Arena.setNextFree,Arena.setPrevFree,Arena.poke]

theorem findFitTurn (s : Arena) (node size fp : Nat) : findFit s node size turns fp =
    if fp = node then some none else if size ≤ (s.hdr fp).size then some (some fp)
    else findFit s node size (turns - 1) (s.free.next fp) := by
  have more : turns = turns - 1 + 1 := by decide
  rw [more,findFit]
  rfl

section
variable (word : size < 2^32) (wraps : 2^32 ≤ size + 31)
include word wraps

/- A request that wraps fits the first free block there is, and gets less than it asks for. -/
theorem mallocWraps (inv : Inv owner s live accepted blocks frees) (heap : Heap) (tag : Nat)
    (some' : s.free.next (head heap) ≠ head heap) :
    ∃ s' q, biosMalloc s size heap tag = some (s',some q) ∧ usable s' q < size := by
  have h := inv.sound heap
  have small := blockSizeWraps word wraps
  have ring := h.rep.free
  have next := circularHeadNext ring
  cases frees' : frees heap with
  | nil =>
    rw [frees'] at next
    exact absurd next some'
  | cons fp rest =>
    simp only [frees',List.cons_append,List.head_cons] at next
    have m : fp ∈ frees heap := by simp [frees']
    obtain ⟨b,mb,rfl⟩ := List.mem_map.mp (h.rep.members.mem_iff.mp m)
    have good := h.laid.good b (List.mem_of_mem_filter mb)
    have header := h.rep.holds b (List.mem_of_mem_filter mb)
    have room := good.room
    have below := good.below
    have found : findFit s (head heap) (blockSize size) turns (s.free.next (head heap)) = some (some b.addr) := by
      have fits : blockSize size ≤ (s.hdr b.addr).size := by
        rw [header]
        show _ ≤ b.size
        unfold headerSize at *
        omega
      rw [next] at some'
      rw [next,findFitTurn,if_neg some',if_pos fits]
    refine ⟨(mallocFromBlock s b.addr (blockSize size) tag).1,b.addr + headerSize,?_,?_⟩
    · rw [biosMalloc,if_neg (by omega),found]
      simp only [Option.map_some,mallocPointer,pointerOf good]
    · have written := mallocFromBlockSize s b.addr (blockSize size) tag
      have mask : sizeMask (blockSize size) ≤ blockSize size := Nat.div_mul_le_self _ _
      rw [header] at written
      change _ ∨ _ = b.size at written
      rw [usable,Nat.add_sub_cancel]
      unfold memMax headerSize at *
      omega

theorem reallocWraps (inv : Inv owner s live accepted blocks frees) {ptr : Nat} (m : ptr ∈ live) :
    ∃ s', biosRealloc s (some ptr) size = some (s',some ptr) ∧ usable s' ptr < size := by
  obtain ⟨heap,xs,b,ys,eq,used,rfl⟩ := liveBlock inv m
  have h := inv.sound heap
  rw [eq] at h
  have small := blockSizeWraps word wraps
  have good := laidHere h.laid
  have header := (repHere h.rep).here
  have room := good.room
  have below := good.below
  have start : sub32 (b.addr + headerSize) headerSize = b.addr := by
    rw [sub32Eq (Nat.le_add_left _ _),Nat.add_sub_cancel]
  have oldsize : (s.hdr b.addr).size = b.size := by rw [header]; rfl
  rw [biosRealloc]
  simp only [if_neg (show ¬ size = 0 by omega),start,oldsize,usable,Nat.add_sub_cancel]
  by_cases close : blockSize size ≤ b.size ∧ b.size / 4 ≤ blockSize size ∧ b.size - blockSize size < 4096
  · refine ⟨s,if_pos close,?_⟩
    rw [oldsize]
    unfold memMax at below
    omega
  · rw [if_neg close]
    obtain ⟨g,zs,frees1,xsize,addr,_,_,rep,laid,_⟩ := mergeNextSound h used (blockSize size)
    have room' := (laidHere laid).room
    have below' := (laidHere laid).below
    have header' := (repHere rep).here
    rw [addr] at header' below'
    rw [xsize,if_pos (by unfold headerSize at *; omega)]
    split
    · refine ⟨_,rfl,?_⟩
      have mask : sizeMask (blockSize size) ≤ blockSize size := Nat.div_mul_le_self _ _
      rw [cutResidualSize]
      unfold headerSize at *
      omega
    · refine ⟨_,rfl,?_⟩
      rw [header']
      show g.size - headerSize < size
      unfold memMax at below'
      omega

end
end

section
variable {owner : Nat → Heap} {s : Session} {n : Nat}

def blank : Arena := ⟨fun _ => ⟨0,.used,.main,0⟩,⟨id,id⟩,⟨id,id⟩,fun _ => 0⟩
def splitAt1M (x : Nat) : Heap := if x < 0x100000 then .lowmem else .main

theorem keptPage : ∃ s, step (booted blank) (.inject 0x100000 .main 4096) = some s ∧ Kept splitAt1M s := by
  refine keptStep (keptBooted splitAt1M blank) ⟨by decide,by decide,by decide,?_,?_⟩
  · intro x above _
    exact if_neg (by omega)
  · intro chain ring
    rw [circularNil ring (by decide)]
    simp

theorem keptPageUsed : ∃ s, run step (booted blank) [.inject 0x100000 .main 4096,.malloc 100 .main mallocModule] = some s ∧
    s.live = [0x100010] ∧ Kept splitAt1M s := by
  obtain ⟨s1,first,kept1⟩ := keptPage
  obtain ⟨s2,second,kept2⟩ := keptStep kept1 (e := .malloc 100 .main mallocModule)
    (by decide : 100 + 2*headerSize - 1 < 2^32)
  have both : run step (booted blank) [.inject 0x100000 .main 4096,.malloc 100 .main mallocModule] = some s2 := by
    rw [run,first,Option.bind_some,run,second]
    rfl
  have live : (run step (booted blank) [.inject 0x100000 .main 4096,.malloc 100 .main mallocModule]).map Session.live =
      some [0x100010] := by decide
  rw [both] at live
  exact ⟨s2,both,Option.some.inj live,kept2⟩

/- The rounding of the request is what decides: a request within 31 of 2^32 comes out as
one of no bytes, and is refused only where there is no free block at all. -/
theorem requestGranted (kept : Kept owner s) (word : n < 2^32) :
    (∀ heap tag, (∃ a r, biosMalloc s.arena n heap tag = some (a,r) ∧ Granted s.live a n none r) ↔
      n + 31 < 2^32 ∨ s.arena.free.next (head heap) = head heap) ∧
    ∀ ptr, (∀ p, ptr = some p → p ∈ s.live) →
      ((∃ a r, biosRealloc s.arena ptr n = some (a,r) ∧ Granted s.live a n ptr r) ↔
        n + 31 < 2^32 ∨ (ptr = none ∧ s.arena.free.next (head .main) = head .main)) := by
  obtain ⟨blocks,frees,inv⟩ := kept
  have mallocs : ∀ heap tag, (∃ a r, biosMalloc s.arena n heap tag = some (a,r) ∧ Granted s.live a n none r) ↔
      n + 31 < 2^32 ∨ s.arena.free.next (head heap) = head heap := by
    intro heap tag
    constructor
    · rintro ⟨a,r,ran,granted⟩
      by_contra neither
      obtain ⟨fits,some'⟩ := not_or.mp neither
      obtain ⟨a',q,ran',less⟩ := mallocWraps word (by omega) inv heap tag some'
      cases ran.symm.trans ran'
      exact absurd (granted q rfl).1 (by omega)
    · rintro (fits | empty)
      · exact mallocGranted inv fits heap tag
      · refine ⟨s.arena,none,?_,fun q none' => by simp at none'⟩
        rw [biosMalloc]
        split
        · rfl
        · rw [findFitTurn,if_pos empty]
          rfl
  refine ⟨mallocs,?_⟩
  intro ptr m
  cases ptr with
  | none => simpa [biosRealloc] using mallocs .main mallocCore
  | some ptr =>
    constructor
    · rintro ⟨a,r,ran,granted⟩
      refine Or.inl ?_
      by_contra fits
      obtain ⟨a',ran',less⟩ := reallocWraps word (by omega) inv (m ptr rfl)
      cases ran.symm.trans ran'
      exact absurd (granted ptr rfl).1 (by omega)
    · rintro (fits | ⟨none',_⟩)
      · exact reallocGranted inv fits m
      · simp at none'

/- On the page with one allocation a request of 100 bytes is granted; so is one to resize it. -/
theorem requestGrantedPage : ∃ s, run step (booted blank) [.inject 0x100000 .main 4096,.malloc 100 .main mallocModule] = some s ∧
    (∃ a r, biosMalloc s.arena 100 .main mallocCore = some (a,r) ∧ Granted s.live a 100 none r) ∧
    ∃ a r, biosRealloc s.arena (some 0x100010) 100 = some (a,r) ∧ Granted s.live a 100 (some 0x100010) r := by
  obtain ⟨s,ran,live,kept⟩ := keptPageUsed
  have both := requestGranted kept (by decide : 100 < 2^32)
  refine ⟨s,ran,(both.1 .main mallocCore).mpr (Or.inl (by decide)),(both.2 (some 0x100010) ?_).mpr (Or.inl (by decide))⟩
  intro p here
  rw [live]
  simpa using (Option.some.inj here).symm

/- The largest request there is, with a page free: it is answered by a block of no bytes. -/
theorem requestWraps : ∃ s, step (booted blank) (.inject 0x100000 .main 4096) = some s ∧ Kept splitAt1M s ∧
    ∃ a, biosMalloc s.arena 0xffffffff .main mallocCore = some (a,some 0x100010) ∧ usable a 0x100010 = 0 ∧
      ¬ Granted s.live a 0xffffffff none (some 0x100010) := by
  obtain ⟨s,ran,kept⟩ := keptPage
  have answer : ((step (booted blank) (.inject 0x100000 .main 4096)).bind (fun s =>
      (biosMalloc s.arena 0xffffffff .main mallocCore).map (fun out => (out.2,usable out.1 0x100010)))) =
      some (some 0x100010,0) := by decide
  rw [ran,Option.bind_some] at answer
  obtain ⟨⟨a,r⟩,ran',eq⟩ := Option.map_eq_some_iff.mp answer
  dsimp only at eq
  obtain ⟨rfl,none'⟩ := Prod.mk.inj eq
  refine ⟨s,ran,kept,a,ran',none',?_⟩
  intro granted
  have := (granted 0x100010 rfl).1
  omega

/- bios_realloc of a live block, as its caller sees it. -/
theorem reallocKeeps (kept : Kept owner s) {ptr : Nat} (m : ptr ∈ s.live) (positive : 1 ≤ n) (fits : n + 31 < 2^32) :
    ∃ a r, biosRealloc s.arena (some ptr) n = some (a,r) ∧
      Kept owner { s with arena := a, live := liveAfterRealloc s.live n (some ptr) r } ∧
      (∀ q ∈ s.live, q ≠ ptr → q ∈ liveAfterRealloc s.live n (some ptr) r ∧ Unchanged s.arena a q) ∧
      match r with
      | some new => new ∈ liveAfterRealloc s.live n (some ptr) r ∧
          read a.mem new (min (usable s.arena ptr) n) = read s.arena.mem ptr (min (usable s.arena ptr) n)
      | none => ptr ∈ liveAfterRealloc s.live n (some ptr) r ∧ Unchanged s.arena a ptr := by
  obtain ⟨blocks,frees,inv⟩ := kept
  have live' : ∀ p, some ptr = some p → p ∈ s.live := fun p here => Option.some.inj here ▸ m
  obtain ⟨a,r,blocks',frees',ran,inv',resized⟩ := invRealloc inv live' fits
  refine ⟨a,r,ran,⟨blocks',frees',inv'⟩,?_,?_⟩
  · intro q mq ne
    refine ⟨?_,resized.others q mq (fun here => ne (Option.some.inj here))⟩
    cases r with
    | none => simp [liveAfterRealloc,show n ≠ 0 by omega,mq]
    | some new =>
      by_cases same : new = ptr
      · simp [liveAfterRealloc,same,mq]
      · simp [liveAfterRealloc,same,mq,ne]
  · cases r with
    | none => exact ⟨by simp [liveAfterRealloc,show n ≠ 0 by omega,m],resized.failed rfl (by omega) ptr m⟩
    | some new =>
      refine ⟨?_,resized.copied ptr new rfl rfl⟩
      by_cases same : new = ptr
      · simp [liveAfterRealloc,same,m]
      · simp [liveAfterRealloc,same]

theorem reallocKeepsPage : ∃ s, run step (booted blank) [.inject 0x100000 .main 4096,.malloc 100 .main mallocModule] = some s ∧
    ∃ a r, biosRealloc s.arena (some 0x100010) 200 = some (a,r) ∧
      Kept splitAt1M { s with arena := a, live := liveAfterRealloc s.live 200 (some 0x100010) r } := by
  obtain ⟨s,ran,live,kept⟩ := keptPageUsed
  obtain ⟨a,r,ran',kept',_⟩ := reallocKeeps kept (show 0x100010 ∈ s.live by simp [live]) (by decide : 1 ≤ 200) (by decide)
  exact ⟨s,ran,a,r,ran',kept'⟩

/- __free_tagged, for both heaps. -/
theorem freeTaggedClears (kept : Kept owner s) (tag : Nat) :
    ∃ s', step s (.freeTagged tag) = some s' ∧ Kept owner s' ∧
      (∀ heap, ∃ all frees, InOrder s' heap all frees ∧
        ∀ ah ∈ all, (s'.arena.hdr ah).type = .used → (s'.arena.hdr ah).tag ≠ tag) ∧
      ∀ q ∈ s.live, (s.arena.hdr (q - headerSize)).tag ≠ tag → q ∈ s'.live ∧ Unchanged s.arena s'.arena q := by
  obtain ⟨blocks,frees,inv⟩ := kept
  obtain ⟨a,blocks',frees',ran,inv',cleared,same⟩ := invFreeTagged inv tag
  refine ⟨_,by rw [step,ran]; rfl,⟨blocks',frees',inv'⟩,?_,?_⟩
  · intro heap
    refine ⟨_,_,invInOrder inv' heap,?_⟩
    intro ah m used
    obtain ⟨c,mc,rfl⟩ := List.mem_map.mp m
    have header : a.hdr c.addr = c.header heap := (inv'.sound heap).rep.holds c mc
    rw [header] at used ⊢
    have inUse : c.free = false := by
      cases free : c.free with
      | true => simp [Block.header,free] at used
      | false => rfl
    exact cleared heap c (usedMem.2 ⟨mc,inUse⟩)
  · intro q m other
    exact ⟨List.mem_filter.mpr ⟨m,by simpa using other⟩,same q m other⟩

theorem freeTaggedClearsPage :
    ∃ s, run step (booted blank) [.inject 0x100000 .main 4096,.malloc 100 .main mallocModule] = some s ∧
    ∃ s', step s (.freeTagged mallocModule) = some s' ∧ Kept splitAt1M s' := by
  obtain ⟨s,ran,_,kept⟩ := keptPageUsed
  obtain ⟨s',ran',kept',_⟩ := freeTaggedClears kept mallocModule
  exact ⟨s,ran,s',ran',kept'⟩

end

end Syslinux.Malloc
