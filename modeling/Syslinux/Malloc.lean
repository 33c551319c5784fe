import Syslinux.Chain
import Syslinux.Machine

/-! The allocator of core/mem: malloc.c, free.c and the head nodes of init.c, for 32-bit
words and without DEBUG_MALLOC. A header is found under the address of its block; the
words of struct free_arena_header that hold links are kept as two sets of links. The head
nodes lie outside the heaps: they get addresses that no block has. `mem` is the memory
itself, byte by byte, where every header and every link is written too. -/
namespace Syslinux.Malloc
open Chain

inductive Heap where
  | main | lowmem
  deriving DecidableEq, Repr

def Heap.code : Heap → Nat
  | .main => 0
  | .lowmem => 1

inductive ArenaType where
  | used | free | head | dead
  deriving DecidableEq, Repr

def ArenaType.code : ArenaType → Nat
  | .used => 0
  | .free => 1
  | .head => 2
  | .dead => 3

def mallocFree : Nat := 0
def mallocHead : Nat := 1
def mallocCore : Nat := 2
def mallocModule : Nat := 3

/- sizeof(struct arena_header). -/
def headerSize : Nat := 16
/- & ARENA_SIZE_MASK. -/
def sizeMask (n : Nat) : Nat := n / headerSize*headerSize

/- tag and attrs: ARENA_TYPE_GET, ARENA_HEAP_GET and ARENA_SIZE_GET of attrs. -/
structure Header where
  tag : Nat
  type : ArenaType
  heap : Heap
  size : Nat
  deriving DecidableEq, Repr

def Header.attrs (h : Header) : Nat := h.size + h.heap.code*4 + h.type.code

structure Arena where
  hdr : Nat → Header
  all : Links Nat
  free : Links Nat
  mem : Nat → UInt8

/- &__core_malloc_head[heap]. -/
def head : Heap → Nat
  | .main => 2^32
  | .lowmem => 2^32 + 1

def Arena.setHdr (s : Arena) (p : Nat) (h : Header) : Arena := { s with hdr := Function.update s.hdr p h }

def wordBytes (w : Nat) : List UInt8 := (List.range 4).map (fun i => UInt8.ofNat (w / 256^i))
def Arena.poke (s : Arena) (a w : Nat) : Arena := { s with mem := store s.mem a (wordBytes w) }

def Arena.setAttrs (s : Arena) (p : Nat) (h : Header) : Arena := (s.setHdr p h).poke (p + 4) h.attrs
def Arena.setTag (s : Arena) (p tag : Nat) : Arena := (s.setHdr p { s.hdr p with tag := tag }).poke p tag
def Arena.setType (s : Arena) (p : Nat) (type : ArenaType) : Arena := s.setAttrs p { s.hdr p with type := type }
def Arena.setHeap (s : Arena) (p : Nat) (heap : Heap) : Arena := s.setAttrs p { s.hdr p with heap := heap }
def Arena.setSize (s : Arena) (p size : Nat) : Arena := s.setAttrs p { s.hdr p with size := sizeMask size }
def Arena.setNext (s : Arena) (p q : Nat) : Arena := Arena.poke { s with all := s.all.setNext p q } (p + 8) q
def Arena.setPrev (s : Arena) (p q : Nat) : Arena := Arena.poke { s with all := s.all.setPrev p q } (p + 12) q
def Arena.setNextFree (s : Arena) (p q : Nat) : Arena := Arena.poke { s with free := s.free.setNext p q } (p + 16) q
def Arena.setPrevFree (s : Arena) (p q : Nat) : Arena := Arena.poke { s with free := s.free.setPrev p q } (p + 20) q

/- A request that wraps gives a block of 0 or 16 bytes, whose new header lies over the free links of fp in
memory. The links of the chains are kept apart from the bytes here, so that the state behind such a
request is not the source's. -/
def mallocFromBlock (s : Arena) (fp size tag : Nat) : Arena × Nat :=
  let heap := (s.hdr fp).heap
  let fsize := (s.hdr fp).size
  if add32 size (2*headerSize) ≤ fsize then
    let nfp := add32 fp size
    let na := s.all.next fp
    let s := s.setType nfp .free
    let s := s.setHeap nfp heap
    let s := s.setSize nfp (fsize - size)
    let s := s.setTag nfp mallocFree
    let s := s.setType fp .used
    let s := s.setSize fp size
    let s := s.setTag fp tag
    let s := s.setPrev nfp fp
    let s := s.setNext nfp na
    let s := s.setPrev na nfp
    let s := s.setNext fp nfp
    let s := s.setNextFree nfp (s.free.next fp)
    let s := s.setPrevFree nfp (s.free.prev fp)
    let s := s.setPrevFree (s.free.next fp) nfp
    let s := s.setNextFree (s.free.prev fp) nfp
    (s,add32 fp headerSize)
  else
    let s := s.setType fp .used
    let s := s.setTag fp tag
    let s := s.setPrevFree (s.free.next fp) (s.free.prev fp)
    let s := s.setNextFree (s.free.prev fp) (s.free.next fp)
    (s,add32 fp headerSize)

/- More turns than a chain of blocks can take in 32 bits of addresses: running out of
them would be a loop that does not end. -/
def turns : Nat := 2^28

def findFit (s : Arena) (head size : Nat) : Nat → Nat → Option (Option Nat)
  | 0,_ => none
  | left+1,fp =>
      if fp = head then some none
      else if size ≤ (s.hdr fp).size then some (some fp)
      else findFit s head size left (s.free.next fp)

def blockSize (size : Nat) : Nat := sizeMask (add32 size (2*headerSize - 1))

def biosMalloc (s : Arena) (size : Nat) (heap : Heap) (tag : Nat) : Option (Arena × Option Nat) :=
  if size = 0 then some (s,none)
  else (findFit s (head heap) (blockSize size) turns (s.free.next (head heap))).map (fun fit =>
    match fit with
    | some fp => ((mallocFromBlock s fp (blockSize size) tag).1,some (mallocFromBlock s fp (blockSize size) tag).2)
    | none => (s,none))

/- Into the previous block, or onto the free chain; the block to go on with. -/
def coalescePrev (s : Arena) (ah : Nat) : Arena × Nat :=
  let head := head (s.hdr ah).heap
  let pah := s.all.prev ah
  let nah := s.all.next ah
  if (s.hdr pah).type = .free ∧ add32 pah (s.hdr pah).size = ah then
    let s := s.setSize pah (add32 (s.hdr pah).size (s.hdr ah).size)
    let s := s.setNext pah nah
    let s := s.setPrev nah pah
    (s,pah)
  else
    let s := s.setType ah .free
    let s := s.setTag ah mallocFree
    let s := s.setNextFree ah (s.free.next head)
    let s := s.setPrevFree ah head
    let s := s.setNextFree head ah
    let s := s.setPrevFree (s.free.next ah) ah
    (s,ah)

def coalesceNext (s : Arena) (ah nah : Nat) : Arena :=
  if (s.hdr nah).type = .free ∧ add32 ah (s.hdr ah).size = nah then
    let s := s.setSize ah (add32 (s.hdr ah).size (s.hdr nah).size)
    let s := s.setPrevFree (s.free.next nah) (s.free.prev nah)
    let s := s.setNextFree (s.free.prev nah) (s.free.next nah)
    let s := s.setNext ah (s.all.next nah)
    s.setPrev (s.all.next nah) ah
  else s

def freeBlock (s : Arena) (ah : Nat) : Arena × Nat :=
  let nah := s.all.next ah
  let (s,ah) := coalescePrev s ah
  (coalesceNext s ah nah,ah)

def biosFree (s : Arena) (ptr : Nat) : Arena := (freeBlock s (sub32 ptr headerSize)).1

def mergeNext (s : Arena) (ah newsize : Nat) : Arena × Nat :=
  let oldsize := (s.hdr ah).size
  let nah := s.all.next ah
  if nah = add32 ah (s.hdr ah).size ∧ (s.hdr nah).type = .free ∧ newsize ≤ add32 (s.hdr nah).size oldsize then
    let s := s.setNext ah (s.all.next nah)
    let s := s.setPrev (s.all.next ah) ah
    let s := s.setPrevFree (s.free.next nah) (s.free.prev nah)
    let s := s.setNextFree (s.free.prev nah) (s.free.next nah)
    let s := s.setSize ah (add32 (s.hdr ah).size (s.hdr nah).size)
    (s,(s.hdr ah).size)
  else (s,oldsize)

def cutResidual (s : Arena) (ah oldsize newsize xsize : Nat) : Arena :=
  let head := head (s.hdr ah).heap
  let nah := add32 ah newsize
  let s := s.setType nah .free
  let s := s.setSize nah (xsize - newsize)
  let s := s.setSize ah newsize
  let s := s.setHeap nah (s.hdr ah).heap
  let s := s.setNext nah (s.all.next ah)
  let s := s.setNext ah nah
  let s := s.setPrev (s.all.next nah) nah
  let s := s.setPrev nah ah
  if oldsize < newsize then
    let s := s.setPrevFree nah (s.free.prev head)
    let s := s.setNextFree nah head
    let s := s.setPrevFree head nah
    s.setNextFree (s.free.prev nah) nah
  else
    let s := s.setNextFree nah (s.free.next head)
    let s := s.setPrevFree nah head
    let s := s.setNextFree head nah
    s.setPrevFree (s.free.next nah) nah

def moveBlock (s : Arena) (ptr size oldsize : Nat) : Option (Arena × Option Nat) :=
  (biosMalloc s size .main mallocCore).map (fun (s,newptr) =>
    match newptr with
    | some newptr =>
        let s := { s with mem := store s.mem newptr (read s.mem ptr (min size (oldsize - headerSize))) }
        (biosFree s ptr,some newptr)
    | none => (s,none))

def biosRealloc (s : Arena) (ptr : Option Nat) (size : Nat) : Option (Arena × Option Nat) :=
  match ptr with
  | none => biosMalloc s size .main mallocCore
  | some ptr =>
      if size = 0 then some (biosFree s ptr,none)
      else
        let ah := sub32 ptr headerSize
        let oldsize := (s.hdr ah).size
        let newsize := blockSize size
        if newsize ≤ oldsize ∧ oldsize / 4 ≤ newsize ∧ oldsize - newsize < 4096 then some (s,some ptr)
        else
          let (s,xsize) := mergeNext s ah newsize
          if newsize ≤ xsize then
            if add32 newsize (2*headerSize) ≤ xsize then some (cutResidual s ah oldsize newsize xsize,some ptr)
            else some (s,some ptr)
          else moveBlock s ptr size oldsize

def findPlace (s : Arena) (head ah aEnd : Nat) : Nat → Nat → Option (Option Nat)
  | 0,_ => none
  | left+1,nah =>
      if nah = head then some (some nah)
      else if aEnd ≤ nah then some (some nah)
      else if add32 nah (s.hdr nah).size ≤ ah then findPlace s head ah aEnd left (s.all.next nah)
      else some none

def injectFreeBlock (s : Arena) (ah : Nat) : Option (Arena × Bool) :=
  let head := head (s.hdr ah).heap
  (findPlace s head ah (add32 ah (s.hdr ah).size) turns (s.all.next head)).map (fun place =>
    match place with
    | some nah =>
        let s := s.setNext ah nah
        let s := s.setPrev ah (s.all.prev nah)
        let s := s.setPrev nah ah
        let s := s.setNext (s.all.prev ah) ah
        ((freeBlock s ah).1,true)
    | none => (s,false))

def freeTaggedHeap (tag head : Nat) : Nat → Arena → Nat → Option Arena
  | 0,_,_ => none
  | left+1,s,fp =>
      if fp = head then some s
      else
        let (s,fp) := if (s.hdr fp).type = .used ∧ (s.hdr fp).tag = tag then freeBlock s fp else (s,fp)
        freeTaggedHeap tag head left s (s.all.next fp)

def freeTagged (s : Arena) (tag : Nat) : Option Arena :=
  (freeTaggedHeap tag (head .main) turns s (s.all.next (head .main))).bind (fun s =>
    freeTaggedHeap tag (head .lowmem) turns s (s.all.next (head .lowmem)))

/- The head nodes as mem_init leaves them. -/
def initHead (s : Arena) (heap : Heap) : Arena :=
  let s := s.setPrevFree (head heap) (head heap)
  let s := s.setNextFree (head heap) (head heap)
  let s := s.setPrev (head heap) (head heap)
  let s := s.setNext (head heap) (head heap)
  s.setHdr (head heap) ⟨mallocHead,.head,heap,0⟩

def memInit (s : Arena) : Arena := initHead (initHead s .main) .lowmem

end Syslinux.Malloc
