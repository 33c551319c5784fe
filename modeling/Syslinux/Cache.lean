import Syslinux.Chain
import Syslinux.Machine
import Syslinux.Runs

/-! The block cache of core/fs/cache.c. Descriptors are numbered as they lie behind the
cached data: 0 is NULL, `head` the head node, then one for each entry. The cached data
is a memory of its own, addressed from dev->cache_data. The disk is a flat sequence of
bytes; getoneblk reads a block of it. -/
namespace Syslinux.Cache
open Chain Runs

def head : Nat := 1
/- (block_t)-1: the block number of an entry that holds nothing. -/
def noBlock : Nat := 2^64 - 1

structure Device where
  cacheHead : Nat
  cacheBlockSize : Nat
  cacheEntries : Nat
  cacheSize : Nat
  links : Links Nat
  block : Nat → Nat
  data : Nat → Option Nat
  mem : Nat → UInt8

def initEntries : Nat → Nat → Nat → Device → Device
  | 0,_,_,dev => dev
  | left+1,prev,data,dev =>
      let cur := prev + 1
      initEntries left cur (data + dev.cacheBlockSize) { dev with
        data := Function.update dev.data cur (some data)
        block := Function.update dev.block cur noBlock
        links := (dev.links.setPrev cur prev).setNext prev cur }

/- cache_block_size and cache_entries are uint16_t. -/
def cacheInit (sizeofCache : Nat) (dev : Device) (blockSizeShift : Nat) : Device :=
  let dev := { dev with cacheBlockSize := 2^blockSizeShift % 2^16 }
  if dev.cacheSize < dev.cacheBlockSize + 2*sizeofCache then { dev with cacheHead := 0 }
  else
    let entries := (dev.cacheSize - sizeofCache) / (dev.cacheBlockSize + sizeofCache) % 2^16
    let links := dev.links.setPrev head (head + entries)
    initEntries entries head 0 { dev with
      cacheEntries := entries
      cacheHead := head
      links := links.setNext (links.prev head) head
      block := Function.update dev.block head noBlock
      data := Function.update dev.data head none }

def cacheLockBlock (dev : Device) (cs : Nat) : Device :=
  let links := dev.links.setNext (dev.links.prev cs) (dev.links.next cs)
  let links := links.setPrev (links.next cs) (links.prev cs)
  { dev with links := (links.setPrev cs 0).setNext cs 0 }

def findBlock (dev : Device) (block : Nat) : Nat → Nat → Option Nat
  | 0,_ => none
  | left+1,cs => if dev.block cs = block then some cs else findBlock dev block left (cs + 1)

def moveToEnd (dev : Device) (cs : Nat) : Device :=
  if dev.links.next cs = 0 then dev
  else
    let links := dev.links.setNext (dev.links.prev cs) (dev.links.next cs)
    let links := links.setPrev (links.next cs) (links.prev cs)
    let links := links.setPrev cs (links.prev dev.cacheHead)
    let links := links.setNext (links.prev dev.cacheHead) cs
    let links := links.setNext cs dev.cacheHead
    { dev with links := links.setPrev dev.cacheHead cs }

def getCacheBlock (dev : Device) (block : Nat) : Device × Nat :=
  let cs := (findBlock dev block dev.cacheEntries (dev.cacheHead + 1)).getD (dev.links.next dev.cacheHead)
  (moveToEnd dev cs,cs)

def getoneblk (disk mem : Nat → UInt8) (buf : Option Nat) (block blockSize : Nat) : Nat → UInt8 :=
  match buf with
  | some p => store mem p (read disk (block*blockSize) blockSize)
  | none => mem

def getCache (disk : Nat → UInt8) (dev : Device) (block : Nat) : Device × Option Nat :=
  let (dev,cs) := getCacheBlock dev block
  let dev := if dev.block cs = block then dev
    else { dev with
      block := Function.update dev.block cs block
      mem := getoneblk disk dev.mem (dev.data cs) block dev.cacheBlockSize }
  (dev,dev.data cs)

/- A turn consumes at least one byte, so `count` turns are enough. fs->block_size is
1 << fs->block_shift. -/
def cacheReadLoop (disk : Nat → UInt8) (blockShift : Nat) : Nat → Device → Nat → Nat → Device × List UInt8
  | 0,dev,_,_ => (dev,[])
  | turns+1,dev,offset,count =>
      if count = 0 then (dev,[])
      else
        let off := offset &&& (2^blockShift - 1)
        match getCache disk dev (offset >>> blockShift) with
        | (dev,none) => (dev,[])
        | (dev,some cd) =>
            let cnt := min (2^blockShift - off) count
            let rest := cacheReadLoop disk blockShift turns dev ((offset + cnt) % 2^64) (count - cnt)
            (rest.1,read dev.mem (cd + off) cnt ++ rest.2)

def cacheRead (disk : Nat → UInt8) (blockShift : Nat) (dev : Device) (offset count : Nat) : Device × List UInt8 :=
  cacheReadLoop disk blockShift count dev offset count

/- A device under use: the entries that get_cache has returned, in order, and those
that cache_lock_block has locked. -/
structure Session where
  dev : Device
  used : List Nat
  locked : List Nat

def Device.isEntry (dev : Device) (e : Nat) : Prop := dev.cacheHead < e ∧ e ≤ dev.cacheHead + dev.cacheEntries
instance (dev : Device) (e : Nat) : Decidable (dev.isEntry e) := by unfold Device.isEntry; infer_instance

def Device.entries (dev : Device) : List Nat := List.range' (dev.cacheHead + 1) dev.cacheEntries

inductive Event where
  | get (block : Nat)
  | lock (cs : Nat)
  deriving DecidableEq, Repr

def step (disk : Nat → UInt8) (s : Session) : Event → Option Session
  | .get block => if block < noBlock then
        some { s with dev := (getCache disk s.dev block).1, used := s.used ++ [(getCacheBlock s.dev block).2] }
      else none
  | .lock cs => if s.dev.isEntry cs ∧ cs ∉ s.locked ∧ ∃ e ∈ s.dev.entries, e ≠ cs ∧ e ∉ s.locked then
        some { s with dev := cacheLockBlock s.dev cs, locked := s.locked ++ [cs] }
      else none

def opened (sizeofCache : Nat) (dev : Device) (blockSizeShift : Nat) : Session :=
  ⟨cacheInit sizeofCache dev blockSizeShift,[],[]⟩

/- When an entry was last used, counting the uses from 1; 0 if never. -/
def lastUse (used : List Nat) (e : Nat) : Nat := used.length - used.reverse.idxOf e

end Syslinux.Cache
