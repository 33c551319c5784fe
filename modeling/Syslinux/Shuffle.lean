import Syslinux.MovebitsSpec

/-! syslinux_do_shuffle of com32/lib/syslinux/shuffle.c: where the list of moves and the
shuffler code are put. What syslinux_compute_movelist returns in each turn of the sizing loop
is an input (`none` for a failure), as is the size of the shuffler, a constant of the core's
assembly. The lists are counted with ints, which no list in a 32-bit memory overflows; sizes
and addresses are size_t and addr_t and wrap. -/
namespace Syslinux.Shuffle
open Zonelist Zonelist.MemmapType Relocation Movebits

def bail {α : Type} : Work α := fun _ => .error .bail

def syslinuxDupMemmap : List Zone → Work (List Zone)
  | [] => pure []
  | z::rest => fun mallocs =>
      match malloc mallocs with
      | (false,_) => .error .bail
      | (true,mallocs) => (do
          let tail ← syslinuxDupMemmap rest
          pure (z::tail) : Work (List Zone)) mallocs

def countZero : List Zone → Nat
  | [] => 0
  | ml::rest => if ml.type = smtEnd then 0 else (if ml.type = smtZero then 1 else 0) + countZero rest

def allocateFragments (rxmap : List Zone) : List Move → Work (List Zone)
  | [] => pure rxmap
  | mp::rest => do
      let rxmap ← addFreelist rxmap mp.src mp.len smtAlloc
      let rxmap ← addFreelist rxmap mp.dst mp.len smtAlloc
      allocateFragments rxmap rest

/- The largest contiguous region unused by input and output: desczone and descfree. -/
def findZone (fraglist : List Move) (memmap : List Zone) : Work Area := do
  let rxmap ← syslinuxDupMemmap memmap
  let rxmap ← addFreelist rxmap 0 (1024 * 1024) smtReserved
  let rxmap ← allocateFragments rxmap fraglist
  match syslinuxMemmapLargest rxmap smtFree with
  | none => bail
  | some zone => pure zone

def descBlockSize : Nat := 256
def sizeofDescriptor : Nat := 12

def blocksFor (n : Nat) : Nat := (n + descBlockSize - 1) / descBlockSize

/- The memory asked for, before it is stored in a size_t. -/
def areaSize (shuffler blocks : Nat) : Nat :=
  blocks * sizeofDescriptor * descBlockSize + sizeofDescriptor + shuffler

def descmemOf (shuffler blocks : Nat) : Nat := areaSize shuffler blocks % 2^32

/- `x & ~3` -/
def alignDown (a : Nat) : Nat := a - a % 4

def descaddrOf (zone : Area) (descmem : Nat) : Nat := alignDown (sub32 (add32 zone.start zone.len) descmem)

structure Sized where
  descaddr : Nat
  descmem : Nat
  moves : List Move
  deriving DecidableEq, Repr

/- One turn for each list that syslinux_compute_movelist returns. -/
def sizingLoop (shuffler nzero : Nat) (zone : Area) : List (Option (List Move)) → List Zone → Nat → Work Sized
  | [],_,_ => fun _ => .error .fuel
  | answer::answers,rxmap,descBlocks => do
      let descmem := descmemOf shuffler descBlocks
      let descaddr := descaddrOf zone descmem
      if descaddr < zone.start then bail else
      let rxmap ← addFreelist rxmap descaddr descmem smtReserved
      match answer with
      | none => bail
      | some moves =>
        let needBlocks := blocksFor (moves.length + nzero)
        if needBlocks ≤ descBlocks then pure ⟨descaddr,descmem,moves⟩
        else sizingLoop shuffler nzero zone answers rxmap needBlocks

def sizeArea (shuffler : Nat) (answers : List (Option (List Move))) (fraglist : List Move) (memmap : List Zone) :
    Work Sized := do
  let zone ← findZone fraglist memmap
  let rxmap ← syslinuxDupMemmap memmap
  sizingLoop shuffler (countZero memmap) zone answers rxmap (blocksFor (countZero memmap))

structure Descriptor where
  dst : Nat
  src : Nat
  len : Nat
  deriving DecidableEq, Repr

def zeroDescriptors : List Zone → List Descriptor
  | ml::next::rest =>
      if ml.type = smtEnd then []
      else if ml.type = smtZero then
        ⟨ml.start,2^32 - 1,sub32 next.start ml.start⟩::zeroDescriptors (next::rest)
      else zeroDescriptors (next::rest)
  | _ => []

/- Up to bios_do_shuffle_and_boot: the address and the descriptors it is called with. -/
def syslinuxDoShuffle (shuffler : Nat) (answers : List (Option (List Move))) (fraglist : List Move)
    (memmap : List Zone) (entryPoint entryType : Nat) : Work (Nat × List Descriptor) := do
  let sized ← sizeArea shuffler answers fraglist memmap
  fun mallocs =>
    match malloc mallocs with
    | (false,_) => .error .bail
    | (true,mallocs) => .ok ((sized.descaddr,sized.moves.map (fun mp => ⟨mp.dst,mp.src,mp.len⟩) ++
        zeroDescriptors memmap ++ [⟨entryPoint,entryType,0⟩]),mallocs)

end Syslinux.Shuffle
