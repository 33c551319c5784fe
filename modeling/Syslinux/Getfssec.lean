import Syslinux.Machine

/-! The generic sector reader of core/fs/getfssec.c. The next_extent operation and the
disk are the filesystem's: `Fs` takes them as parameters, with the filesystem's private
inode data in σ. Sector numbers of the file and byte counts are 32 bits wide, sector
numbers of the disk 64. -/
namespace Syslinux.Getfssec

def extentZero : Nat := 2^64 - 1
def extentVoid : Nat := 2^64 - 2

structure Extent where
  pstart : Nat
  lstart : Nat
  len : Nat
  deriving DecidableEq, Repr

/- next_extent returns its value, the contents it leaves in inode->next_extent, and the
private data; rdwr_sectors reads byte `j` of disk sector `s` as `disk s j`. -/
structure Fs (σ : Type) where
  sectorShift : Nat
  nextExtent : σ → Extent → Nat → Int × Extent × σ
  disk : Nat → Nat → UInt8

variable {σ : Type}

def Fs.sectorSize (fs : Fs σ) : Nat := 2^fs.sectorShift

structure Inode (σ : Type) where
  size : Nat
  thisExtent : Extent
  nextExtent : Extent
  pvt : σ

structure File (σ : Type) where
  offset : Nat
  inode : Inode σ

def nextPsector (psector skip : Nat) : Nat :=
  if extentVoid ≤ psector then psector else (psector + skip) % 2^64

def nextPstart (e : Extent) : Nat := nextPsector e.pstart e.len

def getNextExtent (fs : Fs σ) (inode : Inode σ) : Inode σ :=
  let lstart := add32 inode.thisExtent.lstart inode.thisExtent.len
  let (rv,next,pvt) := fs.nextExtent inode.pvt inode.nextExtent lstart
  let next := if rv ≠ 0 then { next with len := 0 } else next
  { inode with nextExtent := { next with lstart := lstart }, pvt := pvt }

def Extent.has (e : Extent) (lsector : Nat) : Prop := ¬ (lsector < e.lstart ∨ add32 e.lstart e.len ≤ lsector)
instance (e : Extent) (lsector : Nat) : Decidable (e.has lsector) := by unfold Extent.has; infer_instance

def seek (inode : Inode σ) (lsector : Nat) : Inode σ :=
  let this := if inode.thisExtent.has lsector then inode.thisExtent else inode.nextExtent
  if this.has lsector then
    let delta := lsector - this.lstart
    { inode with thisExtent := ⟨nextPsector this.pstart delta,lsector,sub32 this.len delta⟩ }
  else { inode with thisExtent := ⟨this.pstart,lsector,0⟩ }

/- The inner loop: lookahead and coalescing. It returns `sectors`, 0 after a failure. -/
def lookahead (fs : Fs σ) : Nat → Nat → Inode σ → Option (Nat × Inode σ)
  | fuel,sectors,inode =>
      if sectors ≤ inode.thisExtent.len then some (sectors,inode)
      else match fuel with
      | 0 => none
      | fuel+1 =>
          let this := inode.thisExtent
          let inode :=
            if inode.nextExtent.len = 0 ∨ inode.nextExtent.lstart ≠ add32 this.lstart this.len then
              getNextExtent fs inode
            else inode
          if this.len = 0 then
            let inode := { inode with thisExtent := inode.nextExtent }
            if inode.nextExtent.len = 0 then some (0,inode)
            else lookahead fs fuel sectors inode
          else if inode.nextExtent.len ≠ 0 ∧ inode.nextExtent.pstart = nextPstart this then
            lookahead fs fuel sectors
              { inode with thisExtent := { this with len := add32 this.len inode.nextExtent.len } }
          else some (sectors,inode)

def Fs.byteAt (fs : Fs σ) (pstart p : Nat) : UInt8 :=
  if pstart = extentZero then 0 else fs.disk (pstart + p / fs.sectorSize) (p % fs.sectorSize)

def readSectors (fs : Fs σ) (pstart chunk : Nat) : List UInt8 := read (fs.byteAt pstart) 0 (chunk * fs.sectorSize)

/- The outer loop: the buffer so far, bytes_read and the inode. -/
def readLoop (fs : Fs σ) : Nat → Nat → List UInt8 → Nat → Inode σ → Option (List UInt8 × Nat × Inode σ)
  | fuel,sectors,buf,bytesRead,inode =>
      if sectors = 0 then some (buf,bytesRead,inode)
      else match fuel with
      | 0 => none
      | fuel+1 => do
          let (sectors,inode) ← lookahead fs (sectors + 1) sectors inode
          let this := inode.thisExtent
          let chunk := min sectors this.len
          let len := chunk * fs.sectorSize % 2^32
          let pstart := if this.pstart = extentZero then this.pstart else (this.pstart + chunk) % 2^64
          readLoop fs fuel (sectors - chunk) (buf ++ readSectors fs this.pstart chunk) (add32 bytesRead len)
            { inode with thisExtent := ⟨pstart,add32 this.lstart chunk,this.len - chunk⟩ }

/- *have_more is written only on the way out at the end: `none` leaves it as it was. -/
structure Result (σ : Type) where
  buf : List UInt8
  bytesRead : Nat
  haveMore : Option Bool
  file : File σ

def genericGetfssec (fs : Fs σ) (file : File σ) (sectors : Nat) : Option (Result σ) :=
  let bytesLeft := (file.inode.size + 2^64 - file.offset) % 2^32
  let sectorsLeft := add32 bytesLeft (fs.sectorSize - 1) / fs.sectorSize
  let sectors := if sectorsLeft < sectors then sectorsLeft else sectors
  if sectors = 0 then some ⟨[],0,none,file⟩
  else do
    let (buf,bytesRead,inode) ← readLoop fs sectors sectors [] 0 (seek file.inode (file.offset / fs.sectorSize))
    let bytesRead := min bytesRead bytesLeft
    some ⟨buf,bytesRead,some (bytesRead < bytesLeft),⟨add32 file.offset bytesRead,inode⟩⟩

end Syslinux.Getfssec
