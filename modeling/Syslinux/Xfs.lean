import Syslinux.GetfssecAsked
import Syslinux.Opal

/-! The extents of an XFS file: xfs_next_extent of core/fs/xfs/xfs.c with the records and
block numbers of xfs.h, and the files in the two formats. -/
namespace Syslinux.Xfs
open Opal (be16 be32)
open Getfssec (Extent Fs Ask extentZero extentVoid)

def be64 (b : Nat → UInt8) (off : Nat) : Nat := 2^32*be32 b off + be32 b (off + 4)

/- struct xfs_fs_info with the shifts of fs_info, and the blocks as get_cache has them.
Bytes behind the end of a block are what lies there in memory. -/
structure XfsInfo where
  blockShift : Nat
  sectorShift : Nat
  agblkShift : Nat
  agblocks : Nat
  inopbShift : Nat
  inodeShift : Nat
  inodesize : Nat
  getCache : Nat → Nat → UInt8

def nullfsblock : Nat := 2^64 - 1
def fmtExtents : Nat := 2
def fmtBtree : Nat := 3

/- xfs_bmbt_irec_t. Nothing looks at br_state. -/
structure Irec where
  startoff : Nat
  startblock : Nat
  blockcount : Nat
  deriving DecidableEq, Repr

def bmbtIrecGet (src : Nat → UInt8) (off : Nat) : Irec :=
  let l0 := be64 src off
  let l1 := be64 src (off + 8)
  ⟨l0 % 2^63 / 2^9,l0 % 2^9*2^43 + l1 / 2^21,l1 % 2^21⟩

/- The places in struct xfs_dinode, struct xfs_bmdr_block and struct xfs_btree_block. -/
def literalArea : Nat := 100
def sizeofBmdrBlock : Nat := 4
def btreeLblockLen : Nat := 24
def sizeofBmbtRec : Nat := 16

def xfsBmdrMaxrecs (blocklen : Nat) : Nat := (blocklen - sizeofBmdrBlock) / 16

section
variable (fs : XfsInfo)

def XfsInfo.agblockToBytes (x : Nat) : Nat := x*2^fs.blockShift % 2^64
def XfsInfo.agnumberToBytes (x : Nat) : Nat := fs.agblockToBytes (x*fs.agblocks % 2^64)
def XfsInfo.fsblockToBytes (x : Nat) : Nat :=
  (fs.agnumberToBytes (x / 2^fs.agblkShift % 2^32) + fs.agblockToBytes (x % 2^fs.agblkShift % 2^32)) % 2^64
def XfsInfo.inoToBytes (ino : Nat) : Nat :=
  (fs.agnumberToBytes (ino / 2^(fs.inopbShift + fs.agblkShift) % 2^32) +
    ino % 2^(fs.inopbShift + fs.agblkShift) % 2^32*2^fs.inodeShift % 2^64) % 2^64

/- fsblock_to_bytes(fs, x) >> BLOCK_SHIFT(fs) -/
def XfsInfo.blockOf (x : Nat) : Nat := fs.fsblockToBytes x / 2^fs.blockShift

def xfsDinodeGetCore (ino : Nat) : Option (Nat → UInt8) :=
  let blk := fs.inoToBytes ino / 2^fs.blockShift
  let offset := ino % 2^fs.inopbShift*2^fs.inodeShift
  if 2^fs.blockShift < offset then none
  else
    let core := fun i => fs.getCache blk (offset + i)
    -- "IN"
    if be16 core 0 ≠ 0x494E then none else some core

/- XFS_DFORK_SIZE of the data fork. -/
def dforkSize (core : Nat → UInt8) : Nat := if (core 82).toNat ≠ 0 then (core 82).toNat*8 else fs.inodesize - 102

def findLeaf : Nat → Nat → Option (Nat → UInt8)
  | 0,_ => none
  | turns+1,bno =>
      let blk := fs.getCache bno
      if be16 blk 4 = 0 then some blk
      else findLeaf turns (fs.blockOf (be64 blk (btreeLblockLen + xfsBmdrMaxrecs (2^fs.blockShift)*8)))

def findRec : Nat → Nat → (Nat → UInt8) → Option Irec
  | 0,_,_ => none
  | turns+1,index,blk =>
      let nextbno := be64 blk 16
      let nextents := be16 blk 6
      if 0 < sub32 nextents index then some (bmbtIrecGet blk (sizeofBmdrBlock + index*sizeofBmbtRec))
      else findRec turns (sub32 index nextents) (fs.getCache (fs.blockOf nextbno))

def recExtent (prev : Extent) (rec : Irec) : Extent :=
  ⟨fs.blockOf rec.startblock*2^fs.blockShift % 2^64 / 2^fs.sectorShift,prev.lstart,
    (rec.blockcount*2^fs.blockShift + 2^fs.sectorShift - 1) % 2^64 / 2^fs.sectorShift % 2^32⟩

/- i_cur_extent and i_offset of struct xfs_inode. -/
structure XfsInode where
  curExtent : Nat
  offset : Nat
  deriving DecidableEq, Repr

def xfsNextExtent (turns ino : Nat) (inode : XfsInode) (prev : Extent) (_lstart : Nat) : Option (Int × Extent × XfsInode) :=
  match xfsDinodeGetCore fs ino with
  | none => some (-1,prev,inode)
  | some core =>
      if inode.curExtent = be32 core 76 then some (-1,prev,inode)
      else if (core 5).toNat = fmtExtents then
        let rec' := bmbtIrecGet core (literalArea + inode.curExtent*sizeofBmbtRec)
        some (0,recExtent fs prev rec',⟨add32 inode.curExtent 1,rec'.startoff⟩)
      else if (core 5).toNat = fmtBtree then
        let pp := be64 core (literalArea + sizeofBmdrBlock + xfsBmdrMaxrecs (dforkSize fs core)*8)
        ((findLeaf fs turns (fs.blockOf pp)).bind (findRec fs turns inode.curExtent)).map fun rec' =>
          (0,recExtent fs prev rec',⟨add32 inode.curExtent 1,rec'.startoff⟩)
      else some (0,prev,inode)

/- The filesystem for generic_getfssec; a walk that has not ended in the turns counts as an
error. -/
def xfsFs (disk : Nat → Nat → UInt8) (turns ino : Nat) : Fs XfsInode where
  sectorShift := fs.sectorShift
  nextExtent := fun inode prev lstart => (xfsNextExtent fs turns ino inode prev lstart).getD (-1,prev,inode)
  disk := disk

/- A regular file as xfs_iget leaves it. -/
def openInode : XfsInode := ⟨0,0⟩

end

def Irec.Spans (r : Irec) (block : Nat) : Prop := r.startoff ≤ block ∧ block < r.startoff + r.blockcount
instance (r : Irec) (block : Nat) : Decidable (r.Spans block) := by unfold Irec.Spans; infer_instance

/- The leaves below a block of a B+tree, from left to right, by their numbers. -/
def Below (fs : XfsInfo) : Nat → Nat → List Nat → Prop
  | 0,fsb,leaves => be16 (fs.getCache (fs.blockOf fsb)) 4 = 0 ∧ leaves = [fsb]
  | level+1,fsb,leaves =>
      let blk := fs.getCache (fs.blockOf fsb)
      be16 blk 4 = level + 1 ∧ ∃ children : List (List Nat), children ≠ [] ∧ children.length = be16 blk 6 ∧
        leaves = children.flatten ∧ ∀ i child, children[i]? = some child →
          Below fs level (be64 blk (btreeLblockLen + (2^fs.blockShift - btreeLblockLen) / 16*8 + i*8)) child

/- The tree in an inode: its root, and leaves that are linked both ways and have the records. -/
structure BtreeFork (fs : XfsInfo) (core : Nat → UInt8) (leaves : List Nat) (recs : List Irec) : Prop where
  root : ∃ level, be16 core literalArea = level + 1 ∧ ∃ children : List (List Nat), children ≠ [] ∧
    children.length = be16 core (literalArea + 2) ∧ leaves = children.flatten ∧ ∀ i child, children[i]? = some child →
      Below fs level (be64 core (literalArea + sizeofBmdrBlock + xfsBmdrMaxrecs (dforkSize fs core)*8 + i*8)) child
  filled : ∀ fsb ∈ leaves, 0 < be16 (fs.getCache (fs.blockOf fsb)) 6 ∧
    btreeLblockLen + be16 (fs.getCache (fs.blockOf fsb)) 6*sizeofBmbtRec ≤ 2^fs.blockShift
  right : ∀ i fsb, leaves[i]? = some fsb → be64 (fs.getCache (fs.blockOf fsb)) 16 = leaves.getD (i + 1) nullfsblock
  left : ∀ i fsb, leaves[i]? = some fsb → be64 (fs.getCache (fs.blockOf fsb)) 8 = (nullfsblock::leaves).getD i nullfsblock
  records : recs = leaves.flatMap fun fsb => (List.range (be16 (fs.getCache (fs.blockOf fsb)) 6)).map fun i =>
    bmbtIrecGet (fs.getCache (fs.blockOf fsb)) (btreeLblockLen + i*sizeofBmbtRec)

def ExtentsFork (core : Nat → UInt8) (recs : List Irec) : Prop :=
  ∀ i rec', recs[i]? = some rec' → bmbtIrecGet core (literalArea + i*sizeofBmbtRec) = rec'

/- A file of a volume with sectors of at least 512 bytes and blocks of at most 64 kB. Its
records do not overlap, and each lies in one allocation group. -/
structure XfsFile (fs : XfsInfo) (ino : Nat) (core : Nat → UInt8) (recs : List Irec) : Prop where
  shifts : 9 ≤ fs.sectorShift ∧ fs.sectorShift ≤ fs.blockShift ∧ fs.blockShift ≤ 15
  inode : xfsDinodeGetCore fs ino = some core
  count : be32 core 76 = recs.length
  sorted : recs.Pairwise fun r s => r.startoff + r.blockcount ≤ s.startoff
  stored : ∀ r ∈ recs, 0 < r.blockcount ∧
    r.startblock % 2^fs.agblkShift + r.blockcount ≤ min fs.agblocks (2^fs.agblkShift) ∧
    r.startblock / 2^fs.agblkShift < 2^32 ∧ (r.startblock / 2^fs.agblkShift + 1)*fs.agblocks*2^fs.blockShift ≤ 2^63
  group : fs.agblocks < 2^32
  fork : (core 5).toNat = fmtExtents ∧ ExtentsFork core recs ∨
    (core 5).toNat = fmtBtree ∧ ∃ leaves, BtreeFork fs core leaves recs

section
variable (fs : XfsInfo) (recs : List Irec)

def XfsInfo.fileBlock (sector : Nat) : Nat := sector / 2^(fs.blockShift - fs.sectorShift)
def XfsInfo.inBlock (sector : Nat) : Nat := sector % 2^(fs.blockShift - fs.sectorShift)

/- The disk sector of a sector of the file: in the block of the record for it, or
EXTENT_ZERO without one. -/
def Sits (sector psector : Nat) : Prop :=
  (∃ r ∈ recs, r.Spans (fs.fileBlock sector) ∧ psector =
    fs.fsblockToBytes (r.startblock + (fs.fileBlock sector - r.startoff)) / 2^fs.sectorShift + fs.inBlock sector) ∨
  (∀ r ∈ recs, ¬ r.Spans (fs.fileBlock sector)) ∧ psector = extentZero

/- An answer that maps the sector asked for, and all sectors of the file it goes on to. -/
def Right (size : Nat) (ask : Ask) : Prop := ask.rv = 0 ∧ 0 < ask.extent.len ∧ ∀ k < ask.extent.len,
  (ask.lstart + k)*2^fs.sectorShift < size → Sits fs recs (ask.lstart + k) (Getfssec.nextPsector ask.extent.pstart k)

/- Read from its start, with any counts, a file of so many bytes gets the right answers. -/
def ServesAll (disk : Nat → Nat → UInt8) (ino size : Nat) : Prop :=
  ∃ enough, ∀ turns, enough ≤ turns → ∀ ask, Getfssec.Asked (xfsFs fs disk turns ino) size openInode ask →
    Right fs recs size ask

def Covered (disk : Nat → Nat → UInt8) (ino size : Nat) : Prop :=
  ∀ sector < Getfssec.sectorsOf (xfsFs fs disk 0 ino) size, ∃ r ∈ recs, r.Spans (fs.fileBlock sector)

end

end Syslinux.Xfs
