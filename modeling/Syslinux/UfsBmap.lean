import Syslinux.Ext2Bmap

/-! core/fs/ufs/bmap.c, the code of ext2 for pointers of 32 or 64 bits. A UFS pointer is the
number of a fragment, and the code takes a block to be eight of them. What both filesystems
report as the next extent of a file is put together at the end. -/
namespace Syslinux.Ufs
open Getfssec (extentZero extentVoid)
open BlockMap

/- What the block maps use of struct fs_info and of struct ufs_sb_info. -/
structure Volume where
  sectorShift : Nat
  blockShift : Nat
  addrShift : Nat
  cBlkFragShift : Nat
  disk : Nat → Nat → UInt8

def ufs1AddrShift : Nat := 2
def ufs2AddrShift : Nat := 3
def fragmentsPerBlk : Nat := 8

def littleEndian : Nat → (Nat → UInt8) → Nat → Nat
  | 0,_,_ => 0
  | n+1,data,i => (data i).toNat + 256*littleEndian n data (i + 1)

/- The cache entry that ufs_fs_init clears and locks has no block number, so block zero comes
from the disk like the others; for blocks of at most 32 KB (cache_block_size is a uint16_t). -/
def Volume.getCache (v : Volume) (block : Nat) : Nat → UInt8 := v.disk block

def getBlkaddr (blk : Nat → UInt8) (index shift : Nat) : Nat := littleEndian (2^shift) blk (index*2^shift)

def fragToBlk (v : Volume) (frag : Nat) : Nat := frag / 2^v.cBlkFragShift

def Volume.layout (v : Volume) : Layout :=
  ⟨v.blockShift - v.addrShift,fragmentsPerBlk,fun start i => getBlkaddr (v.getCache (fragToBlk v start)) i v.addrShift⟩

/- The pointers of an inode, which UFS1 extends to 64 bits. -/
abbrev Inode := Pointers

def ufsBmap (v : Volume) (inode : Inode) (block : Nat) : Nat × Nat := bmapTraditional v.layout inode block

def Volume.blkToSec (v : Volume) : Nat := v.blockShift - v.sectorShift
def Volume.fragShift (v : Volume) : Nat := v.blockShift - v.cBlkFragShift

def ufsNextExtent (v : Volume) (inode : Inode) (lstart : Nat) : Nat × Nat :=
  nextExtent v.blkToSec (v.fragShift - v.sectorShift) (ufsBmap v inode (lstart / 2^v.blkToSec)) lstart

/- Blocks of 4 KB to 32 KB in up to eight fragments of whole sectors. -/
structure Volume.Mounted (v : Volume) : Prop where
  block : 12 ≤ v.blockShift ∧ v.blockShift ≤ 15
  addr : v.addrShift = ufs1AddrShift ∨ v.addrShift = ufs2AddrShift
  frag : v.cBlkFragShift ≤ 3
  sector : 9 ≤ v.sectorShift ∧ v.sectorShift + v.cBlkFragShift ≤ v.blockShift

def NextExtentRight (v : Volume) (inode : Inode) (lstart : Nat) : Prop :=
  NextFollows (blockAt v.layout inode) v.blkToSec (v.fragShift - v.sectorShift) lstart
    (ufsBmap v inode (lstart / 2^v.blkToSec)) (ufsNextExtent v inode lstart)

theorem ufsPointers {v : Volume} {inode : Inode} {lstart : Nat} (mounted : v.Mounted)
    (real : ∀ b, blockAt v.layout inode b*2^(v.fragShift - v.sectorShift) + 2^v.blkToSec ≤ extentVoid) :
    NextExtentRight v inode lstart ↔ Right v.layout inode v.blkToSec (v.fragShift - v.sectorShift) lstart := by
  obtain ⟨low,high⟩ := mounted.block
  obtain ⟨least,whole⟩ := mounted.sector
  have addr : 2 ≤ v.addrShift := by
    rcases mounted.addr with eq | eq <;> rw [eq] <;> decide
  refine pointersFollow ?_ ?_ ?_ real
  · simp only [Volume.layout]
    omega
  · unfold Volume.blkToSec
    omega
  · unfold Volume.fragShift Volume.blkToSec
    omega

end Syslinux.Ufs
namespace Syslinux.NextExtent
open BlockMap

/- Every sector below the end of every ext2 file of pointers and of extents, and every
sector of every UFS file. -/
theorem nextExtents (lstart : Nat) :
    (∀ (v : Ext2.Volume) (inode : Ext2.Inode) (blocks : Nat), v.Mounted → inode.extentsFlag = false →
      blocks < 2^32 → (∀ b, blockAt v.layout inode.pointers b < blocks) → inode.size < 2^32 →
      lstart*2^v.sectorShift < inode.size →
      (Ext2.NextExtentRight v inode (blockAt v.layout inode.pointers) lstart ↔ Ext2.PointersRight v inode lstart)) ∧
    (∀ (v : Ext2.Volume) (inode : Ext2.Inode) (exts : List Ext2.ExtentRec), v.Mounted →
      inode.extentsFlag = true → Ext2.Tree v inode.iBlock exts → Ext2.Extents exts → inode.size < 2^32 →
      lstart*2^v.sectorShift < inode.size →
      (Ext2.NextExtentRight v inode (Ext2.extentBlock exts) lstart ↔ Ext2.ExtentsRight v exts lstart)) ∧
    ∀ (v : Ufs.Volume) (inode : Ufs.Inode), v.Mounted →
      (∀ b, blockAt v.layout inode b*2^(v.fragShift - v.sectorShift) + 2^v.blkToSec ≤ Getfssec.extentVoid) →
      (Ufs.NextExtentRight v inode lstart ↔ Right v.layout inode v.blkToSec (v.fragShift - v.sectorShift) lstart) := by
  refine ⟨?_,?_,?_⟩
  · intro v inode blocks mounted flag word real small below
    exact Ext2.ext2Pointers mounted flag word real small below
  · intro v inode exts mounted flag tree ok small below
    exact Ext2.ext2Extents mounted flag tree ok small below
  · intro v inode mounted real
    exact Ufs.ufsPointers mounted real

/- A 1 KB block volume with pointer blocks 5 and 6, and a file that has nothing but its
first block and the one behind its missing indirect block. -/
def sparseDisk (block i : Nat) : UInt8 := if i ≠ 0 then 0 else if block = 5 then 6 else if block = 6 then 7 else 0
def sparseVolume : Ext2.Volume := ⟨9,10,8,8192,8192,32,1,1,128,sparseDisk⟩
def sparseFile : Ext2.Inode := ⟨300*1024,0,fun i => if i = 0 then 4 else if i = 52 then 5 else 0⟩

theorem lowByte {data : Nat → UInt8} {i : Nat} (rest : ∀ k, 0 < k → k < 4 → data (4*i + k) = 0) : Fat.le32 data (4*i) < 256 := by
  have first := (data (4*i)).toNat_lt
  rw [Fat.le32,Fat.le16,Fat.le16,rest 1 (by decide) (by decide),rest 2 (by decide) (by decide),Nat.add_assoc (4*i) 2 1,
    rest 3 (by decide) (by decide)]
  simpa using first

theorem sparseBlocks (b : Nat) : blockAt sparseVolume.layout sparseFile.pointers b < 256 := by
  refine blockAtBound (by decide) (fun i => ?_) (fun start i => ?_) b
  · refine lowByte fun k some' small => ?_
    simp only [sparseFile]
    rw [if_neg (by omega),if_neg (by omega)]
  · refine lowByte fun k some' small => ?_
    rw [Ext2.Volume.getCache]
    exact if_pos (by omega)

theorem sparseMounted : sparseVolume.Mounted := ⟨by decide,by decide⟩

/- A file of one extent, and one of neighbouring UFS blocks. -/
def extentFile : Ext2.Inode :=
  ⟨1024,Ext2.ext4ExtentsFlag,fun i => if i = 0 then 0x0a else if i = 1 then 0xf3 else if i = 2 then 1 else if i = 16 then 1 else
    if i = 20 then 9 else 0⟩
def ufsVolume : Ufs.Volume := ⟨9,12,2,3,fun _ _ => 0⟩
def ufsFile : Ufs.Inode := ⟨fun i => if i < 12 then 8*(i + 1) else 0,0,0,0⟩

theorem nextExtentsSmall :
    Ext2.NextExtentRight sparseVolume sparseFile (blockAt sparseVolume.layout sparseFile.pointers) 1 ∧
    Ext2.NextExtentRight sparseVolume extentFile (Ext2.extentBlock [⟨0,1,9⟩]) 1 ∧
    Ufs.NextExtentRight ufsVolume ufsFile 9 := by
  obtain ⟨pointers,extents,_⟩ := nextExtents 1
  obtain ⟨_,_,ufs⟩ := nextExtents 9
  refine ⟨?_,?_,?_⟩
  · refine (pointers _ _ 256 sparseMounted rfl (by decide) sparseBlocks (by decide) (by decide)).mpr ?_
    intro size found
    contradiction
  · refine (extents _ _ [⟨0,1,9⟩] sparseMounted rfl (Ext2.Tree.leaf rfl rfl) ?_ (by decide) (by decide)).mpr ?_
    · exact ⟨by simp,by simp [Ext2.ExtentRec.blocks,Ext2.initMaxLen],by simp⟩
    · exact (by decide : 1 ≤ Ext2.initMaxLen)
  · refine (ufs _ _ ⟨by decide,Or.inl rfl,by decide,by decide⟩ fun b => ?_).mpr ?_
    · have bound : blockAt ufsVolume.layout ufsFile b < 104 := by
        refine blockAtBound (by decide) (fun i => ?_) (fun start i => ?_) b
        · simp only [ufsFile]
          split <;> omega
        · have zero : ufsVolume.getCache (Ufs.fragToBlk ufsVolume start) = fun _ => 0 := by
            rw [Ufs.Volume.getCache]
            rfl
          simp only [Ufs.Volume.layout,zero]
          change Ufs.littleEndian 4 (fun _ => 0) _ < 104
          simp [Ufs.littleEndian]
      simp only [show ufsVolume.fragShift - ufsVolume.sectorShift = 0 by decide,show ufsVolume.blkToSec = 3 by decide,
        Getfssec.extentVoid]
      omega
    · refine Or.inr ⟨by decide,?_⟩
      intro m inside run
      have count : m < 11 := inside
      change (if 1 + m < 12 then 8*(1 + m + 1) else 0) = 16 + m*8
      rw [if_pos (by omega)]
      omega

/- The sectors of block 13, in the middle of the missing indirect block. -/
theorem nextExtentsNot : ¬ ∀ (v : Ext2.Volume) (inode : Ext2.Inode) (blocks lstart : Nat), v.Mounted →
    inode.extentsFlag = false → blocks < 2^32 → (∀ b, blockAt v.layout inode.pointers b < blocks) → inode.size < 2^32 →
    lstart*2^v.sectorShift < inode.size → Ext2.NextExtentRight v inode (blockAt v.layout inode.pointers) lstart := by
  intro claim
  obtain ⟨fuel,found,eq,follows⟩ := Ext2.nextExtentRightIff.1
    (claim sparseVolume sparseFile 256 26 sparseMounted rfl (by decide) sparseBlocks (by decide) (by decide))
  have size : found = (0,256) := (Option.some.inj eq).symm
  have hole := follows.blocks 255 (by rw [size]; decide)
  rw [size] at hole
  exact absurd hole (by decide)

end Syslinux.NextExtent
