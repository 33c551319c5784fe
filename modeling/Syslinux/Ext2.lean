import Syslinux.Fat

/-! The ext2, ext3 and ext4 filesystems of core/fs/ext2/ext2.c: what ext2_fs_init takes from
the super block, and the way to an inode through the group descriptors. A pointer into
the cache is a block and the place in it. -/
namespace Syslinux.Ext2
open Fat (le16 le32)

/- The fields of struct ext2_super_block that ext2_fs_init looks at. -/
structure SuperBlock where
  sBlocksCount : Nat
  sFirstDataBlock : Nat
  sLogBlockSize : Nat
  sBlocksPerGroup : Nat
  sInodesPerGroup : Nat
  sMagic : Nat
  sInodeSize : Nat
  sDescSize : Nat
  deriving DecidableEq, Repr

/- struct ext2_sb_info, with the shifts of the filesystem and the disk behind it. -/
structure Volume where
  sectorShift : Nat
  blockShift : Nat
  sInodesPerBlock : Nat
  sInodesPerGroup : Nat
  sBlocksPerGroup : Nat
  sDescPerBlock : Nat
  sGroupsCount : Nat
  sFirstDataBlock : Nat
  sInodeSize : Nat
  disk : Nat → Nat → UInt8

def ext2SuperMagic : Nat := 0xef53
/- sizeof(struct ext2_group_desc), and the place of bg_inode_table in it. -/
def sizeofGroupDesc : Nat := 32
def bgInodeTable : Nat := 8

def SuperBlock.blockSize (sb : SuperBlock) : Nat := 2^(sb.sLogBlockSize + 10)
def SuperBlock.descSize (sb : SuperBlock) : Nat := if sb.sDescSize < sizeofGroupDesc then sizeofGroupDesc else sb.sDescSize
def SuperBlock.groupsCount (sb : SuperBlock) : Nat :=
  sub32 (add32 (sub32 sb.sBlocksCount sb.sFirstDataBlock) sb.sBlocksPerGroup) 1 / sb.sBlocksPerGroup

def ext2FsInit (sectorShift : Nat) (disk : Nat → Nat → UInt8) (sb : SuperBlock) : Option Volume :=
  if sb.sMagic ≠ ext2SuperMagic then none
  else some ⟨sectorShift,sb.sLogBlockSize + 10,sb.blockSize / sb.sInodeSize,sb.sInodesPerGroup,sb.sBlocksPerGroup,
    sb.blockSize / sb.descSize,sb.groupsCount,sb.sFirstDataBlock,sb.sInodeSize,disk⟩

def Volume.blockSize (v : Volume) : Nat := 2^v.blockShift

/- The cache entry that ext2_fs_init clears and locks has no block number, so block zero
comes from the disk like the others; for blocks of at most 32 KB (cache_block_size is a uint16_t,
which is 0 from 64 KB on, and then nothing is read). -/
def Volume.getCache (v : Volume) (block : Nat) : Nat → UInt8 := v.disk block

def ext2GetGroupDesc (v : Volume) (groupNum : Nat) : Option (Nat × Nat) :=
  if v.sGroupsCount ≤ groupNum then none
  else
    let descBlock := groupNum / v.sDescPerBlock
    let descIndex := groupNum % v.sDescPerBlock
    some (add32 descBlock (add32 v.sFirstDataBlock 1),descIndex*sizeofGroupDesc)

def ext2GetInode (v : Volume) (inr : Nat) : Option (Nat × Nat) := do
  let inr := sub32 inr 1
  let inodeGroup := inr / v.sInodesPerGroup
  let inodeOffset := inr % v.sInodesPerGroup
  let (descBlock,desc) ← ext2GetGroupDesc v inodeGroup
  let blockNum := add32 (le32 (v.getCache descBlock) (desc + bgInodeTable)) (inodeOffset / v.sInodesPerBlock)
  let blockOff := inodeOffset % v.sInodesPerBlock
  some (blockNum,blockOff*v.sInodeSize)

/- A geometry as mke2fs makes them: descriptors and inodes fill whole blocks, and a group
is as large as some bytes of its bitmaps. -/
structure SuperBlock.Valid (sb : SuperBlock) : Prop where
  magic : sb.sMagic = ext2SuperMagic
  block : sb.sLogBlockSize ≤ 5
  first : sb.sFirstDataBlock ≤ 1
  inode : 0 < sb.sInodeSize ∧ sb.sInodeSize ∣ sb.blockSize
  desc : sb.descSize ∣ sb.blockSize
  groups : 0 < sb.sBlocksPerGroup ∧ 8 ∣ sb.sBlocksPerGroup
  inodes : 0 < sb.sInodesPerGroup

/- The descriptor table as one run of bytes, and the inode table of a group in it. -/
def SuperBlock.tableByte (sb : SuperBlock) (disk : Nat → Nat → UInt8) (i : Nat) : UInt8 :=
  disk (sb.sFirstDataBlock + 1 + i / sb.blockSize) (i % sb.blockSize)

def SuperBlock.inodeTable (sb : SuperBlock) (disk : Nat → Nat → UInt8) (group : Nat) : Nat :=
  le32 (sb.tableByte disk) (group*sb.descSize + bgInodeTable)

def SuperBlock.group (sb : SuperBlock) (inr : Nat) : Nat := (inr - 1) / sb.sInodesPerGroup
def SuperBlock.index (sb : SuperBlock) (inr : Nat) : Nat := (inr - 1) % sb.sInodesPerGroup
def SuperBlock.inodesPerBlock (sb : SuperBlock) : Nat := sb.blockSize / sb.sInodeSize

def SuperBlock.inodeBlock (sb : SuperBlock) (disk : Nat → Nat → UInt8) (inr : Nat) : Nat :=
  sb.inodeTable disk (sb.group inr) + sb.index inr / sb.inodesPerBlock

def SuperBlock.inodePlace (sb : SuperBlock) (inr : Nat) : Nat := sb.index inr % sb.inodesPerBlock*sb.sInodeSize

def FindsInode (sb : SuperBlock) (inr : Nat) : Prop :=
  ∀ sectorShift disk v, ext2FsInit sectorShift disk sb = some v → sb.inodeBlock disk inr < 2^32 →
    ext2GetInode v inr = some (sb.inodeBlock disk inr,sb.inodePlace inr)

/- The group is one that ext2_fs_init counts, and its descriptor is where an array of
structs has it. -/
def DescriptorFound (sb : SuperBlock) (group : Nat) : Prop :=
  group < sb.groupsCount ∧ (sb.descSize = sizeofGroupDesc ∨ sb.blockSize / sb.descSize ∣ group)

section
variable {sb : SuperBlock} (valid : sb.Valid)
include valid

theorem groupsBound : sb.groupsCount < 2^29 := by
  obtain ⟨positive,k,eq⟩ := valid.groups
  have word : sub32 (add32 (sub32 sb.sBlocksCount sb.sFirstDataBlock) sb.sBlocksPerGroup) 1 < 2^32 := by
    have : add32 (sub32 sb.sBlocksCount sb.sFirstDataBlock) sb.sBlocksPerGroup < 2^32 := Nat.mod_lt _ (by decide)
    generalize add32 (sub32 sb.sBlocksCount sb.sFirstDataBlock) sb.sBlocksPerGroup = n at this
    unfold sub32
    split <;> omega
  refine (Nat.div_lt_iff_lt_mul positive).mpr ?_
  omega

theorem descPerBlock : sb.blockSize = sb.descSize*(sb.blockSize / sb.descSize) ∧ 0 < sb.blockSize / sb.descSize := by
  have eq := (Nat.mul_div_cancel' valid.desc).symm
  refine ⟨eq,?_⟩
  have positive : 0 < sb.blockSize := Nat.two_pow_pos _
  by_contra zero
  rw [Nat.eq_zero_of_not_pos zero,Nat.mul_zero] at eq
  omega

theorem descSizeCases : sb.descSize = 32 ∨ 64 ≤ sb.descSize := by
  obtain ⟨k,_,eq⟩ := (Nat.dvd_prime_pow Nat.prime_two).mp valid.desc
  have least : 32 ≤ sb.descSize := by
    unfold SuperBlock.descSize sizeofGroupDesc
    split <;> omega
  by_cases more : 6 ≤ k
  · refine Or.inr ?_
    rw [eq]
    exact Nat.pow_le_pow_right (show 0 < 2 by decide) more
  · refine Or.inl ?_
    have : k ≤ 5 := by omega
    have := Nat.pow_le_pow_right (show 0 < 2 by decide) this
    omega

theorem tableByteEq (disk : Nat → Nat → UInt8) (group : Nat) {k : Nat} (inside : k < sb.descSize) :
    sb.tableByte disk (group*sb.descSize + k) =
      disk (sb.sFirstDataBlock + 1 + group / (sb.blockSize / sb.descSize))
        (group % (sb.blockSize / sb.descSize)*sb.descSize + k) := by
  obtain ⟨eq,positive⟩ := descPerBlock valid
  generalize sb.blockSize / sb.descSize = n at eq positive
  have place : group*sb.descSize + k = sb.blockSize*(group / n) + (group % n*sb.descSize + k) := by
    conv_lhs => rw [← Nat.div_add_mod group n]
    rw [eq]
    ring
  have small : group % n*sb.descSize + k < sb.blockSize := by
    have := Nat.mul_le_mul_right sb.descSize (Nat.succ_le_of_lt (Nat.mod_lt group positive))
    rw [Nat.succ_mul,Nat.mul_comm n,← eq] at this
    omega
  rw [SuperBlock.tableByte,place,Nat.mul_add_div (by omega),Nat.mul_add_mod,Nat.div_eq_of_lt small,
    Nat.mod_eq_of_lt small]
  rfl

theorem inodeTableEq (disk : Nat → Nat → UInt8) (group : Nat) : sb.inodeTable disk group =
    le32 (disk (sb.sFirstDataBlock + 1 + group / (sb.blockSize / sb.descSize)))
      (group % (sb.blockSize / sb.descSize)*sb.descSize + bgInodeTable) := by
  have large : 32 ≤ sb.descSize := by
    rcases descSizeCases valid with eq | le <;> omega
  unfold SuperBlock.inodeTable bgInodeTable le32 le16
  simp only [Nat.add_assoc]
  rw [tableByteEq valid disk group (by omega),tableByteEq valid disk group (by omega),
    tableByteEq valid disk group (by omega),tableByteEq valid disk group (by omega)]
  simp only [Nat.add_assoc]

theorem getInodeEq {sectorShift : Nat} {disk : Nat → Nat → UInt8} {v : Volume} (ok : ext2FsInit sectorShift disk sb = some v)
    {inr : Nat} (positive : 0 < inr) (counted : sb.group inr < sb.groupsCount) :
    ext2GetInode v inr = some (add32 (le32 (disk (sb.sFirstDataBlock + 1 + sb.group inr / (sb.blockSize / sb.descSize)))
      (sb.group inr % (sb.blockSize / sb.descSize)*32 + bgInodeTable)) (sb.index inr / sb.inodesPerBlock),sb.inodePlace inr) := by
  have bound := groupsBound valid
  have first := valid.first
  have quotient := Nat.div_le_self (sb.group inr) (sb.blockSize / sb.descSize)
  rw [ext2FsInit,if_neg (by simp [valid.magic])] at ok
  cases Option.some.inj ok
  have desc : ∀ n, n < 2^29 → add32 n (add32 sb.sFirstDataBlock 1) = sb.sFirstDataBlock + 1 + n := by
    intro n small
    unfold add32
    omega
  have cached : ∀ n, Volume.getCache ⟨sectorShift,sb.sLogBlockSize + 10,sb.blockSize / sb.sInodeSize,sb.sInodesPerGroup,
      sb.sBlocksPerGroup,sb.blockSize / sb.descSize,sb.groupsCount,sb.sFirstDataBlock,sb.sInodeSize,disk⟩
      (sb.sFirstDataBlock + 1 + n) = disk (sb.sFirstDataBlock + 1 + n) := by
    intro n
    rfl
  unfold SuperBlock.group at counted quotient
  rw [ext2GetInode]
  simp only [sub32Eq (show 1 ≤ inr from positive),ext2GetGroupDesc,if_neg (Nat.not_le_of_lt counted),Option.bind_eq_bind,Option.bind_some]
  rw [desc _ (by omega),cached]
  rfl

/- A disk with one byte set: the lowest one of bg_inode_table in a descriptor. -/
def oneTable (block place : Nat) (b i : Nat) : UInt8 := if b = block ∧ i = place then 1 else 0

omit valid in
theorem oneTableHere (block place : Nat) : le32 (oneTable block place block) place = 1 := by
  simp [le32,le16,oneTable,Nat.add_assoc]

omit valid in
theorem oneTableBefore {block place i : Nat} (before : i + 3 < place) : le32 (oneTable block place block) i = 0 := by
  have zero : ∀ k, k ≤ 3 → oneTable block place block (i + k) = 0 := by
    intro k small
    rw [oneTable,if_neg (by omega)]
  have first := zero 0 (by omega)
  rw [Nat.add_zero] at first
  rw [le32,le16,le16,first,zero 1 (by omega),zero 2 (by omega),Nat.add_assoc i 2 1,zero 3 (by omega)]
  rfl

/- For every geometry and every inode number. -/
theorem inodeFound {inr : Nat} (positive : 0 < inr) (word : inr < 2^32) :
    FindsInode sb inr ↔ DescriptorFound sb (sb.group inr) := by
  obtain ⟨whole,some'⟩ := descPerBlock valid
  have index : sb.index inr / sb.inodesPerBlock ≤ inr - 1 :=
    Nat.le_trans (Nat.div_le_self _ _) (Nat.mod_le _ _)
  have mounted : ∀ disk, ext2FsInit 9 disk sb = some ⟨9,sb.sLogBlockSize + 10,sb.blockSize / sb.sInodeSize,
      sb.sInodesPerGroup,sb.sBlocksPerGroup,sb.blockSize / sb.descSize,sb.groupsCount,sb.sFirstDataBlock,sb.sInodeSize,disk⟩ := by
    intro disk
    rw [ext2FsInit,if_neg (by simp [valid.magic])]
  constructor
  · intro claim
    generalize at' : sb.sFirstDataBlock + 1 + sb.group inr / (sb.blockSize / sb.descSize) = block
    generalize within : sb.group inr % (sb.blockSize / sb.descSize)*sb.descSize + bgInodeTable = place
    have table : sb.inodeTable (oneTable block place) (sb.group inr) = 1 := by
      rw [inodeTableEq valid,at',within,oneTableHere]
    have found := claim 9 (oneTable block place) _ (mounted _) (by rw [SuperBlock.inodeBlock,table]; omega)
    have counted : sb.group inr < sb.groupsCount := by
      by_contra beyond
      unfold SuperBlock.group at beyond
      rw [ext2GetInode] at found
      simp [sub32Eq (show 1 ≤ inr from positive),ext2GetGroupDesc,Nat.le_of_not_lt beyond] at found
    refine ⟨counted,?_⟩
    by_contra neither
    obtain ⟨large,inside⟩ := not_or.mp neither
    have large : 64 ≤ sb.descSize := (descSizeCases valid).resolve_left large
    have some'' : 0 < sb.group inr % (sb.blockSize / sb.descSize) := by
      by_contra zero
      exact inside (Nat.dvd_of_mod_eq_zero (by omega))
    have before : sb.group inr % (sb.blockSize / sb.descSize)*32 + bgInodeTable + 3 < place := by
      have := Nat.mul_le_mul_left (sb.group inr % (sb.blockSize / sb.descSize)) large
      omega
    rw [getInodeEq valid (mounted _) positive counted,at',oneTableBefore before,SuperBlock.inodeBlock,table,
      add32Eq (by omega)] at found
    have := congrArg Prod.fst (Option.some.inj found)
    simp only at this
    omega
  · rintro ⟨counted,placed⟩ sectorShift disk v ok small
    rw [getInodeEq valid ok positive counted]
    have same : sb.group inr % (sb.blockSize / sb.descSize)*32 = sb.group inr % (sb.blockSize / sb.descSize)*sb.descSize := by
      rcases placed with eq | divides
      · rw [eq]
        rfl
      · rw [Nat.mod_eq_zero_of_dvd divides,Nat.zero_mul,Nat.zero_mul]
    rw [SuperBlock.inodeBlock,inodeTableEq valid] at small ⊢
    rw [same,add32Eq small]

end

/- Two groups of 4 KB blocks, with descriptors of 32 bytes and of 64 bytes. -/
def geometry (descSize : Nat) : SuperBlock := ⟨65536,0,2,32768,8192,ext2SuperMagic,256,descSize⟩

theorem geometryValid {descSize : Nat} (desc : (geometry descSize).descSize ∣ (geometry descSize).blockSize) :
    (geometry descSize).Valid := by
  refine ⟨rfl,?_,?_,⟨?_,?_⟩,desc,⟨?_,?_⟩,?_⟩ <;> norm_num [geometry,SuperBlock.blockSize]

theorem inodeFoundSmallDesc : FindsInode (geometry 0) 8193 :=
  (inodeFound (geometryValid (by decide)) (by decide) (by decide)).mpr ⟨by decide,Or.inl rfl⟩

/- The first inode of the second group, with descriptors of 64 bytes. -/
theorem inodeMissed : ¬ ∀ sb inr, SuperBlock.Valid sb → 0 < inr → inr ≤ sb.groupsCount*sb.sInodesPerGroup →
    FindsInode sb inr := by
  intro claim
  have found := claim (geometry 64) 8193 (geometryValid (by decide)) (by decide) (by decide) 9 (oneTable 1 72) _ rfl
    (by decide)
  contradiction

end Syslinux.Ext2
