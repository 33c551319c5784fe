import Syslinux.Getfssec

/-! The FAT filesystem of core/fs/fat/fat.c: what vfat_fs_init takes from the boot sector,
the reading of the FAT, and fat_next_extent. Cluster numbers are 32 bits wide, sector
numbers 64. A FAT sector is read as it lies on the disk; the cache in between is modelled
apart. -/
namespace Syslinux.Fat
open Getfssec (Extent)

inductive FatType where
  | fat12 | fat16 | fat32
  deriving DecidableEq, Repr

/- The fields of struct fat_bpb that vfat_fs_init looks at. -/
structure Bpb where
  bxSecPerClust : Nat
  bxResSectors : Nat
  bxFATs : Nat
  bxRootDirEnts : Nat
  bxSectors : Nat
  bxFATsecs : Nat
  bsHugeSectors : Nat
  bxFATsecs32 : Nat
  extendedFlags : Nat
  rootCluster : Nat
  deriving DecidableEq, Repr

/- struct fat_sb_info, with the shift of the sector size and the disk behind it. -/
structure Volume where
  sectorShift : Nat
  fat : Nat
  root : Nat
  data : Nat
  clusters : Nat
  rootSize : Nat
  clustShift : Nat
  fatType : FatType
  disk : Nat → Nat → UInt8

def sub64 (a b : Nat) : Nat := (a + (2^64 - b)) % 2^64

def Bpb.sectorsPerFat (bpb : Bpb) : Nat := if bpb.bxFATsecs ≠ 0 then bpb.bxFATsecs else bpb.bxFATsecs32
def Bpb.totalSectors (bpb : Bpb) : Nat := if bpb.bxSectors ≠ 0 then bpb.bxSectors else bpb.bsHugeSectors

def rootDirSize (sectorShift : Nat) (bpb : Bpb) : Nat :=
  (bpb.bxRootDirEnts + 2^sectorShift / 32 - 1) / 2^(sectorShift - 5)

def vfatFsInit (sectorShift : Nat) (disk : Nat → Nat → UInt8) (bpb : Bpb) : Option Volume :=
  if bpb.bxResSectors = 0 ∨ bpb.bxFATs = 0 then none
  else
    let fat := bpb.bxResSectors
    let root := fat + bpb.sectorsPerFat*bpb.bxFATs
    let rootSize := rootDirSize sectorShift bpb
    let data := root + rootSize
    let clustShift := Nat.log2 bpb.bxSecPerClust
    let clusters := sub64 bpb.totalSectors data / 2^clustShift % 2^32
    if clusters ≤ 0xff4 then some ⟨sectorShift,fat,root,data,clusters,rootSize,clustShift,.fat12,disk⟩
    else if clusters ≤ 0xfff4 then some ⟨sectorShift,fat,root,data,clusters,rootSize,clustShift,.fat16,disk⟩
    else
      -- Non-mirrored FATs: the active one; and the root directory is a cluster chain.
      let fat := if bpb.extendedFlags / 0x80 % 2 = 1 then fat + bpb.extendedFlags % 0x10*bpb.sectorsPerFat else fat
      let root := data + sub32 bpb.rootCluster 2*2^clustShift % 2^32
      some ⟨sectorShift,fat,root,data,min clusters 0x0ffffff4,rootSize,clustShift,.fat32,disk⟩

def Volume.sectorSize (v : Volume) : Nat := 2^v.sectorShift
def Volume.clusterSecs (v : Volume) : Nat := 2^v.clustShift
def Volume.clusterBytes (v : Volume) : Nat := 2^(v.clustShift + v.sectorShift)

def Volume.getFatSector (v : Volume) (sector : Nat) : Nat → UInt8 := v.disk (v.fat + sector)

def le16 (data : Nat → UInt8) (i : Nat) : Nat := (data i).toNat + 256*(data (i + 1)).toNat
def le32 (data : Nat → UInt8) (i : Nat) : Nat := le16 data i + 65536*le16 data (i + 2)
def le64 (data : Nat → UInt8) (i : Nat) : Nat := le32 data i + 2^32*le32 data (i + 4)

def getNextCluster (v : Volume) (clustNum : Nat) : Nat :=
  match v.fatType with
  | .fat12 =>
      let offset := add32 clustNum (clustNum / 2)
      let fatSector := offset / v.sectorSize
      let offset := offset % v.sectorSize
      let data := v.getFatSector fatSector
      let next :=
        -- The two bytes of the entry lie in two sectors.
        if offset = v.sectorSize - 1 then (data offset).toNat + 256*(v.getFatSector (fatSector + 1) 0).toNat
        else le16 data offset
      if clustNum % 2 = 1 then next / 16 else next % 4096
  | .fat16 =>
      let offset := clustNum*2 % 2^32
      le16 (v.getFatSector (offset / v.sectorSize)) (offset % v.sectorSize)
  | .fat32 =>
      let offset := clustNum*4 % 2^32
      le32 (v.getFatSector (offset / v.sectorSize)) (offset % v.sectorSize) % 2^28

/- The size and next_extent of an inode, and its struct fat_pvt_inode. -/
structure FatInode where
  size : Nat
  startCluster : Nat
  offset : Nat
  here : Nat
  nextExtent : Extent
  deriving DecidableEq, Repr

/- The loop to the cluster wanted, `left` clusters ahead; an error is a cluster number
outside the volume. -/
def seekCluster (v : Volume) : Nat → Nat → Nat → Except Nat (Nat × Nat)
  | left,lcluster,pcluster =>
      if v.clusters ≤ sub32 pcluster 2 then .error lcluster
      else match left with
      | 0 => .ok (lcluster,pcluster)
      | left+1 => seekCluster v left (lcluster + 1) (getNextCluster v pcluster)

/- The lookahead, with `left` clusters of the file after this one: lcluster, xcluster and
the length of the extent. -/
def contiguous (v : Volume) : Nat → Nat → Nat → Nat → Nat → Nat × Nat × Nat
  | 0,lcluster,_,xcluster,len => (lcluster + 1,xcluster,len)
  | left+1,lcluster,pcluster,_,len =>
      let xcluster := getNextCluster v pcluster
      if xcluster ≠ add32 pcluster 1 then (lcluster + 1,xcluster,len)
      else contiguous v left (lcluster + 1) (add32 pcluster 1) xcluster (add32 len v.clusterSecs)

def Volume.tcluster (v : Volume) (size : Nat) : Nat := (size + (v.clusterBytes - 1)) % 2^64 / v.clusterBytes % 2^32

def fatNextExtent (v : Volume) (inode : FatInode) (lstart : Nat) : Int × FatInode :=
  let mcluster := lstart / v.clusterSecs
  let tcluster := v.tcluster inode.size
  if tcluster ≤ mcluster then (-1,inode)
  else
    let lcluster := inode.offset / v.clusterSecs % 2^32
    let pcluster := (sub64 inode.here v.data / v.clusterSecs + 2) % 2^32
    let (lcluster,pcluster) :=
      if mcluster < lcluster ∨ inode.here < v.data then (0,inode.startCluster) else (lcluster,pcluster)
    match seekCluster v (mcluster - lcluster) lcluster pcluster with
    | .error lcluster => (-1,{ inode with size := lcluster*v.clusterSecs % 2^32 })
    | .ok (lcluster,pcluster) =>
        let pstart := (sub32 pcluster 2*v.clusterSecs + v.data) % 2^64
        let (lcluster,xcluster,len) := contiguous v (tcluster - (lcluster + 1)) lcluster pcluster 0 v.clusterSecs
        (0,{ inode with
          nextExtent := { inode.nextExtent with pstart := pstart, len := len }
          offset := lcluster*v.clusterSecs % 2^32
          here := (sub32 xcluster 2*v.clusterSecs % 2^32 + v.data) % 2^64 })

/- The inode that vfat_find_entry makes of a directory entry with a first cluster. -/
def openFile (v : Volume) (fileSize firstCluster : Nat) : FatInode :=
  ⟨fileSize,firstCluster,0,(sub64 firstCluster 2*v.clusterSecs + v.data) % 2^64,⟨0,0,0⟩⟩

/- Calls one after the other on one inode. -/
def nextExtents (v : Volume) : FatInode → List Nat → List (Int × FatInode)
  | _,[] => []
  | inode,lstart::rest => fatNextExtent v inode lstart::nextExtents v (fatNextExtent v inode lstart).2 rest

/- The FAT as one run of bytes, and the entry of a cluster in it. -/
def Volume.fatByte (v : Volume) (i : Nat) : UInt8 := v.disk (v.fat + i / v.sectorSize) (i % v.sectorSize)

def Volume.fatEntry (v : Volume) (n : Nat) : Nat :=
  match v.fatType with
  | .fat12 => if n % 2 = 1 then le16 v.fatByte (n + n / 2) / 16 else le16 v.fatByte (n + n / 2) % 4096
  | .fat16 => le16 v.fatByte (2*n)
  | .fat32 => le32 v.fatByte (4*n) % 2^28

/- The clusters of a file, from its first one on; and the sector where a cluster starts. -/
def Volume.chain (v : Volume) (first : Nat) : Nat → Nat
  | 0 => first
  | i+1 => v.fatEntry (v.chain first i)

def Volume.sectorOf (v : Volume) (cluster : Nat) : Nat := (cluster - 2)*v.clusterSecs + v.data

def Volume.Valid (v : Volume) (cluster : Nat) : Prop := 2 ≤ cluster ∧ cluster < v.clusters + 2

/- A FAT volume on disks of that sector size: the fields are as wide as they are, and the
FATs and the root directory lie in front of the data. -/
structure Bpb.WellFormed (sectorShift : Nat) (bpb : Bpb) : Prop where
  sector : 9 ≤ sectorShift ∧ sectorShift ≤ 24
  secPerClust : 0 < bpb.bxSecPerClust ∧ bpb.bxSecPerClust < 2^8
  sectors : bpb.bxSectors < 2^16 ∧ bpb.bsHugeSectors < 2^32
  fats : bpb.sectorsPerFat*bpb.bxFATs < 2^31
  inside : bpb.bxResSectors + bpb.sectorsPerFat*bpb.bxFATs + rootDirSize sectorShift bpb ≤ bpb.totalSectors

structure Volume.Mounted (v : Volume) : Prop where
  sector : 9 ≤ v.sectorShift
  cluster : v.clustShift + v.sectorShift < 32
  count : v.clusters ≤ 0x0ffffff4
  room : v.clusters*v.clusterSecs + v.data < 2^32

theorem vfatFsInitMounted {sectorShift : Nat} {disk : Nat → Nat → UInt8} {bpb : Bpb} {v : Volume}
    (wf : bpb.WellFormed sectorShift) (ok : vfatFsInit sectorShift disk bpb = some v) :
    v.Mounted ∧ v.sectorShift = sectorShift ∧ v.disk = disk := by
  obtain ⟨low,high⟩ := wf.sector
  obtain ⟨some',byte⟩ := wf.secPerClust
  obtain ⟨short,long⟩ := wf.sectors
  have inside := wf.inside
  have shift : Nat.log2 bpb.bxSecPerClust < 8 := (Nat.log2_lt (by omega)).mpr byte
  have total : bpb.totalSectors < 2^32 := by
    unfold Bpb.totalSectors
    split <;> omega
  have rest : sub64 bpb.totalSectors (bpb.bxResSectors + bpb.sectorsPerFat*bpb.bxFATs + rootDirSize sectorShift bpb) =
      bpb.totalSectors - (bpb.bxResSectors + bpb.sectorsPerFat*bpb.bxFATs + rootDirSize sectorShift bpb) := by
    unfold sub64
    omega
  have fits := Nat.div_mul_le_self
    (bpb.totalSectors - (bpb.bxResSectors + bpb.sectorsPerFat*bpb.bxFATs + rootDirSize sectorShift bpb))
    (2^Nat.log2 bpb.bxSecPerClust)
  have small : (bpb.totalSectors - (bpb.bxResSectors + bpb.sectorsPerFat*bpb.bxFATs + rootDirSize sectorShift bpb)) /
      2^Nat.log2 bpb.bxSecPerClust < 2^32 := Nat.lt_of_le_of_lt (Nat.div_le_self _ _) (by omega)
  unfold vfatFsInit at ok
  split at ok
  · contradiction
  simp only [rest,Nat.mod_eq_of_lt small] at ok
  split at ok
  · cases Option.some.inj ok
    exact ⟨⟨low,by simp only; omega,by simp only; omega,by simp only [Volume.clusterSecs]; omega⟩,rfl,rfl⟩
  split at ok
  · cases Option.some.inj ok
    exact ⟨⟨low,by simp only; omega,by simp only; omega,by simp only [Volume.clusterSecs]; omega⟩,rfl,rfl⟩
  · cases Option.some.inj ok
    refine ⟨⟨low,by simp only; omega,by simp only; omega,?_⟩,rfl,rfl⟩
    have fewer := Nat.mul_le_mul_right (2^Nat.log2 bpb.bxSecPerClust) (Nat.min_le_left
      ((bpb.totalSectors - (bpb.bxResSectors + bpb.sectorsPerFat*bpb.bxFATs + rootDirSize sectorShift bpb)) /
        2^Nat.log2 bpb.bxSecPerClust) 0x0ffffff4)
    simp only [Volume.clusterSecs]
    omega

section
variable {v : Volume} {i : Nat}

theorem fatByteIn (k : Nat) (inside : i % v.sectorSize + k < v.sectorSize) :
    v.getFatSector (i / v.sectorSize) (i % v.sectorSize + k) = v.fatByte (i + k) := by
  have eq : i + k = v.sectorSize*(i / v.sectorSize) + (i % v.sectorSize + k) := by
    have := Nat.div_add_mod i v.sectorSize
    omega
  have div : (i + k) / v.sectorSize = i / v.sectorSize := by
    rw [eq,Nat.mul_add_div (by omega),Nat.div_eq_of_lt inside,Nat.add_zero]
  have mod : (i + k) % v.sectorSize = i % v.sectorSize + k := by
    rw [eq,Nat.mul_add_mod,Nat.mod_eq_of_lt inside]
  rw [Volume.fatByte,div,mod]
  rfl

theorem le16In (inside : i % v.sectorSize + 1 < v.sectorSize) :
    le16 (v.getFatSector (i / v.sectorSize)) (i % v.sectorSize) = le16 v.fatByte i := by
  have first := fatByteIn (v := v) (i := i) 0 (by omega)
  rw [le16,le16,fatByteIn 1 inside]
  rw [Nat.add_zero,Nat.add_zero] at first
  rw [first]

theorem le32In (inside : i % v.sectorSize + 3 < v.sectorSize) :
    le32 (v.getFatSector (i / v.sectorSize)) (i % v.sectorSize) = le32 v.fatByte i := by
  have third := fatByteIn (v := v) (i := i) 2 (by omega)
  have fourth := fatByteIn (v := v) (i := i) (2 + 1) (by omega)
  have high : le16 (v.getFatSector (i / v.sectorSize)) (i % v.sectorSize + 2) = le16 v.fatByte (i + 2) := by
    rw [le16,third,Nat.add_assoc,fourth]
    rfl
  rw [le32,le16In (by omega),high]
  rfl

theorem fatByteAcross (atEnd : i % v.sectorSize + 1 = v.sectorSize) :
    v.getFatSector (i / v.sectorSize + 1) 0 = v.fatByte (i + 1) := by
  have eq : i + 1 = v.sectorSize*(i / v.sectorSize + 1) := by
    have := Nat.div_add_mod i v.sectorSize
    rw [Nat.mul_add]
    omega
  have positive : 0 < v.sectorSize := by omega
  rw [Volume.fatByte,eq,Nat.mul_div_cancel_left _ positive,Nat.mul_mod_right]
  rfl

end

/- Where the entry of a cluster ends in the FAT. -/
def Volume.entryEnd (v : Volume) (n : Nat) : Nat :=
  match v.fatType with
  | .fat12 => n + n / 2 + 2
  | .fat16 => 2*n + 2
  | .fat32 => 4*n + 4

theorem powerFactor {a b : Nat} (le : a ≤ b) : ∃ k, 2^b = 2^a*2^k :=
  ⟨b - a,by rw [← Nat.pow_add,Nat.add_sub_cancel' le]⟩

/- The reading of the FAT, sector by sector, gives the entries of the FAT, as far as the
32-bit offset reaches. -/
theorem getNextClusterAt {v : Volume} {n : Nat} (sector : 2 ≤ v.sectorShift) (inside : v.entryEnd n ≤ 2^32) :
    getNextCluster v n = v.fatEntry n := by
  obtain ⟨k,pow⟩ := powerFactor sector
  have size : v.sectorSize = 2^2*2^k := pow
  have positive := Nat.two_pow_pos k
  have four : 4 ∣ v.sectorSize := ⟨2^k,size⟩
  unfold Volume.entryEnd at inside
  unfold getNextCluster Volume.fatEntry
  cases type : v.fatType with
  | fat12 =>
    simp only [type] at inside
    have place : add32 n (n / 2) = n + n / 2 := add32Eq (by omega)
    have bound := Nat.mod_lt (n + n / 2) (show 0 < v.sectorSize by omega)
    simp only [place]
    by_cases atEnd : (n + n / 2) % v.sectorSize = v.sectorSize - 1
    · have first : v.getFatSector ((n + n / 2) / v.sectorSize) ((n + n / 2) % v.sectorSize) = v.fatByte (n + n / 2) := rfl
      rw [if_pos atEnd,first,fatByteAcross (by omega),← le16]
    · rw [if_neg atEnd,le16In (by omega)]
  | fat16 =>
    simp only [type] at inside
    have place : n*2 % 2^32 = 2*n := by omega
    have even : 2 ∣ 2*n % v.sectorSize :=
      (Nat.dvd_mod_iff (Nat.dvd_trans (by decide) four)).mpr (Nat.dvd_mul_right 2 n)
    have even' : 2 ∣ v.sectorSize := Nat.dvd_trans (by decide) four
    have bound := Nat.mod_lt (2*n) (show 0 < v.sectorSize by omega)
    simp only [place]
    rw [le16In (by omega)]
  | fat32 =>
    simp only [type] at inside
    have place : n*4 % 2^32 = 4*n := by omega
    have quarter : 4 ∣ 4*n % v.sectorSize := (Nat.dvd_mod_iff four).mpr (Nat.dvd_mul_right 4 n)
    have bound := Nat.mod_lt (4*n) (show 0 < v.sectorSize by omega)
    simp only [place]
    rw [le32In (by omega)]

section
variable {v : Volume} (mounted : v.Mounted)
include mounted

theorem sectorSizeLarge : 512 ≤ v.sectorSize :=
  Nat.pow_le_pow_right (show 0 < 2 by decide) mounted.sector

theorem getNextClusterEq {n : Nat} (small : n < 2^30) : getNextCluster v n = v.fatEntry n := by
  have sector := mounted.sector
  refine getNextClusterAt (by omega) ?_
  unfold Volume.entryEnd
  cases v.fatType <;> simp only <;> omega

end

theorem vfatFsInitClusters {sectorShift : Nat} {disk : Nat → Nat → UInt8} {bpb : Bpb} {v : Volume}
    (ok : vfatFsInit sectorShift disk bpb = some v) : v.sectorShift = sectorShift ∧ v.clusters ≤ 0x0ffffff4 := by
  unfold vfatFsInit at ok
  split at ok
  · contradiction
  simp only at ok
  split at ok
  · cases Option.some.inj ok
    exact ⟨rfl,by simp only; omega⟩
  split at ok
  · cases Option.some.inj ok
    exact ⟨rfl,by simp only; omega⟩
  · cases Option.some.inj ok
    exact ⟨rfl,Nat.min_le_right _ _⟩

/- On any volume, for every cluster of it, and for every other entry of the FAT in its
first 4 GB. A sector holds a directory entry at least. -/
theorem fatReadsTable {sectorShift : Nat} {disk : Nat → Nat → UInt8} {bpb : Bpb} {v : Volume} {n : Nat}
    (sector : 5 ≤ sectorShift) (ok : vfatFsInit sectorShift disk bpb = some v)
    (inside : n < v.clusters + 2 ∨ v.entryEnd n ≤ 2^32) : getNextCluster v n = v.fatEntry n := by
  obtain ⟨shift,clusters⟩ := vfatFsInitClusters ok
  refine getNextClusterAt (by omega) ?_
  rcases inside with number | reached
  · unfold Volume.entryEnd
    cases v.fatType <;> simp only <;> omega
  · exact reached

/- A floppy disk. The entry of cluster 341 lies in two sectors. -/
def floppy : Bpb := ⟨1,1,2,224,2880,9,0,0,0,0⟩
def stripedDisk (sector i : Nat) : UInt8 := UInt8.ofNat (sector + 3*i)

theorem fatReadsTableFloppy : ∃ v, vfatFsInit 9 stripedDisk floppy = some v ∧ v.fatType = .fat12 ∧
    getNextCluster v 341 = v.fatEntry 341 := by
  have mounted : vfatFsInit 9 stripedDisk floppy = some _ := rfl
  exact ⟨_,mounted,rfl,fatReadsTable (show 5 ≤ 9 by decide) mounted (Or.inl (by decide))⟩

end Syslinux.Fat
