import Syslinux.BtrfsNames
import Syslinux.GetfssecAsked

/-! Where the sectors of a btrfs file lie: btrfs_next_extent of core/fs/btrfs/btrfs.c, and
btrfs_getfssec over generic_getfssec. -/
namespace Syslinux.Btrfs
open Fat (le64)
open Getfssec (Extent Fs File Result Ask extentZero extentVoid)

def sizeofFileExtentItem : Nat := 53
def fileExtentReg : Nat := 1
def fileExtentPrealloc : Nat := 2

/- The fields of struct btrfs_file_extent_item that are read. -/
structure FileExtentItem where
  compression : Nat
  encryption : Nat
  type : Nat
  diskBytenr : Nat
  offset : Nat
  numBytes : Nat
  deriving DecidableEq, Repr

def fileExtentItem (data : Nat → UInt8) : FileExtentItem :=
  ⟨(data 16).toNat,(data 17).toNat,(data 20).toNat,le64 data extentDiskBytenr,le64 data 37,le64 data 45⟩

section
variable (block : Nat → TreeBuf) (itemOffset : Nat → Nat → Nat) (fsTree : Nat) (map : ChunkMap) (sectorShift : Nat)

/- sectors of so many bytes, as a uint32_t -/
def sectorsFor (bytes : Nat) : Nat := (bytes + 2^sectorShift - 1) % 2^64 / 2^sectorShift % 2^32

/- The value, inode->next_extent and the inode. -/
def btrfsNextExtent (inode : Inode) (prev : Extent) (lstart : Nat) : Option (Int × Extent × Inode) :=
  match searchTree block (extentDataKey inode.ino (lstart*2^sectorShift % 2^32)) btrfsMaxLevel fsTree clearPath with
  | none => none
  | some (ret,path) =>
      let item := fileExtentItem path.data
      if ret ≠ 0 then some (-1,prev,inode)
      else if item.encryption ≠ 0 then some (-1,prev,inode)
      else if item.compression ≠ 0 then some (-1,prev,inode)
      else
        let (offset,len) :=
          if item.type = fileExtentInline then (inlineAt itemOffset path,sectorsFor sectorShift inode.size)
          else ((item.diskBytenr + item.offset) % 2^64,sectorsFor sectorShift item.numBytes)
        some (0,⟨logicalPhysical map offset / 2^sectorShift,prev.lstart,len⟩,{ inode with offset := offset })

/- The filesystem for generic_getfssec; a search outside the arrays counts as an error. -/
def btrfsFs (disk : Nat → Nat → UInt8) : Fs Inode where
  sectorShift := sectorShift
  nextExtent := fun inode prev lstart =>
    (btrfsNextExtent block itemOffset fsTree map sectorShift inode prev lstart).getD (-1,prev,inode)
  disk := disk

end

/- btrfs_getfssec. The bytes of an inline file do not begin in a sector: the size is taken
from there, and the first bytes of the buffer are dropped. -/
def btrfsGetfssec (fs : Fs Inode) (file : File Inode) (sectors : Nat) : Option (Result Inode) :=
  let off := file.inode.pvt.offset % fs.sectorSize
  let handleInline := off ≠ 0 ∧ file.offset = 0
  let size := (file.inode.size + off) % 2^64
  let file := if handleInline then
      { file with inode := { file.inode with size := size, pvt := { file.inode.pvt with size := size } } }
    else file
  (Getfssec.genericGetfssec fs file sectors).map fun r =>
    if r.bytesRead ≠ 0 ∧ handleInline then
      let off := r.file.inode.pvt.offset % fs.sectorSize
      { r with buf := r.buf.drop off, bytesRead := sub32 r.bytesRead off }
    else r

theorem getfssecPlain (fs : Fs Inode) {file : File Inode} (aligned : file.inode.pvt.offset % fs.sectorSize = 0)
    (sectors : Nat) :
    btrfsGetfssec fs file sectors = Getfssec.genericGetfssec fs file sectors := by
  have plain : ¬ (file.inode.pvt.offset % fs.sectorSize ≠ 0 ∧ file.offset = 0) := fun h => h.1 aligned
  unfold btrfsGetfssec
  simp only [if_neg plain]
  cases Getfssec.genericGetfssec fs file sectors with
  | none => rfl
  | some r => exact congrArg some (if_neg fun h => plain h.2)

def Item.IsExtent (ino : Nat) (item : Item) : Prop := item.key.objectid = ino ∧ item.key.type = 108
instance (ino : Nat) (item : Item) : Decidable (item.IsExtent ino) := by unfold Item.IsExtent; infer_instance

def Item.extent (item : Item) : FileExtentItem := fileExtentItem (cString item.data)

def Item.Spans (item : Item) (byte : Nat) : Prop := item.key.offset ≤ byte ∧ byte < item.key.offset + item.extent.numBytes

def Item.IsHole (item : Item) : Prop := item.extent.diskBytenr = 0

/- A file without inline, compressed or encrypted extents. Extents begin in sectors and do
not overlap, and those that are not holes lie in a chunk. -/
structure ExtentFile (items : List Item) (chunks : List ChunkMapItem) (map : ChunkMap) (sectorShift ino : Nat) : Prop where
  sectors : 0 < sectorShift ∧ sectorShift < 32
  served : MapServes chunks map
  ranges : ∀ c ∈ chunks, c.logical + c.length ≤ 2^64 ∧ c.physical + c.length ≤ 2^64 ∧
    2^sectorShift ∣ c.logical ∧ 2^sectorShift ∣ c.physical
  sizes : ∀ item ∈ items, item.IsExtent ino → sizeofFileExtentItem ≤ item.data.length
  plain : ∀ item ∈ items, item.IsExtent ino → item.extent.compression = 0 ∧ item.extent.encryption = 0 ∧
    (item.extent.type = fileExtentReg ∨ item.extent.type = fileExtentPrealloc)
  places : ∀ item ∈ items, item.IsExtent ino → 0 < item.extent.numBytes ∧ item.key.offset + item.extent.numBytes ≤ 2^63 ∧
    2^sectorShift ∣ item.key.offset
  apart : ∀ item ∈ items, ∀ other ∈ items, item.IsExtent ino → other.IsExtent ino → ∀ byte, item.Spans byte →
    other.Spans byte → item = other
  aligned : ∀ item ∈ items, item.IsExtent ino → 2^sectorShift ∣ item.extent.diskBytenr ∧ 2^sectorShift ∣ item.extent.offset
  stored : ∀ item ∈ items, item.IsExtent ino → ¬ item.IsHole →
    ∃ c ∈ chunks, c.logical ≤ item.extent.diskBytenr + item.extent.offset ∧
    item.extent.diskBytenr + item.extent.offset + item.extent.numBytes ≤ c.logical + c.length

section
variable (items : List Item) (chunks : List ChunkMapItem) (sectorShift ino : Nat)

/- The disk sector that holds a sector of the file, or EXTENT_ZERO where the file has a
hole, with an extent item for it or without. -/
def Sits (sector psector : Nat) : Prop :=
  (∃ item ∈ items, item.IsExtent ino ∧ item.Spans (sector*2^sectorShift) ∧ ¬ item.IsHole ∧ ∃ c ∈ chunks,
    let logical := item.extent.diskBytenr + item.extent.offset + (sector*2^sectorShift - item.key.offset)
    c.Covers logical ∧ psector*2^sectorShift = c.physical + (logical - c.logical)) ∨
  (∀ item ∈ items, item.IsExtent ino → item.Spans (sector*2^sectorShift) → item.IsHole) ∧ psector = extentZero

/- An answer that maps the sector asked for, and all of the file that it goes on to. -/
def Right (size : Nat) (ask : Ask) : Prop := ask.rv = 0 ∧ 0 < ask.extent.len ∧ ∀ k < ask.extent.len,
  (ask.lstart + k)*2^sectorShift < size →
    Sits items chunks sectorShift ino (ask.lstart + k) (Getfssec.nextPsector ask.extent.pstart k)

/- An extent begins with the sector, and is no hole. (Its length in sectors is a uint32_t.) -/
def Begins (lstart : Nat) : Prop := ∃ item ∈ items, item.key = extentDataKey ino (lstart*2^sectorShift) ∧ ¬ item.IsHole ∧
  sectorsFor sectorShift item.extent.numBytes ≠ 0

end

section
variable {block : Nat → TreeBuf} {height : Nat} {tree : Tree height} {root : Nat} {chunks : List ChunkMapItem}
  {map : ChunkMap}
  {sectorShift ino : Nat}

theorem extentRead {path : Path} (loaded : ∀ i < path.item.data.length, path.data i = cString path.item.data i)
    (size : sizeofFileExtentItem ≤ path.item.data.length) : fileExtentItem path.data = path.item.extent := by
  unfold sizeofFileExtentItem at size
  rw [Item.extent,fileExtentItem,fileExtentItem,loaded 16 (by omega),loaded 17 (by omega),loaded 20 (by omega),
    le64Congr (i := extentDiskBytenr) fun k _ lt => loaded k (by unfold extentDiskBytenr at lt; omega),
    le64Congr (i := 37) fun k _ lt => loaded k (by omega),le64Congr (i := 45) fun k _ lt => loaded k (by omega)]

theorem sectorsInside {bytes k : Nat} (word : bytes ≤ 2^63) (small : sectorShift < 32)
    (inside : k < sectorsFor sectorShift bytes) :
    k*2^sectorShift < bytes := by
  have unit := Nat.two_pow_pos sectorShift
  have narrow : 2^sectorShift < 2^32 := Nat.pow_lt_pow_right (by decide) small
  unfold sectorsFor at inside
  rw [Nat.mod_eq_of_lt (show bytes + 2^sectorShift - 1 < 2^64 by omega)] at inside
  have whole := Nat.mul_le_of_le_div _ _ _ (Nat.succ_le_of_lt (Nat.lt_of_lt_of_le inside (Nat.mod_le _ (2^32))))
  rw [Nat.succ_mul] at whole
  omega

theorem physicalWord (map : ChunkMap) (logical : Nat) : logicalPhysical map logical < 2^64 := by
  have answer : ∀ (entry : ChunkMapItem) (a : Nat), entry.answer a < 2^64 := by
    intro entry a
    unfold ChunkMapItem.answer
    split
    · exact Nat.sub_lt (Nat.two_pow_pos 64) Nat.one_pos
    · exact Nat.mod_lt _ (Nat.two_pow_pos 64)
  unfold logicalPhysical
  generalize BinSearch.search (fun i => btrfsCompChunkMap (map.item i) ⟨logical,0,0,0⟩) 0 map.curLength = found
  obtain ⟨ret,slot⟩ := found
  simp only
  generalize (if ret = 0 then slot + 1 else slot) = next
  by_cases first : next = 0
  · rw [if_pos first]
    exact Nat.sub_lt (Nat.two_pow_pos 64) Nat.one_pos
  · rw [if_neg first]
    exact answer _ _

theorem sectorReal (some' : 0 < sectorShift) (logical : Nat) :
    Getfssec.nextPsector (logicalPhysical map logical / 2^sectorShift) 0 ≠ extentZero := by
  have word := physicalWord map logical
  have double : 2 ≤ 2^sectorShift := Nat.le_self_pow (Nat.pos_iff_ne_zero.mp some') 2
  have half := Nat.div_mul_le_self (logicalPhysical map logical) (2^sectorShift)
  have twice : logicalPhysical map logical / 2^sectorShift*2 ≤ logicalPhysical map logical / 2^sectorShift*2^sectorShift :=
    Nat.mul_le_mul_left _ double
  rw [Getfssec.nextPsector,if_neg (by unfold extentVoid; omega)]
  unfold extentZero
  omega

theorem extentKey {item : Item} {offset : Nat} (key : item.key = extentDataKey ino offset) :
    item.IsExtent ino ∧ item.key.offset = offset := by
  rw [Item.IsExtent,key]
  exact ⟨⟨rfl,rfl⟩,rfl⟩

/- An extent that begins with the sector is mapped as it lies in its chunk. -/
theorem beginsRight (f : ExtentFile (Tree.items height tree) chunks map sectorShift ino) {item : Item}
    (mem : item ∈ Tree.items height tree) {lstart : Nat} (key : item.key = extentDataKey ino (lstart*2^sectorShift))
    (data : ¬ item.IsHole) {k : Nat} (inside : k < sectorsFor sectorShift item.extent.numBytes) :
    Sits (Tree.items height tree) chunks sectorShift ino (lstart + k) (Getfssec.nextPsector
      (logicalPhysical map ((item.extent.diskBytenr + item.extent.offset) % 2^64) / 2^sectorShift) k) := by
  obtain ⟨kind,offset⟩ := extentKey key
  obtain ⟨positive,word,_⟩ := f.places item mem kind
  obtain ⟨c,chunk,low,high⟩ := f.stored item mem kind data
  have aligned := Nat.dvd_add (f.aligned item mem kind).1 (f.aligned item mem kind).2
  obtain ⟨logical,physical,alignedL,alignedP⟩ := f.ranges c chunk
  have unit := Nat.two_pow_pos sectorShift
  have double : 2 ≤ 2^sectorShift := Nat.le_self_pow (Nat.pos_iff_ne_zero.mp f.sectors.1) 2
  have upTo := sectorsInside (by omega) f.sectors.2 inside
  generalize start' : item.extent.diskBytenr + item.extent.offset = start at *
  have covers : c.Covers start := ⟨low,by omega⟩
  rw [Nat.mod_eq_of_lt (by omega),f.served.found c chunk start covers,Nat.mod_eq_of_lt (by omega)]
  obtain ⟨p,first⟩ : 2^sectorShift ∣ c.physical + (start - c.logical) := Nat.dvd_add alignedP (Nat.dvd_sub aligned alignedL)
  have half : 2*p ≤ 2^sectorShift*p := Nat.mul_le_mul_right p double
  have place : (p + k)*2^sectorShift = c.physical + (start + k*2^sectorShift - c.logical) := by
    rw [Nat.add_mul,Nat.mul_comm p,← first]
    omega
  have half' : 2*(p + k) ≤ (p + k)*2^sectorShift := by
    rw [Nat.mul_comm 2]
    exact Nat.mul_le_mul_left _ double
  rw [first,Nat.mul_div_cancel_left _ unit,Getfssec.nextPsector,if_neg (by unfold extentVoid; omega),
    Nat.mod_eq_of_lt (by omega)]
  have behind : (lstart + k)*2^sectorShift = item.key.offset + k*2^sectorShift := by rw [Nat.add_mul,offset]
  refine Or.inl ⟨item,mem,kind,⟨by omega,by omega⟩,data,c,chunk,?_⟩
  simp only [start',behind,Nat.add_sub_cancel_left]
  exact ⟨⟨by omega,by omega⟩,place⟩

theorem extentAnswer (t : FsTree block height tree root)
    (f : ExtentFile (Tree.items height tree) chunks map sectorShift ino)
    (itemOffset : Nat → Nat → Nat) (disk : Nat → Nat → UInt8) {inode : Inode} (number : inode.ino = ino)
    (prev : Extent) (lstart : Nat) :
    ∃ ret path, Lands (extentDataKey ino (lstart*2^sectorShift % 2^32)) (Tree.items height tree) ret path ∧
      (btrfsFs block itemOffset root map sectorShift disk).nextExtent inode prev lstart =
        if ret ≠ 0 then (-1,prev,inode) else
        let offset := (path.item.extent.diskBytenr + path.item.extent.offset) % 2^64
        (0,⟨logicalPhysical map offset / 2^sectorShift,prev.lstart,sectorsFor sectorShift path.item.extent.numBytes⟩,
          { inode with offset := offset }) := by
  obtain ⟨ret,path,search,lands⟩ := searchLands t (extentDataKey ino (lstart*2^sectorShift % 2^32))
  refine ⟨ret,path,lands,?_⟩
  have called : (btrfsFs block itemOffset root map sectorShift disk).nextExtent inode prev lstart =
      (btrfsNextExtent block itemOffset root map sectorShift inode prev lstart).getD (-1,prev,inode) := rfl
  rw [called,btrfsNextExtent,number,search]
  by_cases missing : ret ≠ 0
  · simp only [if_pos missing,Option.getD_some]
  obtain ⟨kind,_⟩ := extentKey (lands.exact' (not_not.mp missing))
  obtain ⟨uncompressed,unencrypted,type⟩ := f.plain path.item lands.inside kind
  have stored : path.item.extent.type ≠ fileExtentInline := by
    unfold fileExtentInline fileExtentReg fileExtentPrealloc at *
    omega
  have read := extentRead lands.loaded (f.sizes path.item lands.inside kind)
  simp only [if_neg missing,read,unencrypted,uncompressed,if_neg stored,ne_eq,not_true_eq_false,if_false,Option.getD_some]

/- What is answered for a start: it is right exactly when an extent with data begins there. -/
theorem answerRight (t : FsTree block height tree root) (f : ExtentFile (Tree.items height tree) chunks map sectorShift ino)
    (itemOffset : Nat → Nat → Nat) (disk : Nat → Nat → UInt8) {inode : Inode} (number : inode.ino = ino) (prev : Extent)
    {lstart size : Nat} (word : lstart*2^sectorShift < 2^32) (below : lstart*2^sectorShift < size) :
    Right (Tree.items height tree) chunks sectorShift ino size
      ⟨lstart,((btrfsFs block itemOffset root map sectorShift disk).nextExtent inode prev lstart).1,
        ((btrfsFs block itemOffset root map sectorShift disk).nextExtent inode prev lstart).2.1⟩ ↔
      Begins (Tree.items height tree) sectorShift ino lstart := by
  obtain ⟨ret,path,lands,answer⟩ := extentAnswer t f itemOffset disk number prev lstart
  rw [Nat.mod_eq_of_lt word] at lands
  rw [answer]
  by_cases missing : ret ≠ 0
  · rw [if_pos missing]
    constructor
    · rintro ⟨ok,_⟩
      cases ok
    · rintro ⟨item,mem,key,_⟩
      exact absurd key (lands.missing missing item mem)
  have key := lands.exact' (not_not.mp missing)
  obtain ⟨kind,offset⟩ := extentKey key
  obtain ⟨positive,_,_⟩ := f.places path.item lands.inside kind
  rw [if_neg missing]
  constructor
  · rintro ⟨_,some',right⟩
    refine ⟨path.item,lands.inside,key,?_,Nat.pos_iff_ne_zero.mp some'⟩
    intro hole
    have spans : path.item.Spans (lstart*2^sectorShift) := ⟨by omega,by omega⟩
    rcases right 0 some' below with ⟨item,mem,kind',spans',data,_⟩ | ⟨_,zero⟩
    · rw [f.apart path.item lands.inside item mem kind kind' _ spans spans'] at hole
      exact data hole
    · exact sectorReal f.sectors.1 _ zero
  · rintro ⟨item,mem,key',data,some'⟩
    have same := keyUnique t mem lands.inside (key'.trans key.symm)
    rw [← same]
    exact ⟨rfl,Nat.pos_of_ne_zero some',fun k inside _ => beginsRight f mem key' data inside⟩

theorem inodeKept (t : FsTree block height tree root) (f : ExtentFile (Tree.items height tree) chunks map sectorShift ino)
    (itemOffset : Nat → Nat → Nat) (disk : Nat → Nat → UInt8) {inode : Inode} (number : inode.ino = ino)
    (prev : Extent) (lstart : Nat) :
    let inode' := ((btrfsFs block itemOffset root map sectorShift disk).nextExtent inode prev lstart).2.2
    inode'.ino = ino ∧ (2^sectorShift ∣ inode.offset → 2^sectorShift ∣ inode'.offset) := by
  obtain ⟨ret,path,lands,answer⟩ := extentAnswer t f itemOffset disk number prev lstart
  rw [answer]
  by_cases missing : ret ≠ 0
  · rw [if_pos missing]
    exact ⟨number,id⟩
  obtain ⟨kind,_⟩ := extentKey (lands.exact' (not_not.mp missing))
  have whole := Nat.dvd_add (f.aligned path.item lands.inside kind).1 (f.aligned path.item lands.inside kind).2
  rw [if_neg missing]
  exact ⟨number,fun _ => (Nat.dvd_mod_iff (Nat.pow_dvd_pow 2 (by have := f.sectors.2; omega))).mpr whole⟩

theorem readsPlain (t : FsTree block height tree root) (f : ExtentFile (Tree.items height tree) chunks map sectorShift ino)
    (itemOffset : Nat → Nat → Nat) (disk : Nat → Nat → UInt8) {inode : Inode} (number : inode.ino = ino)
    (aligned : 2^sectorShift ∣ inode.offset) {counts : List Nat} (counted : Getfssec.Counted counts) {file : File Inode}
    (run : Getfssec.readOn (btrfsFs block itemOffset root map sectorShift disk)
      (Getfssec.opened inode.size inode) counts = some file)
    (n : Nat) : btrfsGetfssec (btrfsFs block itemOffset root map sectorShift disk) file n =
      Getfssec.genericGetfssec (btrfsFs block itemOffset root map sectorShift disk) file n := by
  have kept : file.inode.pvt.ino = ino ∧ 2^sectorShift ∣ file.inode.pvt.offset :=
    @Getfssec.readKeeps _ _ _ _ (fun pvt : Inode => pvt.ino = ino ∧ 2^sectorShift ∣ pvt.offset) f.sectors.2
      (fun p pvt prev is _ => (inodeKept t f itemOffset disk is.1 prev p).imp_right fun kept => kept is.2)
      ⟨number,aligned⟩ _ _ counted run
  exact getfssecPlain _ (Nat.mod_eq_zero_of_dvd kept.2) n

end

/- In a file that is read from its start next_extent is asked for sectors of the file only,
and answers right exactly where an extent with data begins. -/
theorem extentsMapped {disk : Nat → TreeBuf} {map : ChunkMap} {height : Nat} {tree : Tree height} {root : Nat}
    {chunks : List ChunkMapItem} {sectorShift ino : Nat} (t : FsTree (blockOf disk map) height tree root)
    (f : ExtentFile (Tree.items height tree) chunks map sectorShift ino) (itemOffset : Nat → Nat → Nat)
    (data : Nat → Nat → UInt8)
    {inode : Inode} (number : inode.ino = ino) {ask : Ask}
    (asked : Getfssec.Asked (btrfsFs (blockOf disk map) itemOffset root map sectorShift data) inode.size inode ask) :
    ask.lstart*2^sectorShift < inode.size ∧ (Right (Tree.items height tree) chunks sectorShift ino inode.size ask ↔
      Begins (Tree.items height tree) sectorShift ino ask.lstart) := by
  refine @Getfssec.askedAll _ _ _ _ f.sectors.2 (fun inode : Inode => inode.ino = ino)
    (fun ask => ask.lstart*2^sectorShift < inode.size ∧
    (Right (Tree.items height tree) chunks sectorShift ino inode.size ask ↔
      Begins (Tree.items height tree) sectorShift ino ask.lstart)) ?_ number _ asked
  intro p pvt prev is inside
  have below : p*2^sectorShift < inode.size % 2^32 := Getfssec.sectorsBelow inside
  have word := Nat.mod_lt inode.size (Nat.two_pow_pos 32)
  have small := Nat.mod_le inode.size (2^32)
  have inFile : p*2^sectorShift < inode.size := by omega
  exact ⟨(inodeKept t f itemOffset data is prev p).1,inFile,
    answerRight t f itemOffset data is prev (by omega) inFile⟩

/- A file of one extent of 4 kB, at 1 MB of the disk or, with no address, a hole. -/
def fileExtent (bytenr : UInt8) : Item :=
  ⟨extentDataKey 257 0,List.replicate 20 0 ++ [1,0,0,bytenr,0,0,0,0,0] ++ List.replicate 16 0 ++ [0,16,0,0,0,0,0,0]⟩
def smallInode : Inode := ⟨257,4096,dtReg,0⟩
def smallFs (bytenr : UInt8) : Fs Inode :=
  btrfsFs (blockOf (leafDisk [fileExtent bytenr]) (insertAll [systemChunk])) (fun _ _ => 0) (2^20)
    (insertAll [systemChunk]) 9
    fun _ _ => 0

theorem smallServes : MapServes [systemChunk] (insertAll [systemChunk]) := by
  have new : systemChunk.logical ∉ ([] : List ChunkMapItem).map ChunkMapItem.logical := by simp
  obtain ⟨xs,ys,split,listed⟩ := insertNew emptyListed new (by decide)
  obtain ⟨rfl,rfl⟩ := List.append_eq_nil_iff.mp split.symm
  have listed : Listed (insertAll [systemChunk]) ([] ++ [systemChunk]) := listed
  refine ⟨?_,?_,?_⟩
  · intro i j less inside
    rw [listed.count] at inside
    simp only [List.nil_append,List.length_singleton] at inside
    omega
  · intro c mem a covers
    cases List.mem_singleton.mp mem
    rw [resolvesAnswer ⟨[],[],listed,covers,by simp⟩,answerInside covers (by decide)]
  · intro a word outside
    rcases lookupListed listed a with ⟨xs,c,ys,split,upTo,_,found⟩ | ⟨_,found⟩
    · have mem : c ∈ [systemChunk] := by
        rw [List.nil_append] at split
        rw [split]
        simp
      have notCovers := outside c mem
      unfold ChunkMapItem.Covers at notCovers
      rw [found]
      exact answerBehind (by omega) word
    · exact found

theorem smallTree (bytenr : UInt8) :
    @FsTree (blockOf (leafDisk [fileExtent bytenr]) (insertAll [systemChunk])) 0 [fileExtent bytenr] (2^20) :=
  ⟨by decide,by simp [Tree.Full,Tree.leaf],List.pairwise_singleton _ _,by simp [Tree.items,Tree.leaf,fileExtent,btrfsMaxLeafSize],
    leafHolds trivial⟩

theorem smallExtentFile {bytenr : UInt8} (either : bytenr = 0 ∨ bytenr = 16) :
    ExtentFile [fileExtent bytenr] [systemChunk] (insertAll [systemChunk]) 9 257 := by
  have values : (fileExtent bytenr).extent.compression = 0 ∧ (fileExtent bytenr).extent.encryption = 0 ∧
      (fileExtent bytenr).extent.type = fileExtentReg ∧ (fileExtent bytenr).extent.numBytes = 4096 ∧
      (fileExtent bytenr).extent.offset = 0 ∧
        ((fileExtent bytenr).extent.diskBytenr = 0 ∨ (fileExtent bytenr).extent.diskBytenr = 2^20) := by
    rcases either with rfl | rfl <;> decide
  obtain ⟨compression,encryption,type,numBytes,offset,diskBytenr⟩ := values
  have only : ∀ {item : Item}, item ∈ [fileExtent bytenr] → item = fileExtent bytenr := List.mem_singleton.mp
  refine ⟨by decide,smallServes,?_,?_,?_,?_,?_,?_,?_⟩
  · intro c mem
    cases List.mem_singleton.mp mem
    decide
  · intro item mem _
    rw [only mem]
    exact Nat.le_refl 53
  · intro item mem _
    rw [only mem]
    exact ⟨compression,encryption,Or.inl type⟩
  · intro item mem _
    rw [only mem,numBytes]
    have first : (fileExtent bytenr).key.offset = 0 := rfl
    rw [first]
    decide
  · intro item mem other mem' _ _ _ _ _
    rw [only mem,only mem']
  · intro item mem _
    rw [only mem,offset]
    rcases diskBytenr with zero | mib
    · rw [zero]
      decide
    · rw [mib]
      decide
  · intro item mem _ data
    rw [only mem] at data ⊢
    rw [offset,numBytes]
    rcases diskBytenr with zero | mib
    · exact absurd zero data
    · rw [mib]
      exact ⟨systemChunk,List.mem_singleton.mpr rfl,by decide⟩

theorem smallAsked {bytenr : UInt8} {ask : Ask}
    (read : ((Getfssec.readOn (Getfssec.logged (smallFs bytenr)) (Getfssec.opened 4096 (smallInode,[])) [1]).map
      fun file => file.inode.pvt.2) = some [ask]) : Getfssec.Asked (smallFs bytenr) 4096 smallInode ask := by
  obtain ⟨file,run,log⟩ := Option.map_eq_some_iff.mp read
  exact ⟨[1],file,by intro n mem; cases List.mem_singleton.mp mem; decide,run,by rw [log]; exact List.mem_singleton.mpr rfl⟩

theorem extentsMappedSmall : Right [fileExtent 16] [systemChunk] 9 257 4096 ⟨0,0,⟨2^11,0,8⟩⟩ := by
  refine (@extentsMapped (leafDisk [fileExtent 16]) (insertAll [systemChunk]) 0 [fileExtent 16] (2^20) [systemChunk] 9 257
    (smallTree 16) (smallExtentFile (Or.inr rfl)) (fun _ _ => 0) (fun _ _ => 0) smallInode rfl ⟨0,0,⟨2^11,0,8⟩⟩
    (smallAsked (by decide))).2.mpr ?_
  exact ⟨fileExtent 16,List.mem_singleton.mpr rfl,rfl,by unfold Item.IsHole; decide,by decide⟩

/- A hole with an extent item is looked up in the chunk map. -/
theorem holeNotZero : ¬ ∀ (disk : Nat → TreeBuf) (map : ChunkMap) (height : Nat) (tree : Tree height) (root : Nat)
    (chunks : List ChunkMapItem) (sectorShift ino : Nat) (itemOffset : Nat → Nat → Nat) (data : Nat → Nat → UInt8)
    (inode : Inode) (ask : Ask), FsTree (blockOf disk map) height tree root →
    ExtentFile (Tree.items height tree) chunks map sectorShift ino → inode.ino = ino →
    Getfssec.Asked (btrfsFs (blockOf disk map) itemOffset root map sectorShift data) inode.size inode ask →
    Right (Tree.items height tree) chunks sectorShift ino inode.size ask := by
  intro claim
  have right : Right [fileExtent 0] [systemChunk] 9 257 4096 ⟨0,0,⟨2^55 - 1,0,8⟩⟩ :=
    claim (leafDisk [fileExtent 0]) (insertAll [systemChunk]) 0 [fileExtent 0] (2^20) [systemChunk] 9 257 (fun _ _ => 0)
      (fun _ _ => 0) smallInode ⟨0,0,⟨2^55 - 1,0,8⟩⟩ (smallTree 0) (smallExtentFile (Or.inl rfl)) rfl
      (smallAsked (by decide))
  rcases right.2.2 0 (by decide) (by decide) with ⟨item,mem,_,_,data,_⟩ | ⟨_,zero⟩
  · cases List.mem_singleton.mp mem
    exact data (by unfold Item.IsHole; decide)
  · exact absurd zero (by decide)

end Syslinux.Btrfs
