import Syslinux.BtrfsFsTree

/-! Names in a btrfs directory: btrfs_iget_by_inr, btrfs_iget and btrfs_readdir of
core/fs/btrfs/btrfs.c with the hash of crc32c.h. `none` is again a search outside the arrays
of the path; the inner `none` is NULL, or the -1 of readdir. -/
namespace Syslinux.Btrfs
open Fat (le16 le32 le64)

def crc32cPoly : UInt32 := 0x82F63B78
def crc32cShift (v : UInt32) : UInt32 := (v >>> 1) ^^^ (if v &&& 1 ≠ 0 then crc32cPoly else 0)
def crc32cTable (i : UInt8) : UInt32 := crc32cShift^[8] i.toUInt32

def crc32cLe (crc : UInt32) (data : List UInt8) : UInt32 :=
  data.foldl (fun crc byte => crc32cTable (crc.toUInt8 ^^^ byte) ^^^ (crc >>> 8)) crc

def btrfsNameHash (name : List UInt8) : Nat := (crc32cLe (~~~1) name).toNat

def inodeKey (inr : Nat) : DiskKey := ⟨inr,1,0⟩
def dirItemKey (dir offset : Nat) : DiskKey := ⟨dir,84,offset⟩
def extentDataKey (inr offset : Nat) : DiskKey := ⟨inr,108,offset⟩

def ifToDt (mode : Nat) : Nat := (mode &&& 0o170000) >>> 12
def dtReg : Nat := 8
def dtLnk : Nat := 10

structure Inode where
  ino : Nat
  size : Nat
  mode : Nat
  offset : Nat
  deriving DecidableEq, Repr

structure Dirent where
  dIno : Nat
  dOff : Nat
  dReclen : Nat
  dType : Nat
  dName : List UInt8
  deriving DecidableEq, Repr

def sizeofHeader : Nat := 101
def sizeofInodeItem : Nat := 160
def sizeofDirItem : Nat := 30
/- The place of disk_bytenr in struct btrfs_file_extent_item; inline bytes begin there. -/
def extentDiskBytenr : Nat := 21
def fileExtentInline : Nat := 0

section
variable (block : Nat → TreeBuf) (itemOffset : Nat → Nat → Nat) (fsTree : Nat)

/- The logical address of the bytes of an inline file. itemOffset has the field of struct
btrfs_item for a leaf and a slot in it. -/
def inlineAt (path : Path) : Nat :=
  (path.offsets 0 + sizeofHeader + itemOffset (path.offsets 0) (path.slots 0) + extentDiskBytenr) % 2^64

def inodeItem (inr : Nat) (data : Nat → UInt8) : Inode := ⟨inr,le64 data 16,ifToDt (le32 data 52),0⟩

def btrfsIgetByInr (inr : Nat) : Option (Option Inode) :=
  match searchTree block (inodeKey inr) btrfsMaxLevel fsTree clearPath with
  | none => none
  | some (ret,path) =>
      if ret ≠ 0 then some none
      else
        let inode := inodeItem inr path.data
        if inode.mode = dtReg ∨ inode.mode = dtLnk then
          match searchTree block (extentDataKey inr 0) btrfsMaxLevel fsTree clearPath with
          | none => none
          | some (ret,path) =>
              if ret ≠ 0 then some none
              else if (path.data 20).toNat = fileExtentInline then
                some (some { inode with offset := inlineAt itemOffset path })
              else some (some { inode with offset := le64 path.data extentDiskBytenr })
        else some (some inode)

def btrfsIget (name : List UInt8) (parent : Nat) : Option (Option Inode) :=
  match searchTree block (dirItemKey parent (btrfsNameHash name)) btrfsMaxLevel fsTree clearPath with
  | none => none
  | some (ret,path) => if ret ≠ 0 then some none else btrfsIgetByInr block itemOffset fsTree (le64 path.data 0)

/- The entry, and what file->offset is then. -/
def takeDirent (path : Path) : Nat × Dirent :=
  let nameLen := le16 path.data 27
  let offset := path.item.key.offset % 2^32
  (offset,⟨le64 path.data 0 % 2^32,offset,(12 + nameLen + 1) % 2^16,ifToDt (path.data 29).toNat,
    (List.range nameLen).map fun i => path.data (sizeofDirItem + i)⟩)

def btrfsReaddir (inode offset : Nat) : Option (Option (Nat × Dirent)) :=
  let searchKey := dirItemKey inode (sub32 offset 1)
  (searchTree block searchKey btrfsMaxLevel fsTree clearPath).map fun (ret,path) =>
    if ret ≠ 0 ∧ btrfsCompKeysType searchKey path.item.key ≠ 0 then none else some (takeDirent path)

/- btrfs_readdir until it returns -1. `none` also when it has not done so in the turns. -/
def readAll (inode : Nat) : Nat → Nat → Option (List Dirent)
  | 0,_ => none
  | turns+1,offset =>
      match btrfsReaddir block fsTree inode offset with
      | none => none
      | some none => some []
      | some (some (offset,dirent)) => (readAll inode turns offset).map (dirent::·)

end

/- struct btrfs_dir_item with the name and the data behind it. -/
structure DirItem where
  bytes : List UInt8
  whole : bytes.length = sizeofDirItem + le16 (cString bytes) 27 + le16 (cString bytes) 25

def DirItem.name (e : DirItem) : List UInt8 := (e.bytes.drop sizeofDirItem).take (le16 (cString e.bytes) 27)
def DirItem.location (e : DirItem) : DiskKey :=
  ⟨le64 (cString e.bytes) 0,(cString e.bytes 8).toNat,le64 (cString e.bytes) 9⟩

def Item.IsDirItem (dir : Nat) (item : Item) : Prop := item.key.objectid = dir ∧ item.key.type = 84
instance (dir : Nat) (item : Item) : Decidable (item.IsDirItem dir) := by unfold Item.IsDirItem; infer_instance

structure FsTree (block : Nat → TreeBuf) (height : Nat) (tree : Tree height) (root : Nat) : Prop where
  low : height < btrfsMaxLevel
  full : Tree.Full height tree
  sorted : Tree.Sorted height tree
  short : ∀ item ∈ Tree.items height tree, item.data.length ≤ btrfsMaxLeafSize
  holds : Holds block (fun _ => True) height tree root

/- A directory of it. The entries are those of its DIR_ITEMs, one or more in each; all
names in one have the hash that is its key, and an entry for an inode of the tree has one. -/
structure Directory (items : List Item) (held : Item → List DirItem) (dir : Nat) : Prop where
  inode : ∃ item ∈ items, item.key = inodeKey dir
  sizes : ∀ item ∈ items, item.key.type = 1 → sizeofInodeItem ≤ item.data.length
  filled : ∀ item ∈ items, item.IsDirItem dir → held item ≠ [] ∧ item.data = (held item).flatMap DirItem.bytes
  names : ∀ item ∈ items, item.IsDirItem dir → ((held item).map DirItem.name).Nodup ∧
    ∀ e ∈ held item, e.name ≠ [] ∧ e.name.length ≤ 255 ∧ 0 ∉ e.name ∧ btrfsNameHash e.name = item.key.offset
  targets : ∀ item ∈ items, item.IsDirItem dir → ∀ e ∈ held item, e.location.type = 1 →
    ∃ target ∈ items, target.key = inodeKey e.location.objectid

section
variable (items : List Item) (held : Item → List DirItem) (dir : Nat)

def dirItems : List Item := items.filter fun item => item.IsDirItem dir
def entries : List DirItem := (dirItems items dir).flatMap held

/- The inode of an entry. One of another subvolume has its location in the tree of roots
and is no inode of this tree. -/
def Refers (e : DirItem) (inode : Inode) : Prop := e.location.type = 1 ∧ ∃ item ∈ items,
  item.key = inodeKey e.location.objectid ∧ { inode with offset := 0 } = inodeItem e.location.objectid (cString item.data)

/- The lookup of a name returns an inode if and only if there is an entry with the name,
and then the inode of that entry. -/
def LooksUp (block : Nat → TreeBuf) (itemOffset : Nat → Nat → Nat) (fsTree : Nat) (name : List UInt8) : Prop :=
  ∃ found, btrfsIget block itemOffset fsTree name dir = some found ∧
    (found.isSome ↔ ∃ e ∈ entries items held dir, e.name = name) ∧
    ∀ inode ∈ found, ∃ e ∈ entries items held dir, e.name = name ∧ Refers items e inode

/- Read until -1, the directory lists each of its entries once. -/
def ListsAll (block : Nat → TreeBuf) (fsTree : Nat) : Prop := ∃ turns list, readAll block fsTree dir turns 0 = some list ∧
  (list.map fun d => (d.dName,d.dIno)).Perm ((entries items held dir).map fun e => (e.name,e.location.objectid % 2^32))

/- The number has an inode, and one of a file or a symbolic link has an extent at 0. -/
def Opens (inr : Nat) : Prop := ∃ item ∈ items, item.key = inodeKey inr ∧
  ((inodeItem inr (cString item.data)).mode = dtReg ∨ (inodeItem inr (cString item.data)).mode = dtLnk →
    ∃ extent ∈ items, extent.key = extentDataKey inr 0)

/- What is stored first under the hash of a name leads where the name does: to an inode of
the tree that opens; or, without an entry of that name, to none that does. -/
def FirstTold (name : List UInt8) : Prop := ∀ item ∈ items, item.key = dirItemKey dir (btrfsNameHash name) →
  ∀ first ∈ (held item).head?,
    (∃ e ∈ entries items held dir, e.name = name ∧ e.location.type = 1 ∧
      e.location.objectid = first.location.objectid ∧ Opens items first.location.objectid) ∨
    (∀ e ∈ entries items held dir, e.name ≠ name) ∧ ¬ Opens items first.location.objectid

/- No two names of the directory have one hash, and none has the hash 0. -/
def Apart : Prop := ∀ item ∈ items, item.IsDirItem dir → (held item).length = 1 ∧ item.key.offset ≠ 0

instance (inr : Nat) : Decidable (Opens items inr) := by unfold Opens; infer_instance
instance (name : List UInt8) : Decidable (FirstTold items held dir name) := by unfold FirstTold; infer_instance
instance : Decidable (Apart items held dir) := by unfold Apart; infer_instance

end

end Syslinux.Btrfs
