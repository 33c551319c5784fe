import Syslinux.BtrfsChunks
import Syslinux.Fat

/-! The trees of core/fs/btrfs/btrfs.c: search_tree, next_slot and next_leaf, the loop over
the items of one kind that btrfs_read_chunk_tree and btrfs_get_fs_tree share, and the
trees that lie on the disk. `none` is a read outside the arrays of the path, or a tree
whose levels do not fall. -/
namespace Syslinux.Btrfs
open BinSearch

@[ext] structure DiskKey where
  objectid : Nat
  type : Nat
  offset : Nat
  deriving DecidableEq, Repr

structure KeyPtr where
  key : DiskKey
  blockptr : Nat

/- struct btrfs_item with the bytes it stands for. -/
structure Item where
  key : DiskKey
  data : List UInt8
  deriving DecidableEq, Repr

/- union tree_buf: the ptrs of a node, the items of a leaf. Behind nritems of them comes
what else lies in the block. -/
structure TreeBuf where
  level : Nat
  nritems : Nat
  ptrs : Nat → KeyPtr
  items : Nat → Item

def btrfsMaxLevel : Nat := 8

structure Path where
  offsets : Nat → Nat
  itemsnr : Nat → Nat
  slots : Nat → Nat
  item : Item
  data : Nat → UInt8

def clearPath : Path := ⟨fun _ => 0,fun _ => 0,fun _ => 0,⟨⟨0,0,0⟩,[]⟩,fun _ => 0⟩

def btrfsCompKeys (k1 k2 : DiskKey) : Int :=
  if k2.objectid < k1.objectid then 1
  else if k1.objectid < k2.objectid then -1
  else if k2.type < k1.type then 1
  else if k1.type < k2.type then -1
  else if k2.offset < k1.offset then 1
  else if k1.offset < k2.offset then -1
  else 0

def btrfsCompKeysType (k1 k2 : DiskKey) : Int :=
  if k2.objectid < k1.objectid then 1
  else if k1.objectid < k2.objectid then -1
  else if k2.type < k1.type then 1
  else if k1.type < k2.type then -1
  else 0

/- The slot of one block: without an exact match the one before the place to insert, if
the search may go back so far. -/
def slotFor (key : DiskKey) (keyAt : Nat → DiskKey) (min nritems : Nat) : Nat × Nat :=
  let (ret,slot) := search (fun i => btrfsCompKeys (keyAt i) key) min nritems
  (ret,if ret ≠ 0 ∧ min < slot then slot - 1 else slot)

def Path.visit (path : Path) (level loffset nritems slot : Nat) : Path :=
  { path with
    offsets := Function.update path.offsets level loffset
    itemsnr := Function.update path.itemsnr level nritems
    slots := Function.update path.slots level slot }

/- path.data, on the stack, has room for this many bytes. Items of trees are no longer. -/
def btrfsMaxLeafSize : Nat := 4096

def Path.load (path : Path) (item : Item) : Path := { path with item := item, data := store path.data 0 item.data }

section
variable (block : Nat → TreeBuf) (key : DiskKey)

@[grind =] def searchTree : Nat → Nat → Path → Option (Nat × Path)
  | 0,_,_ => none
  | turns+1,loffset,path =>
      let buf := block loffset
      if btrfsMaxLevel ≤ buf.level then none
      else if buf.level ≠ 0 then
        let (_,slot) := slotFor key (fun i => (buf.ptrs i).key) (path.slots buf.level) buf.nritems
        searchTree turns (buf.ptrs slot).blockptr (path.visit buf.level loffset buf.nritems slot)
      else
        let (ret,slot) := slotFor key (fun i => (buf.items i).key) (path.slots 0) buf.nritems
        some (ret,(path.visit 0 loffset buf.nritems slot).load (buf.items slot))

def nextSlot (path : Path) : Option (Nat × Path) :=
  if path.itemsnr 0 = 0 then some (1,path)
  else
    let slot := path.slots 0 + 1
    if path.itemsnr 0 ≤ slot then some (1,path)
    else (searchTree block key btrfsMaxLevel (path.offsets 0)
      { path with slots := Function.update path.slots 0 slot }).map fun found => (0,found.2)

@[grind =] def nextLeafFrom : Nat → Nat → Path → Option (Nat × Path)
  | 0,_,path => some (1,path)
  | left+1,level,path =>
      if path.itemsnr level = 0 then some (1,path)
      else
        let slot := path.slots level + 1
        if path.itemsnr level ≤ slot then nextLeafFrom left (level + 1) path
        else (searchTree block key btrfsMaxLevel (path.offsets level)
          { path with slots := Function.update (Function.update path.slots level slot) (level - 1) 0 }).map
            fun found => (0,found.2)

def nextLeaf (path : Path) : Option (Nat × Path) := nextLeafFrom block key (btrfsMaxLevel - 1) 1 path

end

/- The two nested loops. What is done with an item, and where the blocks are read, is up
to the caller; an item can stop both. -/
section
variable {σ : Type} (block : σ → Nat → TreeBuf) (visit : σ → Path → σ × Bool) (key : DiskKey)

def scanSlots : Nat → σ → Path → Option (σ × Path × Bool)
  | 0,_,_ => none
  | turns+1,s,path =>
      if btrfsCompKeysType key path.item.key ≠ 0 then some (s,path,false)
      else
        match visit s path with
        | (s,true) => some (s,path,true)
        | (s,false) =>
            match nextSlot (block s) key path with
            | none => none
            | some (ret,path) => if ret = 0 then scanSlots turns s path else some (s,path,false)

def scanLeaves : Nat → σ → Path → Option (σ × Path × Bool)
  | 0,_,_ => none
  | turns+1,s,path =>
      match scanSlots block visit key turns s path with
      | none => none
      | some (s,path,true) => some (s,path,true)
      | some (s,path,false) =>
          if btrfsCompKeysType key path.item.key ≠ 0 then some (s,path,false)
          else
            match nextLeaf (block s) key path with
            | none => none
            | some (ret,path) => if ret = 0 then scanLeaves turns s path else some (s,path,false)

end

def Tree : Nat → Type
  | 0 => List Item
  | level+1 => List (Tree level)

def Tree.leaf (tree : Tree 0) : List Item := tree
def Tree.children {level : Nat} (tree : Tree (level + 1)) : List (Tree level) := tree

@[grind =] def Tree.items : (level : Nat) → Tree level → List Item
  | 0,tree => tree.leaf
  | level+1,tree => tree.children.flatMap (Tree.items level)

@[grind =] def Tree.Full : (level : Nat) → Tree level → Prop
  | 0,tree => tree.leaf ≠ []
  | level+1,tree => tree.children ≠ [] ∧ ∀ child ∈ tree.children, Tree.Full level child

/- The blocks from a logical address on hold the tree; the key with a pointer is that of
the first item below. -/
@[grind =] def Holds (block : Nat → TreeBuf) (mapped : Nat → Prop) : (level : Nat) → Tree level → Nat → Prop
  | 0,tree,addr => mapped addr ∧ (block addr).level = 0 ∧ (block addr).nritems = tree.leaf.length ∧
      ∀ i item, tree.leaf[i]? = some item → (block addr).items i = item
  | level+1,tree,addr => mapped addr ∧ (block addr).level = level + 1 ∧ (block addr).nritems = tree.children.length ∧
      ∀ i child, tree.children[i]? = some child →
        Holds block mapped level child ((block addr).ptrs i).blockptr ∧
        ∀ first ∈ (Tree.items level child).head?, ((block addr).ptrs i).key = first.key

def DiskKey.Before (j k : DiskKey) : Prop := j.objectid < k.objectid ∨ j.objectid = k.objectid ∧
  (j.type < k.type ∨ j.type = k.type ∧ j.offset < k.offset)

@[grind =] def Tree.rest (slots : Nat → Nat) : (level : Nat) → Tree level → List Item
  | 0,tree => tree.leaf.drop (slots 0)
  | level+1,tree =>
      match tree.children.drop (slots (level + 1)) with
      | [] => []
      | child::later => Tree.rest slots level child ++ later.flatMap (Tree.items level)

/- A path that leads to an item of the tree, with what search_tree has noted on the way. -/
@[grind =] def At (block : Nat → TreeBuf) (path : Path) : (level : Nat) → Tree level → Nat → Prop
  | 0,tree,addr => path.offsets 0 = addr ∧ path.itemsnr 0 = tree.leaf.length ∧
      ∃ item, tree.leaf[path.slots 0]? = some item ∧ path.item = item ∧
        ∀ i (h : i < item.data.length), path.data i = item.data[i]
  | level+1,tree,addr => path.offsets (level + 1) = addr ∧ path.itemsnr (level + 1) = tree.children.length ∧
      ∃ child, tree.children[path.slots (level + 1)]? = some child ∧
        At block path level child ((block addr).ptrs (path.slots (level + 1))).blockptr

end Syslinux.Btrfs
