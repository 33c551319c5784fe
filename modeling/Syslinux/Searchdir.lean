import Mathlib.Data.List.TakeWhile
import Syslinux.Refcount

/-! The generic path lookup of core/fs/fs.c (put_inode, alloc_file, _close_file, searchdir), chdir of
core/fs/chdir.c and generic_close_file, over a conventional filesystem: one that only has iget and readlink. -/
namespace Syslinux.Searchdir
open Refcount (Node Heap find acquire release attach addrs)

abbrev Bytes := List UInt8

inductive Mode where
  | unknown | fifo | chr | dir | blk | reg | lnk | sock | wht
  deriving DecidableEq, Repr

/- What an inode says of its object: iget fills it in, searchdir adds the name. -/
structure Inode (Obj : Type) where
  obj : Obj
  mode : Mode
  size : Nat
  name : Option Bytes
  deriving DecidableEq, Repr

/- Everything the lookup asks of the outside is asked at a tick of the clock, so that no two answers need agree:
the entry of a name in a directory, the target of a link, whether an allocation succeeds, where a new inode is
put, and the bytes that happen to stand behind the NUL of a newly made path. -/
structure Fs (Obj : Type) where
  rootObj : Obj
  rootMode : Mode
  rootSize : Nat
  iget : Nat → Bytes → Obj → Option (Obj × Mode × Nat)
  readlink : Option (Nat → Obj → Bytes)
  memory : Nat → Int → Bool
  place : Nat → List Nat → Nat
  slack : Nat → Bytes
  fresh : ∀ tick live,place tick live ∉ live

structure File where
  inode : Option Nat
  offset : Nat
  deriving DecidableEq, Repr

structure State (Obj : Type) where
  inodes : Heap Nat (Inode Obj)
  root : Nat
  cwd : Nat
  files : List (Option File)
  clock : Nat

def maxOpen : Nat := 2^7
def maxSymlinkCnt : Nat := 20
def maxSymlinkBuf : Int := 4096

def slash : UInt8 := 47
def dot : UInt8 := 46

section
variable {Obj : Type}

def getInode (s : State Obj) (inode : Nat) : Option (State Obj) := do
  let inodes ← acquire s.inodes inode
  some { s with inodes := inodes }

def putInode (s : State Obj) (inode : Option Nat) : Option (State Obj) := do
  let inodes ← release s.inodes.length s.inodes inode
  some { s with inodes := inodes }

def tick (s : State Obj) : State Obj :=
  { s with clock := s.clock + 1 }

def allocFile (files : List (Option File)) : Option Nat :=
  files.findIdx? Option.isNone

/- generic_close_file, then the slot is cleared. -/
def closeSlot (s : State Obj) (slot : Nat) : Option (State Obj) := do
  let s ← match s.files[slot]? with
    | some (some file) => putInode s file.inode
    | _ => some s
  some { s with files := s.files.set slot none }

def closeFile (s : State Obj) (handle : Nat) : Option (State Obj) :=
  if handle = 0 then some s else closeSlot s (handle - 1)

/- A C string: the bytes up to the first NUL of what is there. -/
def cstr (buf : Bytes) : Bytes :=
  buf.takeWhile (· ≠ 0)

theorem cstrPlain {word : Bytes} (plain : ∀ c ∈ word,c ≠ 0) : cstr word = word :=
  List.takeWhile_eq_self_iff.mpr (by simpa using plain)

theorem cstrBytes {buf : Bytes} : ∀ c ∈ cstr buf,c ≠ 0 := by
  intro c member
  simpa using List.mem_takeWhile_imp member

/- strchr(buf, '/'): the text before the slash and what follows it, if one comes before the NUL. -/
@[grind =] def strchr : Bytes → Bytes × Option Bytes
  | [] => ([],none)
  | c::buf =>
      if c = 0 then ([],none)
      else if c = slash then ([],some buf)
      else ((c :: (strchr buf).1),(strchr buf).2)

def skipSlashes (buf : Bytes) : Option Bytes :=
  match buf.dropWhile (· = slash) with
  | [] => none
  | c::rest => if c = 0 then none else some (c::rest)

/- One component and the rest of the path. The search for the slash starts behind the first byte, also when that
byte is the NUL of an empty path. -/
@[grind =] def component : Bytes → Bytes × Option Bytes
  | [] => ([],none)
  | c::buf =>
      if c = slash then ([slash],skipSlashes buf)
      else
        let found := strchr buf
        (if c = 0 then [] else c::found.1,found.2.bind skipSlashes)

inductive Turn (Obj : Type) where
  | fail (s : State Obj)
  | on (s : State Obj) (inode : Nat) (next : Option Bytes)
  | follow (s : State Obj) (inode : Nat) (path : Bytes)

def climb (s : State Obj) (inode parent : Nat) : Option (State Obj) := do
  let s ← getInode s parent
  putInode s (some inode)

def int32 (n : Nat) : Int :=
  (BitVec.ofNat 32 n).toInt

def newLen (size : Nat) : Option Bytes → Int
  | none => int32 (size + 1)
  | some next => int32 (size + 1 + ((cstr next).length + 1))

def newPath (fs : Fs Obj) (tick : Nat) (target : Bytes) : Option Bytes → Bytes
  | none => target ++ 0 :: fs.slack tick
  | some next => target ++ slash :: cstr next ++ 0 :: fs.slack tick

def symlink (fs : Fs Obj) (count : Nat) (s : State Obj) (inode parent : Nat) (obj : Obj) (size : Nat)
    (next : Option Bytes) : Option (Turn Obj) :=
  match fs.readlink with
  | none => do
      let s ← putInode s (some inode)
      some (.fail s)
  | some readlink =>
      if count - 1 = 0 ∨ maxSymlinkBuf < newLen size next then do
        let s ← putInode s (some inode)
        some (.fail s)
      else if fs.memory s.clock (newLen size next) = false then do
        let s ← putInode (tick s) (some inode)
        some (.fail s)
      else if readlink s.clock obj = [] then do
        let s ← putInode (tick s) (some inode)
        some (.fail s)
      else do
        let s' ← climb (tick s) inode parent
        some (.follow s' parent (newPath fs s.clock (readlink s.clock obj) next))

/- The inode iget returned, with parent and name set. A new inode has no parent, so the check for a different
one always passes. -/
def enter (fs : Fs Obj) (s : State Obj) (parent : Nat) (name : Bytes) (found : Obj × Mode × Nat) : State Obj × Nat :=
  let inode := fs.place s.clock (addrs s.inodes)
  let copy := if fs.memory s.clock (int32 (name.length + 1)) then some name else none
  (tick { s with inodes := attach s.inodes inode parent ⟨found.1,found.2.1,found.2.2,copy⟩ },inode)

def turn (fs : Fs Obj) (count : Nat) (s : State Obj) (inode : Nat) (buf : Bytes) : Option (Turn Obj) :=
  let name := (component buf).1
  let next := (component buf).2
  if name.head? = some slash then do
    let s ← putInode s (some inode)
    let s ← getInode s s.root
    some (.on s s.root next)
  else if name = [dot] then some (.on s inode next)
  else if name = [dot,dot] then do
    let node ← find s.inodes inode
    match node.parent with
    | none => some (.on s inode next)
    | some parent => do
        let s ← climb s inode parent
        some (.on s parent next)
  else do
    let node ← find s.inodes inode
    match fs.iget s.clock name node.data.obj with
    | none => do
        let s ← putInode (tick s) (some inode)
        some (.fail s)
    | some found =>
        let entered := enter fs (tick s) inode name found
        if found.2.1 = .lnk then symlink fs count entered.1 entered.2 inode found.1 found.2.2 next
        else if next ≠ none ∧ found.2.1 ≠ .dir then do
          let s ← putInode entered.1 (some entered.2)
          some (.fail s)
        else some (.on entered.1 entered.2 next)

/- The turns over one path buffer; a symlink goes on with the path made for it. -/
@[grind =] def pass (fs : Fs Obj) (count : Nat) (restart : State Obj → Nat → Bytes → Option (State Obj × Option Nat)) :
    Nat → State Obj → Nat → Bytes → Option (State Obj × Option Nat)
  | 0,_,_,_ => none
  | turns+1,s,inode,buf => do
      match ← turn fs count s inode buf with
      | .fail s => some (s,none)
      | .on s inode none => some (s,some inode)
      | .on s inode (some next) => pass fs count restart turns s inode next
      | .follow s inode path => restart s inode path

/- The whole loop, by what is left of symlink_count. -/
@[grind =] def walk (fs : Fs Obj) : Nat → State Obj → Nat → Bytes → Option (State Obj × Option Nat)
  | 0,_,_,_ => none
  | count+1,s,inode,buf => pass fs (count + 1) (walk fs count) (buf.length + 1) s inode buf

/- The handle, or none for -1. -/
def searchdir (fs : Fs Obj) (s : State Obj) (name : Bytes) : Option (State Obj × Option Nat) :=
  match allocFile s.files with
  | none => some (s,none)
  | some slot =>
      let path := cstr name
      let opened := { s with files := s.files.set slot (some ⟨none,0⟩) }
      if fs.memory s.clock (int32 (path.length + 1)) = false then do
        let s ← closeSlot (tick opened) slot
        some (s,none)
      else do
        let s' ← getInode (tick opened) s.cwd
        match ← walk fs maxSymlinkCnt s' s.cwd (path ++ 0 :: fs.slack s.clock) with
        | (s,none) => do
            let s ← closeSlot s slot
            some (s,none)
        | (s,some inode) => some ({ s with files := s.files.set slot (some ⟨some inode,0⟩) },some (slot + 1))

def handleToFile (s : State Obj) (handle : Nat) : Option File :=
  (s.files[handle - 1]?).join

/- The return value of chdir; cwd_name, which no lookup reads, is left out. -/
def chdir (fs : Fs Obj) (s : State Obj) (src : Bytes) : Option (State Obj × Int) := do
  let (s,rv) ← searchdir fs s src
  match rv with
  | none => some (s,-1)
  | some handle => do
      let file ← handleToFile s handle
      let inode ← file.inode
      let node ← find s.inodes inode
      if node.data.mode ≠ .dir then do
        let s ← closeFile s handle
        some (s,-1)
      else do
        let s ← putInode s (some s.cwd)
        let s ← getInode s inode
        let s ← closeFile { s with cwd := inode } handle
        some (s,0)

/- The end of fs_init: the root inode has no parent and no name, and becomes the current directory too. -/
def fsInit (fs : Fs Obj) : Option (State Obj) :=
  let root := fs.place 0 []
  getInode { inodes := [⟨root,none,1,⟨fs.rootObj,fs.rootMode,fs.rootSize,none⟩⟩],root := root,cwd := root,
             files := List.replicate maxOpen none,clock := 1 } root

end
end Syslinux.Searchdir
