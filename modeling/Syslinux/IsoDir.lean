import Syslinux.Align
import Syslinux.Searchdir
import Syslinux.SuspCache

/-! Directories of ISO 9660, as iso_find_entry and iso_readdir of core/fs/iso9660/iso9660.c walk them.
The records are looked at where they lie in the cache, and the Rock Ridge names are read
through it. -/
namespace Syslinux.Iso
open Fat (le32)
open Searchdir (Bytes cstr)
open Cache (Session getCache)
open Susp (SbInfo cacheReader suspRrGetNm)

/- A CD-ROM block is always 2K. -/
def blockShift : Nat := 11
def blockSize : Nat := 2^blockShift

def isoTolower (c : UInt8) : UInt8 := if 0x41 ≤ c ∧ c ≤ 0x5a then c + 0x20 else c

def semicolon : UInt8 := 0x3b
def dot : UInt8 := 0x2e

/- The characters up to a NUL or a version suffix. -/
def convertLoop (src : Nat → UInt8) : Nat → Nat → Bytes
  | 0,_ => []
  | len+1,i => if src i = 0 ∨ src i = semicolon then [] else isoTolower (src i)::convertLoop src len (i + 1)

def removeDots (dst : Bytes) : Nat → Nat
  | 0 => 0
  | p+1 => if 0 < p ∧ dst.getD p 0 = dot then removeDots dst p else p + 1

def isoConvertName (src : Nat → UInt8) (len : Nat) : Bytes :=
  if len = 1 ∧ src 0 = 1 then [dot,dot]
  else if len = 1 ∧ src 0 = 0 then [dot]
  else (convertLoop src len 0).take (removeDots (convertLoop src len 0) (convertLoop src len 0).length)

/- Both names are followed by a NUL. -/
def compareLoop : Bytes → Bytes → Bool
  | [],fileName => 0 = isoTolower (fileName.headD 0)
  | c1::name,fileName =>
      if c1 ≠ isoTolower (fileName.headD 0) then false
      else if c1 = 0 then true
      else compareLoop name fileName.tail

def isoCompareName (deName : Nat → UInt8) (len : Nat) (fileName : Bytes) : Bool := compareLoop (isoConvertName deName len) fileName

/- The fields of struct iso_dir_entry, by their offsets. -/
def deLength (de : Nat → UInt8) : Nat := (de 0).toNat
def deExtentLe (de : Nat → UInt8) : Nat := le32 de 2
def deSizeLe (de : Nat → UInt8) : Nat := le32 de 10
def deFlags (de : Nat → UInt8) : UInt8 := de 25
def deNameLen (de : Nat → UInt8) : Nat := (de 32).toNat
def deName (de : Nat → UInt8) (i : Nat) : UInt8 := de (33 + i)

inductive DirentType where
  | dir | reg
  deriving DecidableEq, Repr

def getInodeMode (flags : UInt8) : DirentType := if flags &&& 2 ≠ 0 then .dir else .reg

structure Inode where
  mode : DirentType
  size : Nat
  lba : Nat
  blocks : Nat
  deriving DecidableEq, Repr

def isoGetInode (de : Nat → UInt8) : Inode :=
  ⟨getInodeMode (deFlags de),deSizeLe de,deExtentLe de,(deSizeLe de + blockSize - 1) >>> blockShift⟩

def bytesAt (s : Session) (p : Nat) (i : Nat) : UInt8 := s.dev.mem (p + i)

/- struct dirent, with the bytes before the NUL that is set behind the name. -/
structure Dirent where
  dIno : Nat
  dOff : Nat
  dReclen : Nat
  dType : DirentType
  dName : Bytes
  deriving DecidableEq, Repr

def offsetofName : Nat := 12

/- What a call lists. The flag is not in the source: it tells which of its names the record is
listed under. -/
structure Listed where
  dirent : Dirent
  rockRidge : Bool
  deriving DecidableEq, Repr

section
variable (disk behind : Nat → UInt8) (sbi : SbInfo) (inode : Inode) (fuel : Nat)

/- The loop of iso_find_entry; the turn that gets a block is one of its own. `none` is NULL. -/
def findLoop (dname : Bytes) : Nat → Session → Option Nat → Nat → Nat → Nat → Option (Session × Option Nat)
  | 0,_,_,_,_,_ => none
  | turns+1,s,none,i,_,dirBlock =>
      if inode.blocks < i + 1 then some (s,none)
      else findLoop dname turns (s.get disk dirBlock) (some ((getCache disk s.dev dirBlock).2.getD 0)) (i + 1) 0 (dirBlock + 1)
  | turns+1,s,some data,i,offset,dirBlock =>
      let de := bytesAt s (data + offset)
      let next := offset + deLength de
      if deLength de < 33 ∨ blockSize < next then findLoop dname turns s none i next dirBlock
      else
        match suspRrGetNm (cacheReader disk behind) de sbi fuel s with
        | none => none
        | some (s,ret,rrName) =>
            let de := bytesAt s (data + offset)
            if 0 < ret then
              if cstr (rrName.getD []) = dname then some (s,some (data + offset))
              else findLoop dname turns s (some data) i next dirBlock
            else if isoCompareName (deName de) (deNameLen de) dname then some (s,some (data + offset))
            else findLoop dname turns s (some data) i next dirBlock

/- The address of the record, or NULL. -/
def isoFindEntry (dname : Bytes) (turns : Nat) (s : Session) : Option (Session × Option Nat) :=
  findLoop disk behind sbi inode fuel dname turns s none 0 0 inode.lba

/- The loop of iso_readdir: the file offset and the address of the record there, if there is one. -/
def readdirLoop : Nat → Session → Option Nat → Nat → Option (Session × Nat × Option Nat)
  | 0,_,_,_ => none
  | turns+1,s,none,offset =>
      let i := offset >>> blockShift
      if inode.blocks ≤ i then some (s,offset,none)
      else readdirLoop turns (s.get disk (add32 inode.lba i)) (some ((getCache disk s.dev (add32 inode.lba i)).2.getD 0)) offset
  | turns+1,s,some data,offset =>
      let de := data + (offset &&& (blockSize - 1))
      let len := deLength (bytesAt s de)
      if len < 33 ∨ blockSize < (offset &&& (blockSize - 1)) + len then
        readdirLoop turns s none (Align.alignDown (add32 offset blockSize) blockSize)
      else some (s,offset,some de)

def isoReaddir (turns : Nat) (s : Session) (offset : Nat) : Option (Session × Nat × Option Listed) :=
  match readdirLoop disk inode turns s none offset with
  | none => none
  | some (s,offset,none) => some (s,offset,none)
  | some (s,offset,some p) =>
      let dType := getInodeMode (deFlags (bytesAt s p))
      match suspRrGetNm (cacheReader disk behind) (bytesAt s p) sbi fuel s with
      | none => none
      | some (s,ret,rrName) =>
          let de := bytesAt s p
          let name := if 0 < ret then rrName.getD [] else isoConvertName (deName de) (deNameLen de)
          some (s,add32 offset (deLength de),
            some ⟨⟨0,offset,offsetofName + 1 + name.length,dType,name⟩,decide (0 < ret)⟩)

end
end Syslinux.Iso
