import Syslinux.Fat
import Syslinux.Searchdir
import Syslinux.Scan

/-! The directories of core/fs/fat/fat.c: the sectors of a directory, vfat_find_entry and
vfat_readdir. Bytes and the numbers of slots are 8 bits wide, the units of a long name 16,
the position in a directory 32, sector numbers 64. A sector is read as it lies on the disk.
The codepage is a file that the build makes. -/
namespace Syslinux.FatDir
open Fat (Volume le16 le32 getNextCluster sub64)
open Searchdir (Bytes slash dot)
open Scan (Turn Outcome scan)

/- struct codepage, with uni[0] and uni[1] as the one table of 512 that they are in memory. -/
structure Codepage where
  upper : UInt8 → UInt8
  lower : UInt8 → UInt8
  uni : Nat → Nat

/- A volume, with the fields of struct fat_sb_info that only directories need. -/
structure FatFs where
  vol : Volume
  clustMask : Nat
  rootCluster : Nat
  codepage : Codepage

abbrev DirEntry := Nat → UInt8

def DirEntry.name (de : DirEntry) : Bytes := (List.range 11).map de
def DirEntry.attr (de : DirEntry) : UInt8 := de 11
def DirEntry.lcase (de : DirEntry) : UInt8 := de 12
def DirEntry.firstClusterHigh (de : DirEntry) : Nat := le16 de 20
def DirEntry.firstClusterLow (de : DirEntry) : Nat := le16 de 26
def DirEntry.fileSize (de : DirEntry) : Nat := le32 de 28

/- The same bytes as struct fat_long_name_entry, with name1, name2 and name3 in a row. -/
def DirEntry.id (de : DirEntry) : Nat := (de 0).toNat
def DirEntry.checksum (de : DirEntry) : UInt8 := de 13
def DirEntry.units (de : DirEntry) : List Nat := [1,3,5,7,9,14,16,18,20,22,24,28,30].map (le16 de)

def attrVolumeId : UInt8 := 0x08
def attrDirectory : UInt8 := 0x10
def attrLongName : UInt8 := 0x0f
def lcaseBase : UInt8 := 8
def lcaseExt : UInt8 := 16
def space : UInt8 := 0x20
def deleted : UInt8 := 0xe5

def DirEntry.isLong (de : DirEntry) : Bool := de.attr == attrLongName
def DirEntry.isVolume (de : DirEntry) : Bool := de.attr &&& attrVolumeId != 0

def FatFs.perSector (fs : FatFs) : Nat := 2^(fs.vol.sectorShift - 5)

def FatFs.entryAt (fs : FatFs) (sector de : Nat) : DirEntry := fun k => fs.vol.disk sector (de + k)

def getNextSector (fs : FatFs) (sector : Nat) : Nat :=
  let v := fs.vol
  let sector := sector % 2^32
  if sector < v.data then
    let sector := add32 sector 1
    if v.data ≤ sector then 0 else sector
  else
    let dataSector := sector - v.data
    -- Still in the same cluster.
    if (dataSector + 1) &&& fs.clustMask ≠ 0 then add32 sector 1
    else
      let cluster := dataSector / v.clusterSecs % 2^32
      let cluster := sub32 (getNextCluster v (add32 cluster 2)) 2
      if v.clusters ≤ cluster then 0 else (cluster*v.clusterSecs % 2^32 + v.data) % 2^32

/- The loop of mangle_dos_name, with what it has put into the buffer. -/
def mangleLoop (codepage : Codepage) : Bytes → Bytes → Bytes
  | [],buf => buf
  | c::src,buf =>
      if 11 ≤ buf.length then buf
      else if c ≤ space ∨ c = slash then buf
      else if c = dot then mangleLoop codepage src ((buf ++ List.replicate (8 - buf.length) space).take 8)
      else
        let c := codepage.upper c
        -- Special hack for the first byte only.
        let c := if buf.length = 0 ∧ c = 0xe5 then 0x05 else c
        mangleLoop codepage src (buf ++ [c])

def mangleDosName (codepage : Codepage) (src : Bytes) : Bytes :=
  let buf := if src = [dot] ∨ src = [dot,dot] then src else mangleLoop codepage src []
  buf ++ List.replicate (11 - buf.length) space

structure Units where
  size : Nat
  unit : Nat → Nat

def Units.read (buf : Units) (i : Nat) : Option Nat := if i < buf.size then some (buf.unit i) else none
def Units.zero (buf : Units) : Units := { buf with unit := fun _ => 0 }

def copyLongChunk (buf : Units) (i : Nat) (de : DirEntry) : Option Units :=
  if i + 13 ≤ buf.size then
    some { buf with unit := fun k => if i ≤ k ∧ k < i + 13 then de.units.getD (k - i) 0 else buf.unit k }
  else none

/- Any padding entries must be FFFF. -/
def padding (buf : Units) : Nat → Nat → Option Bool
  | _,0 => some true
  | i,len+1 => do
      let cp ← buf.read i
      if cp ≠ 0xffff then some false else padding buf (i + 1) len

def matchEnd (buf : Units) (i len : Nat) : Bytes → Option Bool
  | [] => none
  | c::_ => if c ≠ 0 then some false else padding buf i len

def matchLoop (codepage : Codepage) (buf : Units) : Nat → Nat → Bytes → Option Bool
  | i,0,str => matchEnd buf i 0 str
  | i,len+1,str => do
      let cp ← buf.read i
      if cp = 0 then matchEnd buf (i + 1) len str
      else match str with
        | [] => none
        | c::str =>
            if cp ≠ codepage.uni c.toNat ∧ cp ≠ codepage.uni (256 + c.toNat) then some false
            else matchLoop codepage buf (i + 1) len str

/- Without a result where a read is outside the buffer or the string with its NUL. -/
def vfatMatchLongname (codepage : Codepage) (str : Bytes) (buf : Units) (len : Nat) : Option Bool :=
  matchLoop codepage buf 0 len (str ++ [0])

/- The 256 slots of the static unicache: utf16 and cp. -/
abbrev Unicache := Nat → Nat × UInt8

def findChar (codepage : Codepage) (cp : Nat) : Option UInt8 :=
  ((List.range 512).find? fun c => codepage.uni c == cp).map fun c => UInt8.ofNat (c % 256)

def convert (codepage : Codepage) (unicache : Unicache) (cp : Nat) : Option (UInt8 × Unicache) :=
  let uc := unicache (cp % 256)
  if uc.1 = cp then some (uc.2,unicache)
  else (findChar codepage cp).map fun c => (c,fun k => if k = cp % 256 then (cp,c) else unicache k)

/- The loop of vfat_cvt_longname over the units of the buffer, with what it has written:
the length or -1, what is in the name then, and the cache. -/
def cvtLoop (codepage : Codepage) : List Nat → Unicache → Bytes → Option (Int × Bytes × Unicache)
  | [],_,_ => none
  | cp::longName,unicache,p =>
      match convert codepage unicache cp with
      | none => some (-1,p,unicache)
      | some (c,unicache) =>
          if cp = 0 then some (p.length,p ++ [c],unicache) else cvtLoop codepage longName unicache (p ++ [c])

def vfatCvtLongname (codepage : Codepage) (unicache : Unicache) (buf : Units) : Option (Int × Bytes × Unicache) :=
  cvtLoop codepage ((List.range buf.size).map buf.unit) unicache []

def getChecksum (dirName : Bytes) : UInt8 :=
  dirName.foldl (fun sum c => ((sum &&& 1) <<< 7) + (sum >>> 1) + c) 0

/- The cursor of a loop over the entries: the sector, de, and the entries left behind it. -/
structure Cursor where
  sector : Nat
  de : Nat
  left : Nat
  deriving DecidableEq, Repr

def FatFs.entry (fs : FatFs) (c : Cursor) : DirEntry := fs.entryAt c.sector c.de

/- The first entry of a sector; sector 0 is the end. -/
def FatFs.sectorStart (fs : FatFs) (sector : Nat) : Except Cursor Cursor :=
  let c : Cursor := ⟨sector,0,fs.perSector - 1⟩
  if sector = 0 then .error c else .ok c

def FatFs.advance (fs : FatFs) (c : Cursor) : Except Cursor Cursor :=
  if c.left = 0 then fs.sectorStart (getNextSector fs c.sector) else .ok ⟨c.sector,c.de + 32,c.left - 1⟩

structure FindLocals where
  longName : Units
  longLen : Nat
  vfatNext : Nat
  vfatCsum : UInt8
  longMatch : Bool

def FindLocals.notMatch (l : FindLocals) (vfatInit : Nat) : FindLocals := { l with vfatNext := vfatInit, longMatch := false }

def findSlot (codepage : Codepage) (dname : Bytes) (vfatInit : Nat) (l : FindLocals) (id : Nat) (de : DirEntry) :
    Turn FindLocals Bool :=
  let id := (id + 255) % 256
  match copyLongChunk l.longName (id*13) de with
  | none => .fault
  | some longName =>
      let l := { l with vfatNext := id, longName := longName }
      if id ≠ 0 then .next l
      else match vfatMatchLongname codepage dname longName l.longLen with
        | none => .fault
        | some false => .next (l.notMatch vfatInit)
        | some true => .next { l with longMatch := true }

/- One entry in vfat_find_entry: it stops at the end of the directory, or where it has found. -/
def findTurn (codepage : Codepage) (dname mangledName : Bytes) (vfatInit : Nat) (l : FindLocals) (de : DirEntry) :
    Turn FindLocals Bool :=
  if de 0 = 0 then .stop false
  else if de.isLong then
    let id := de.id
    if id ≠ l.vfatNext then .next (l.notMatch vfatInit)
    else if id / 0x40 % 2 = 1 then
      let l := { l with vfatCsum := de.checksum, longLen := id % 0x40*13, longName := l.longName.zero }
      findSlot codepage dname vfatInit l (id % 0x40) de
    else if de.checksum ≠ l.vfatCsum then .next (l.notMatch vfatInit)
    else findSlot codepage dname vfatInit l id de
  else if de.isVolume then .next (l.notMatch vfatInit)
  else if l.longMatch then
    -- The match is only valid if the checksum matches.
    if getChecksum de.name = l.vfatCsum then .stop true else .next (l.notMatch vfatInit)
  else if mangledName = de.name then .stop true
  else .next (l.notMatch vfatInit)

inductive DirentType where
  | dir | reg
  deriving DecidableEq, Repr

def getInodeMode (attr : UInt8) : DirentType := if attr &&& attrDirectory ≠ 0 then .dir else .reg

/- An inode as vfat_find_entry fills it in. -/
structure Inode where
  size : Nat
  startCluster : Nat
  start : Nat
  here : Nat
  mode : DirentType
  deriving DecidableEq, Repr

/- The first cluster as an int, sign-extended to 64 bits. -/
def DirEntry.firstClust (de : DirEntry) : Nat :=
  let n := de.firstClusterHigh*2^16 + de.firstClusterLow
  if n < 2^31 then n else 2^64 - 2^32 + n

def firstSector (fs : FatFs) (de : DirEntry) : Nat :=
  if de.firstClust = 0 then fs.vol.root
  else (sub64 de.firstClust 2*fs.vol.clusterSecs % 2^64 + fs.vol.data) % 2^64

def rootInodeSize (v : Volume) : Nat := if v.rootSize ≠ 0 then v.rootSize*2^v.sectorShift else 2^64 - 1

def foundInode (fs : FatFs) (de : DirEntry) : Inode :=
  let startCluster := de.firstClust % 2^32
  if startCluster = 0 then
    ⟨rootInodeSize fs.vol,fs.rootCluster,fs.vol.root,fs.vol.root,getInodeMode de.attr⟩
  else ⟨de.fileSize,startCluster,firstSector fs de,firstSector fs de,getInodeMode de.attr⟩

inductive Lookup where
  | found (inode : Inode)
  | null
  | fault
  deriving DecidableEq, Repr

def findLocals (stack : Nat → Nat) (slots : Nat) : FindLocals := ⟨⟨260,stack⟩,slots*13,slots,0,false⟩

def lookupOf (fs : FatFs) : Outcome Cursor FindLocals Bool → Lookup
  | .stopped c true => .found (foundInode fs (fs.entry c))
  | .stopped _ false => .null
  | .ended _ _ => .null
  | .fault => .fault

def vfatFindEntry (fs : FatFs) (stack : Nat → Nat) (dname : Bytes) (start fuel : Nat) : Option Lookup :=
  let slots := (dname.length + 12) / 13
  if 20 < slots then some .null
  else
    let slots := slots ||| 0x40
    let mangledName := mangleDosName fs.codepage dname
    (scan fs.entry fs.advance (findTurn fs.codepage dname mangledName slots) fuel (fs.sectorStart start)
      (findLocals stack slots)).map (lookupOf fs)

/- An open directory: where it starts, the sector it is at, and the offset in it. -/
structure DirFile where
  start : Nat
  pvtOffset : Nat
  here : Nat
  offset : Nat
  deriving DecidableEq, Repr

/- The loop of get_the_right_sector. -/
def seekSector (fs : FatFs) : Nat → Nat → Nat
  | 0,sector => sector
  | left+1,sector => seekSector fs left (getNextSector fs sector)

def getTheRightSector (fs : FatFs) (file : DirFile) : DirFile :=
  let sectorPos := file.offset / 2^fs.vol.sectorShift
  let (at',sector) := if sectorPos < file.pvtOffset then (0,file.start) else (file.pvtOffset % 2^32,file.here)
  { file with pvtOffset := sectorPos, here := seekSector fs (sectorPos - at') sector }

def nextSector (fs : FatFs) (file : DirFile) : DirFile :=
  { file with pvtOffset := (file.pvtOffset + 1) % 2^64, here := getNextSector fs file.here }

/- The cursor of vfat_readdir, with the directory it moves along in. -/
structure ReadCursor where
  file : DirFile
  de : Nat
  left : Nat
  deriving DecidableEq, Repr

def FatFs.readEntry (fs : FatFs) (c : ReadCursor) : DirEntry := fs.entryAt c.file.here c.de

def FatFs.readSector (fs : FatFs) (file : DirFile) : Except ReadCursor ReadCursor :=
  let c : ReadCursor := ⟨nextSector fs file,0,fs.perSector - 1⟩
  if c.file.here = 0 then .error c else .ok c

def FatFs.readAdvance (fs : FatFs) (c : ReadCursor) : Except ReadCursor ReadCursor :=
  let file := { c.file with offset := add32 c.file.offset 32 }
  if c.left = 0 then fs.readSector file else .ok ⟨file,c.de + 32,c.left - 1⟩

def FatFs.readStart (fs : FatFs) (file : DirFile) : Except ReadCursor ReadCursor :=
  let secOff := file.offset % 2^fs.vol.sectorShift
  let file := getTheRightSector fs file
  let entriesLeft := (2^fs.vol.sectorShift - secOff) / 32
  if entriesLeft = 0 then fs.readSector file else .ok ⟨file,secOff,entriesLeft - 1⟩

structure ReadLocals where
  longName : Units
  filename : Bytes
  nameLen : Int
  vfatNext : Nat
  vfatCsum : UInt8
  longEntry : Bool
  unicache : Unicache

def ReadLocals.invalid (l : ReadLocals) : ReadLocals := { l with longEntry := false }

def sizeofName : Nat := 256

def readSlot (codepage : Codepage) (l : ReadLocals) (id : Nat) (de : DirEntry) : Turn ReadLocals (ReadLocals × Bool) :=
  let id := (id + 255) % 256
  match copyLongChunk l.longName (id*13) de with
  | none => .fault
  | some longName =>
      let l := { l with vfatNext := id, longName := longName }
      if id ≠ 0 then .next l
      else match vfatCvtLongname codepage l.unicache longName with
        | none => .fault
        | some (nameLen,filename,unicache) =>
            .next { l with
              nameLen := nameLen
              filename := filename
              unicache := unicache
              longEntry := l.longEntry || decide (0 < nameLen ∧ nameLen < sizeofName) }

def shortPart (codepage : Codepage) (lower : Bool) (name : Bytes) : Bytes :=
  (name.takeWhile (· != space)).map fun c => if lower then codepage.lower c else c

def shortName (codepage : Codepage) (de : DirEntry) : Bytes :=
  shortPart codepage (de.lcase &&& lcaseBase != 0) (de.name.take 8) ++
    if de 8 ≠ space then dot::shortPart codepage (de.lcase &&& lcaseExt != 0) (de.name.drop 8) else []

/- One entry in vfat_readdir: it stops at the end of the directory, or where it got something. -/
def readTurn (codepage : Codepage) (l : ReadLocals) (de : DirEntry) : Turn ReadLocals (ReadLocals × Bool) :=
  if de 0 = 0 then .stop (l,false)
  else if de 0 = deleted then .next l.invalid
  else if de.isLong then
    let id := de.id
    if id / 0x40 % 2 = 1 then
      let l := { l with vfatCsum := de.checksum }
      -- Too long.
      if 20 ≤ id % 0x40 then .next l.invalid
      else readSlot codepage { l with longName := l.longName.zero } (id % 0x40) de
    else if de.checksum ≠ l.vfatCsum ∨ id ≠ l.vfatNext then .next l.invalid
    else readSlot codepage l id de
  else if de.isVolume then .next l.invalid
  else if l.longEntry ∧ getChecksum de.name = l.vfatCsum then .stop (l,true)
  else
    let p := shortName codepage de
    .stop ({ l with filename := p ++ [0], nameLen := p.length },true)

structure Dirent where
  dIno : Nat
  dOff : Nat
  dReclen : Int
  dType : DirentType
  dName : Bytes
  deriving DecidableEq, Repr

def offsetofName : Nat := 12

def direntOf (l : ReadLocals) (offset : Nat) (de : DirEntry) : Dirent :=
  let nameLen := l.nameLen + 1
  ⟨de.firstClusterLow + de.firstClusterHigh*2^16,offset,offsetofName + nameLen,getInodeMode de.attr,
    l.filename.take nameLen.toNat⟩

/- What vfat_readdir returns, with the directory and the cache behind it; without an entry
it returns -1. -/
inductive Readdir where
  | done (dirent : Option Dirent) (file : DirFile) (unicache : Unicache)
  | fault

def readLocals (stack : Nat → Nat) (unicache : Unicache) : ReadLocals := ⟨⟨261,stack⟩,[],0,0xff,0xff,false,unicache⟩

def readdirOf (fs : FatFs) : Outcome ReadCursor ReadLocals (ReadLocals × Bool) → Readdir
  | .stopped c (l,true) =>
      .done (some (direntOf l c.file.offset (fs.readEntry c))) { c.file with offset := add32 c.file.offset 32 } l.unicache
  | .stopped c (l,false) => .done none c.file l.unicache
  | .ended c l => .done none c.file l.unicache
  | .fault => .fault

def vfatReaddir (fs : FatFs) (stack : Nat → Nat) (unicache : Unicache) (file : DirFile) (fuel : Nat) : Option Readdir :=
  (scan fs.readEntry fs.readAdvance (readTurn fs.codepage) fuel (fs.readStart file) (readLocals stack unicache)).map
    (readdirOf fs)

end Syslinux.FatDir
