import Mathlib.Tactic

/-! Disk and partition iteration of com32/chain/partiter.c: MBR partitions with the chain of
extended boot records behind them, and GPT partitions. Sectors are read through the firmware
and checksums computed by zlib; both are parameters, as is the outcome of malloc. Reading
through a null pointer has no result. What is printed on stderr is kept with the iterator. -/
namespace Syslinux.Partiter

abbrev Buffer := Int → UInt8

def le (b : Buffer) (off : Int) : Nat → Nat
  | 0 => 0
  | n+1 => (b off).toNat + 256 * le b (off+1) n

inductive Status where
  | errload
  | insane
  | ok
  | done
  deriving DecidableEq, Repr

structure Flags where
  stepall : Bool
  prefmbr : Bool
  strict : Bool
  stricter : Bool
  deriving DecidableEq, Repr

inductive Alloc where
  | partIter
  | mbr
  | list (siz : Nat)
  deriving DecidableEq, Repr

/- struct disk_info as far as it is used here, the firmware's read call for the disk, whether
malloc finds memory for each use here, and crc32 of zlib. -/
structure Disk where
  bps : Nat
  lbacnt : Nat
  int13 : Nat → Nat → Option Buffer
  malloc : Alloc → Bool
  crc32 : Buffer → Nat → Nat

def diskReadSectors (d : Disk) (lba count : Nat) : Option Buffer :=
  let count := count % 2^8
  let maxcnt := (65536 - d.bps) / d.bps
  if count = 0 ∨ maxcnt < count ∨ d.lbacnt < (lba + count) % 2^64 then none else d.int13 lba count

structure Dos where
  diskSig : Nat
  bebrLba : Nat
  bebrSiz : Nat
  cebrLba : Nat
  cebrSiz : Nat
  nebrLba : Nat
  nebrSiz : Nat
  bebrIndex0 : Int
  logskipcnt : Int

structure Gpt where
  diskGuid : List UInt8
  peCount : Int
  peSize : Int
  ufirst : Nat
  ulast : Nat

/- The two members of the GPT part of the union that describe the entry reached. -/
structure GptPart where
  partGuid : List UInt8
  partLabel : List UInt8

/- The part of struct part_iter that says where the iterator stands, for the member of the
union in use, and what has been printed. -/
structure Cursor (Union : Type) where
  data : Option Buffer
  index0 : Int
  status : Status
  u : Union
  said : List String

/- The rest of it describes the entry reached. `record` is a distance from `data`. -/
structure PartIter (Union Part : Type) extends Cursor Union where
  flags : Flags
  index : Int
  absLba : Nat
  length : Nat
  record : Option Int
  part : Part

inductive Iter where
  | typedos (it : PartIter Dos Unit)
  | typegpt (it : PartIter Gpt GptPart)
  | typeraw (it : PartIter Unit Unit)

def Cursor.error {U : Type} (c : Cursor U) (status : Status) (text : String) : Cursor U :=
  { c with status := status, said := c.said ++ ["ERR: " ++ text] }

/- struct disk_dos_part_entry at a distance from the start of a sector. -/
def tableEntry (i : Int) : Int := 446 + 16 * i
def ostype (b : Buffer) (dp : Int) : Nat := (b (dp+4)).toNat
def startLba (b : Buffer) (dp : Int) : Nat := le b (dp+8) 4
def partLength (b : Buffer) (dp : Int) : Nat := le b (dp+12) 4

def ostIsExt (type : Nat) : Bool := type == 0x05 || type == 0x0F || type == 0x85
def ostIsNondata (type : Nat) : Bool := ostIsExt type || type == 0x00

def sane32 (s l : Nat) : Bool := decide (s < (s + l) % 2^32)
def sane64 (s l : Nat) : Bool := decide (s < (s + l) % 2^64)

def notsaneLogical (f : Flags) (data : Buffer) (nebrSiz : Nat) : Option String :=
  let dp := tableEntry 0
  if ostype data dp = 0 then none else
  if ostIsExt (ostype data dp) then some "The 1st EBR entry must be data or empty." else
  if !f.strict then none else
  let endLog := (startLba data dp + partLength data dp) % 2^32
  if startLba data dp = 0 ∨ partLength data dp = 0 ∨ !sane32 (startLba data dp) (partLength data dp) ∨
      nebrSiz < endLog then
    some "Logical partition (in EBR) with invalid offset and/or length."
  else none

def notsaneExtended (f : Flags) (data : Buffer) (bebrSiz : Nat) : Option String :=
  let dp := tableEntry 1
  if ostype data dp = 0 then none else
  if !ostIsNondata (ostype data dp) then some "The 2nd EBR entry must be extended or empty." else
  if !f.strict then none else
  let endEbr := (startLba data dp + partLength data dp) % 2^32
  if startLba data dp = 0 ∨ partLength data dp = 0 ∨ !sane32 (startLba data dp) (partLength data dp) ∨
      bebrSiz < endEbr then
    some "Extended partition (EBR) with invalid offset and/or length."
  else none

def notsanePrimary (d : Disk) (f : Flags) (data : Buffer) (index0 : Int) : Option String :=
  let dp := tableEntry index0
  if ostype data dp = 0 then none else
  if !f.strict then none else
  if startLba data dp = 0 ∨ partLength data dp = 0 ∨ !sane32 (startLba data dp) (partLength data dp) ∨
      (f.stricter ∧ d.lbacnt < (startLba data dp + partLength data dp) % 2^32) then
    some "Primary partition (in MBR) with invalid offset and/or length."
  else none

/- What dos_next_mbr and dos_next_ebr leave in *lba and *_dp. -/
inductive Found where
  | failed
  | nothing
  | part (lba : Nat) (dp : Int)

/- The entry at `index0` is checked, and an extended partition noted. -/
def mbrEntry (d : Disk) (f : Flags) (c : Cursor Dos) (data : Buffer) : Cursor Dos × Bool :=
  let type := ostype data (tableEntry c.index0)
  match notsanePrimary d f data c.index0 with
  | some text => (c.error .insane text,false)
  | none =>
    if ostIsExt type then
      if 0 ≤ c.u.bebrIndex0 then (c.error .insane "More than 1 extended partition.",false)
      else ({ c with u := { c.u with bebrIndex0 := c.index0 } },true)
    else (c,true)

/- `while (++iter->index0 < 4)`; the first argument is the number of turns left. -/
@[grind =] def mbrTurns (d : Disk) (f : Flags) : Nat → Cursor Dos → Option (Cursor Dos × Found)
  | 0,_ => none
  | turns+1,c =>
    let c := { c with index0 := c.index0 + 1 }
    if c.index0 < 4 then do
      let data ← c.data
      let dp := tableEntry c.index0
      match mbrEntry d f c data with
      | (c,false) => some (c,.failed)
      | (c,true) =>
        if !ostIsNondata (ostype data dp) || f.stepall then some (c,.part (startLba data dp) dp)
        else mbrTurns d f turns c
    else some (c,.nothing)

def dosNextMbr (d : Disk) (f : Flags) (c : Cursor Dos) : Option (Cursor Dos × Found) :=
  mbrTurns d f (4 - c.index0).toNat c

def setBaseEbr (c : Cursor Dos) (data : Buffer) : Cursor Dos :=
  let dp := tableEntry c.u.bebrIndex0
  { c with
    index0 := c.index0 - 1
    u := { c.u with
      bebrLba := startLba data dp
      bebrSiz := partLength data dp
      nebrLba := startLba data dp
      nebrSiz := partLength data dp } }

def prepBaseEbr (c : Cursor Dos) : Option (Cursor Dos × Int) :=
  if c.u.bebrIndex0 < 0 then some (c,-1)
  else if c.u.bebrLba = 0 then c.data.map (fun data => (setBaseEbr c data,0))
  else some (c,0)

/- The EBR at `nebr_lba` is loaded and checked, and the next frame set up from it. -/
def ebrEntry (d : Disk) (f : Flags) (c : Cursor Dos) : Cursor Dos × Option Buffer :=
  match diskReadSectors d c.u.nebrLba 1 with
  | none => ({ c with data := none }.error .errload "Couldn't load EBR.",none)
  | some data =>
    let c := { c with data := some data }
    match (notsaneLogical f data c.u.nebrSiz).or (notsaneExtended f data c.u.bebrSiz) with
    | some text => (c.error .insane text,none)
    | none =>
      let u := { c.u with cebrLba := c.u.nebrLba, cebrSiz := c.u.nebrSiz }
      let u := if ostype data (tableEntry 1) ≠ 0 then
          { u with
            nebrLba := (u.bebrLba + startLba data (tableEntry 1)) % 2^32
            nebrSiz := partLength data (tableEntry 1) }
        else { u with nebrLba := 0, nebrSiz := 0 }
      let u := if ostype data (tableEntry 0) = 0 then { u with logskipcnt := u.logskipcnt + 1 } else u
      ({ c with u := u },some data)

/- `while (++iter->index0 < 1024 && iter->dos.nebr_lba)` -/
@[grind =] def ebrTurns (d : Disk) (f : Flags) : Nat → Cursor Dos → Option (Cursor Dos × Found)
  | 0,_ => none
  | turns+1,c =>
    let c := { c with index0 := c.index0 + 1 }
    if c.index0 < 1024 ∧ c.u.nebrLba ≠ 0 then
      match ebrEntry d f c with
      | (c,none) => some (c,.failed)
      | (c,some data) =>
        let dp := tableEntry 0
        if ostype data dp ≠ 0 ∨ f.stepall then
          some (c,.part (if startLba data dp ≠ 0 then (c.u.cebrLba + startLba data dp) % 2^32 else 0) dp)
        else ebrTurns d f turns c
    else some ({ c with status := .done },.failed)

def dosNextEbr (d : Disk) (f : Flags) (c : Cursor Dos) : Option (Cursor Dos × Found) := do
  let (c,r) ← prepBaseEbr c
  if r < 0 then some ({ c with status := .done },.failed)
  else ebrTurns d f (max 1 (1024 - c.index0).toNat) c

/- pi_dos_next after its search for primary partitions: the logical ones come next. -/
def thenLogical (d : Disk) (f : Flags) : Cursor Dos × Found → Option (Cursor Dos × Found)
  | (c,.failed) => some (c,.failed)
  | (c,found) => if 4 ≤ c.index0 then dosNextEbr d f c else some (c,found)

def dosSearch (d : Disk) (f : Flags) (c : Cursor Dos) : Option (Cursor Dos × Found) :=
  (if c.index0 < 4 then dosNextMbr d f c else some (c,.nothing)).bind (thenLogical d f)

def piDosNext (d : Disk) (it : PartIter Dos Unit) : Option (PartIter Dos Unit) := do
  if it.status ≠ .ok then some it else
  match ← dosSearch d it.flags it.toCursor with
  | (c,.failed) => some { it with toCursor := c }
  | (_,.nothing) => none
  | (c,.part lba dp) =>
    let data ← c.data
    some { it with
      toCursor := c
      index := if ostype data dp = 0 then -1 else c.index0 + 1 - c.u.logskipcnt
      absLba := lba
      length := partLength data dp
      record := some dp }

/- struct disk_gpt_part_entry at a distance from the start of the list. The product is an int. -/
def gptEntry (g : Gpt) (index0 : Int) : Int := Int.bmod (index0 * g.peSize) (2^32)
def guidIs0 (b : Buffer) (gp : Int) : Bool :=
  le b gp 4 == 0 && le b (gp+4) 2 == 0 && le b (gp+6) 2 == 0 && le b (gp+8) 8 == 0
def lbaFirst (b : Buffer) (gp : Int) : Nat := le b (gp+32) 8
def lbaLast (b : Buffer) (gp : Int) : Nat := le b (gp+40) 8
def bytes (b : Buffer) (off : Int) (n : Nat) : List UInt8 := (List.range n).map (fun i => b (off + i))

def notsaneGpt (f : Flags) (data : Buffer) (g : Gpt) (index0 : Int) : Option String :=
  let gp := gptEntry g index0
  if guidIs0 data gp then none else
  if !f.strict then none else
  if lbaFirst data gp < g.ufirst ∨ g.ulast < lbaLast data gp then
    some "LBA sectors of GPT partition are beyond the range allowed in GPT header."
  else none

/- The low byte of each of the 36 characters of the name, and a zero. -/
def gptConvLabel (data : Buffer) (gp : Int) : List UInt8 :=
  (List.range 36).map (fun i => data (gp + 56 + 2 * i)) ++ [0]

/- `while (++iter->index0 < iter->gpt.pe_count)`, with the pointer to the entry last looked at. -/
@[grind =] def gptTurns (f : Flags) : Nat → Cursor Gpt → Option Int → Option (Cursor Gpt × Option Int)
  | 0,_,_ => none
  | turns+1,c,part =>
    let c := { c with index0 := c.index0 + 1 }
    if c.index0 < c.u.peCount then do
      let data ← c.data
      let gp := gptEntry c.u c.index0
      match notsaneGpt f data c.u c.index0 with
      | some text => some (c.error .insane text,some gp)
      | none => if !guidIs0 data gp || f.stepall then some (c,some gp) else gptTurns f turns c (some gp)
    else some (c,part)

def gptSearch (f : Flags) (c : Cursor Gpt) : Option (Cursor Gpt × Option Int) :=
  gptTurns f (max 1 (c.u.peCount - c.index0).toNat) c none

def piGptNext (it : PartIter Gpt GptPart) : Option (PartIter Gpt GptPart) := do
  if it.status ≠ .ok then some it else
  let (c,part) ← gptSearch it.flags it.toCursor
  if c.status ≠ .ok then some { it with toCursor := c } else
  if c.index0 = c.u.peCount then some { it with toCursor := { c with status := .done } } else
  let gp ← part
  let data ← c.data
  some { it with
    toCursor := c
    index := c.index0 + 1
    absLba := lbaFirst data gp
    length := ((lbaLast data gp + 2^64 - lbaFirst data gp) + 1) % 2^64
    record := some gp
    part := ⟨bytes data (gp+16) 16,gptConvLabel data gp⟩ }

def piRawNext (it : PartIter Unit Unit) : PartIter Unit Unit := { it with status := .done }

def piNext (d : Disk) : Iter → Option Iter
  | .typedos it => (piDosNext d it).map .typedos
  | .typegpt it => (piGptNext it).map .typegpt
  | .typeraw it => some (.typeraw (piRawNext it))

def warn (text : String) : String := "WARN: " ++ text
def err (text : String) : String := "ERR: " ++ text
def critm : String := "CRIT: Malloc failure."

/- Fields of struct disk_gpt_header. -/
def gptSig (h : Buffer) : List UInt8 := bytes h 0 8
def gptRev (h : Buffer) : Nat := le h 8 4
def hdrSize (h : Buffer) : Nat := le h 12 4
def chksum (h : Buffer) : Nat := le h 16 4
def lbaCur (h : Buffer) : Nat := le h 24 8
def lbaAlt (h : Buffer) : Nat := le h 32 8
def lbaFirstUsable (h : Buffer) : Nat := le h 40 8
def lbaLastUsable (h : Buffer) : Nat := le h 48 8
def headerGuid (h : Buffer) : List UInt8 := bytes h 56 16
def lbaTable (h : Buffer) : Nat := le h 72 8
def partCount (h : Buffer) : Nat := le h 80 4
def partSize (h : Buffer) : Nat := le h 84 4
def tableChksum (h : Buffer) : Nat := le h 88 4

def diskGptSigMagic : List UInt8 := [0x45,0x46,0x49,0x20,0x50,0x41,0x52,0x54]

def validCrc (d : Disk) (crc : Nat) (buf : Buffer) (siz : Nat) : Bool := crc == d.crc32 buf (siz % 2^32)

def validCrcHdr (d : Disk) (h : Buffer) : Bool :=
  chksum h == d.crc32 (fun off => if 16 ≤ off ∧ off < 20 then 0 else h off) (hdrSize h)

def tryGptWe (text : String) (sec : Bool) : String := if sec then err text else warn text

def tryGptHdr (d : Disk) (sec : Bool) : Option Buffer × List String :=
  let desc := if sec then "backup" else "primary"
  let gptCur := if sec then (d.lbacnt + 2^64 - 1) % 2^64 else 1
  match diskReadSectors d gptCur 1 with
  | none => (none,[tryGptWe ("Unable to read " ++ desc ++ " GPT header.") sec])
  | some gpth =>
    if !validCrcHdr d gpth then (none,[tryGptWe ("Invalid checksum of " ++ desc ++ " GPT header.") sec])
    else (some gpth,[])

def gptLsiz (h : Buffer) : Nat := partSize h * partCount h % 2^64
def gptLcnt (d : Disk) (h : Buffer) : Nat := (gptLsiz h + d.bps + 2^64 - 1) % 2^64 / d.bps

def tryGptList (d : Disk) (gpth : Buffer) (alt : Bool) : Option Buffer × List String :=
  let pri := lbaCur gpth < lbaAlt gpth
  let desc := if alt then "alternative" else "main"
  let gptLoff :=
    if !alt then lbaTable gpth
    else if ¬pri then (lbaAlt gpth + 1) % 2^64
    else (lbaAlt gpth + 2^64 - gptLcnt d gpth) % 2^64
  match diskReadSectors d gptLoff (gptLcnt d gpth) with
  | none => (none,[tryGptWe ("Unable to read " ++ desc ++ " GPT partition list.") alt])
  | some gptl =>
    if !validCrc d (tableChksum gpth) gptl (gptLsiz gpth) then
      (none,[tryGptWe ("Invalid checksum of " ++ desc ++ " GPT partition list.") alt])
    else (some gptl,[])

def notsaneGptHdr (d : Disk) (gpth : Buffer) (f : Flags) : Bool :=
  if !f.strict then false else
  let gptSec := if lbaAlt gpth < lbaCur gpth then lbaCur gpth else lbaAlt gpth
  let gptLoff := lbaTable gpth
  let gptEnd := (gptLoff + gptLcnt d gpth) % 2^64
  decide (gptLoff < 2 ∨ gptLsiz gpth = 0 ∨ 255 < gptLcnt d gpth ∨ lbaLastUsable gpth < lbaFirstUsable gpth ∨
    !sane64 gptLoff (gptLcnt d gpth) ∨
    (lbaFirstUsable gpth < gptEnd ∧ gptLoff ≤ lbaLastUsable gpth) ∨ gptSec < gptEnd ∨
    (f.stricter ∧ d.lbacnt ≤ gptSec) ∨ partSize gpth < 128)

def piCtor {U P : Type} (d : Disk) (f : Flags) (u : U) (part : P) (data : Option Buffer) (said : List String) :
    PartIter U P :=
  { data := data, index0 := -1, status := .ok, u := u, said := said, flags := f,
    index := 0, absLba := 0, length := d.lbacnt, record := none, part := part }

def piDosCtor (d : Disk) (f : Flags) (mbr : Buffer) (said : List String) : Option Iter × List String :=
  if !d.malloc .mbr then (none,said ++ [critm]) else
  (some (.typedos (piCtor d f ⟨le mbr 440 4,0,0,0,0,0,0,-1,0⟩ () (some mbr) said)),said)

/- (int) of a uint32_t. -/
def toInt (n : Nat) : Int := Int.bmod n (2^32)

def piGptCtor (d : Disk) (f : Flags) (gpth gptl : Buffer) (said : List String) : Option Iter × List String :=
  if !d.malloc (.list (gptLsiz gpth % 2^32)) then (none,said ++ [critm]) else
  let gpt : Gpt :=
    { diskGuid := headerGuid gpth, peCount := toInt (partCount gpth), peSize := toInt (partSize gpth),
      ufirst := lbaFirstUsable gpth, ulast := lbaLastUsable gpth }
  (some (.typegpt (piCtor d f gpt ⟨headerGuid gpth,List.replicate 37 0⟩ (some gptl) said)),said)

/- The header, from its backup when the first copy is no good; nothing at all is looked for
unless the MBR is a protective one. -/
def findGptHdr (d : Disk) (isgpt : Bool) : Option (Option Buffer) × List String :=
  if !isgpt then (some none,[]) else
  match tryGptHdr d false with
  | (some gpth,said) => (some (some gpth),said)
  | (none,said) =>
    match tryGptHdr d true with
    | (some gpth,more) => (some (some gpth),said ++ more)
    | (none,more) => (none,said ++ more)

def findGptList (d : Disk) (gpth : Buffer) : Option Buffer × List String :=
  match tryGptList d gpth false with
  | (some gptl,said) => (some gptl,said)
  | (none,said) =>
    match tryGptList d gpth true with
    | (gptl,more) => (gptl,said ++ more)

def piBegin (d : Disk) (f : Flags) : Option Iter × List String :=
  if !d.malloc .partIter then (none,[critm]) else
  match diskReadSectors d 0 1 with
  | none => (none,[err "Unable to read the first disk sector."])
  | some mbr =>
    if le mbr 510 2 ≠ 0xAA55 then
      let said := [warn "No MBR magic, treating disk as raw."]
      (some (.typeraw (piCtor d f () () none said)),said)
    else
      let isgpt := (List.range 4).any (fun i => ostype mbr (tableEntry i) == 0xEE) && !f.prefmbr
      match findGptHdr d isgpt with
      | (none,said) => (none,said)
      | (some header,said) =>
        match header with
        | none => piDosCtor d f mbr said
        | some gpth =>
          if gptRev gpth = 0x00010000 ∧ gptSig gpth = diskGptSigMagic then
            if notsaneGptHdr d gpth f then (none,said ++ [err "GPT header values are corrupted."]) else
            match findGptList d gpth with
            | (none,more) => (none,said ++ more)
            | (some gptl,more) => piGptCtor d f gpth gptl (said ++ more)
          else piDosCtor d f mbr said

/- The sector try_gpt_list reads from; with the count of sectors a variable, what it makes of what it reads. -/
def gptLoff (d : Disk) (gpth : Buffer) (alt : Bool) : Nat :=
  if !alt then lbaTable gpth
  else if ¬(lbaCur gpth < lbaAlt gpth) then (lbaAlt gpth + 1) % 2^64
  else (lbaAlt gpth + 2^64 - gptLcnt d gpth) % 2^64

def listFrom (d : Disk) (gpth : Buffer) (gptLoff count : Nat) (_count : count = gptLcnt d gpth) (alt : Bool) :
    Option Buffer × List String :=
  let desc := if alt then "alternative" else "main"
  match diskReadSectors d gptLoff count with
  | none => (none,[tryGptWe ("Unable to read " ++ desc ++ " GPT partition list.") alt])
  | some gptl =>
    if !validCrc d (tableChksum gpth) gptl (gptLsiz gpth) then
      (none,[tryGptWe ("Invalid checksum of " ++ desc ++ " GPT partition list.") alt])
    else (some gptl,[])

def eitherList (d : Disk) (gpth : Buffer) (list : Bool → Option Buffer × List String) (_list : list = tryGptList d gpth) :
    Option Buffer × List String :=
  match list false with
  | (some gptl,said) => (some gptl,said)
  | (none,said) =>
    match list true with
    | (gptl,more) => (gptl,said ++ more)

section
-- What a read comes to is not to be computed here: its arguments are expressions in 2^64.
attribute [local irreducible] diskReadSectors gptLcnt

theorem tryGptListFrom (d : Disk) (gpth : Buffer) (alt : Bool) : tryGptList d gpth alt = listFrom d gpth
    (if !alt then lbaTable gpth else if ¬(lbaCur gpth < lbaAlt gpth) then (lbaAlt gpth + 1) % 2^64
      else (lbaAlt gpth + 2^64 - gptLcnt d gpth) % 2^64) (gptLcnt d gpth) rfl alt := rfl

attribute [local irreducible] tryGptList

theorem findGptListEither (d : Disk) (gpth : Buffer) : findGptList d gpth = eitherList d gpth (tryGptList d gpth) rfl := rfl

end

theorem listFromEq {d : Disk} {gpth : Buffer} {loff count : Nat} {alt : Bool} (same : count = gptLcnt d gpth) :
    (listFrom d gpth loff count same alt).1 =
      (diskReadSectors d loff count).filter fun gptl => validCrc d (tableChksum gpth) gptl (gptLsiz gpth) := by
  unfold listFrom
  generalize diskReadSectors d loff count = read
  cases read with
  | none => rfl
  | some gptl => cases valid : validCrc d (tableChksum gpth) gptl (gptLsiz gpth) <;> simp [Option.filter,valid]

theorem tryGptListEq (d : Disk) (gpth : Buffer) (alt : Bool) : (tryGptList d gpth alt).1 =
    (diskReadSectors d (gptLoff d gpth alt) (gptLcnt d gpth)).filter fun gptl => validCrc d (tableChksum gpth) gptl (gptLsiz gpth) := by
  rw [tryGptListFrom,listFromEq,← gptLoff]

theorem eitherListEq {d : Disk} {gpth : Buffer} {list : Bool → Option Buffer × List String} (same : list = tryGptList d gpth) :
    (eitherList d gpth list same).1 = (list false).1.or (list true).1 := by
  unfold eitherList
  generalize list false = main
  obtain ⟨gptl,said⟩ := main
  cases gptl <;> rfl

theorem findGptListEq (d : Disk) (gpth : Buffer) : (findGptList d gpth).1 = (tryGptList d gpth false).1.or (tryGptList d gpth true).1 := by
  rw [findGptListEither,eitherListEq]

end Syslinux.Partiter
