import Syslinux.Fat

/-! The System Use entries of a directory record: the iterator of core/fs/iso9660/susp_rr.c
and susp_rr_get_entries. How blocks are read is left open, so that the state of the cache
may be carried along. size_t has 32 bits. -/
namespace Syslinux.Susp
open Fat (le32)

/- get_cache and the bytes at the pointer it returns; and what lies behind memory that has
been allocated. -/
structure Reader (σ δ : Type) where
  get : σ → Nat → σ × δ
  byte : δ → Nat → UInt8
  behind : Nat → UInt8

/- The fields of struct iso_sb_info that susp_rr.c sets. -/
structure SbInfo where
  doRr : Nat
  suspSkip : Nat
  deriving DecidableEq, Repr

/- struct susp_rr_iter. ce_data is given by its blocks. The last two fields are not in the
source: they keep the bounds of the area that is read, as they were announced. -/
structure Iter (δ : Type) where
  inCe : Bool
  ceData : List δ
  readPos : Nat
  readEnd : Nat
  nextLba : Nat
  nextOffset : Nat
  nextLength : Nat
  areaOffset : Nat
  areaLength : Nat
  deriving DecidableEq

/- An entry is known by the iterator at it; a read by the entry and the offset in it. -/
inductive Outcome (δ : Type) where
  | failed
  | over'
  | found (pos next : Iter δ)

structure Result (σ δ : Type) where
  state : σ
  ret : Int
  data : Option (List UInt8)
  reads : List (Iter δ × Nat)

def letterC : UInt8 := 0x43
def letterE : UInt8 := 0x45
def letterS : UInt8 := 0x53
def letterT : UInt8 := 0x54

section
variable {σ δ : Type} (r : Reader σ δ) (dirRec : Nat → UInt8)

def ceByte : List δ → Nat → UInt8
  | [d],pos => r.byte d pos
  | ds,pos =>
      match ds[pos / 2048]? with
      | some d => r.byte d (pos % 2048)
      | none => r.behind pos

def Iter.byte (it : Iter δ) (i : Nat) : UInt8 :=
  if it.inCe then ceByte r it.ceData (it.readPos + i) else dirRec (it.readPos + i)

def suspRrIterNew (suspSkip : Nat) : Option (Iter δ) :=
  let lenFi := (dirRec 32).toNat
  let readPos := 33 + lenFi + (if lenFi % 2 = 0 then 1 else 0) + suspSkip
  let readEnd := (dirRec 0).toNat
  if readEnd < readPos + 4 then none
  else if dirRec (readPos + 3) ≠ 1 then none
  else some ⟨false,[],readPos,readEnd,0,0,0,0,readEnd⟩

def getBlocks : σ → Nat → Nat → σ × List δ
  | s,_,0 => (s,[])
  | s,lba,n+1 =>
      let (s,d) := r.get s lba
      let (s,ds) := getBlocks s (lba + 1) n
      (s,d::ds)

/- The blocks of a Continuation Area, unless there are more than 50. -/
def numBlocks (it : Iter δ) : Nat := add32 (add32 it.nextOffset it.nextLength) 2047 / 2048

def suspRrSwitchToCa (s : σ) (it : Iter δ) : Option (σ × Iter δ) :=
  if 50 < numBlocks it then none
  else
    let (s,ds) := getBlocks r s it.nextLba (if 1 < numBlocks it then numBlocks it else 1)
    some (s,⟨true,ds,it.nextOffset,add32 it.nextOffset it.nextLength,0,0,0,it.nextOffset,it.nextLength⟩)

def Iter.isCe (it : Iter δ) : Bool := it.byte r dirRec 0 = letterC ∧ it.byte r dirRec 1 = letterE

/- The second half of susp_rr_iterate: the address in a CE entry is kept, and the read
position moves on. -/
def registerEntry (it : Iter δ) : Outcome δ :=
  let readPos := add32 it.readPos (it.byte r dirRec 2).toNat
  if it.isCe r dirRec then
    if 0 < it.nextLength then .failed
    else
      .found it { it with
        readPos := readPos
        nextLba := le32 (it.byte r dirRec) 4
        nextOffset := le32 (it.byte r dirRec) 12
        nextLength := le32 (it.byte r dirRec) 20 }
  else .found it { it with readPos := readPos }

def Iter.whole (it : Iter δ) : Bool := add32 it.readPos 4 ≤ it.readEnd

def Iter.areaDone (it : Iter δ) : Bool :=
  !it.whole || it.byte r dirRec 0 = letterS && it.byte r dirRec 1 = letterT

/- Where susp_rr_iterate ends up before it looks for CE: none stands for -1, some none for
the end of the entries. -/
def nextEntry (s : σ) (it : Iter δ) : σ × Option (Option (Iter δ)) :=
  if it.whole ∧ it.byte r dirRec 3 ≠ 1 then (s,none)
  else if it.areaDone r dirRec then
    if it.nextLength = 0 then (s,some none)
    else
      match suspRrSwitchToCa r s it with
      | none => (s,none)
      | some (s,it) => (s,some (some it))
  else (s,some (some it))

def suspRrIterate (s : σ) (it : Iter δ) : σ × Outcome δ :=
  match nextEntry r dirRec s it with
  | (s,none) => (s,.failed)
  | (s,some none) => (s,.over')
  | (s,some (some it)) => (s,registerEntry r dirRec it)

/- The offsets that the first half looks at: entries[3], entries[0], entries[1]. -/
def checkReads (it : Iter δ) : List Nat :=
  if it.whole then
    3::(if it.byte r dirRec 3 = 1 then 0::(if it.byte r dirRec 0 = letterS then [1] else []) else [])
  else []

def ceFields : List Nat := [4,5,6,7,12,13,14,15,20,21,22,23]

def registerReads (it : Iter δ) : List Nat :=
  (0::(if it.byte r dirRec 0 = letterC then [1] else [])) ++
  (if it.isCe r dirRec then if 0 < it.nextLength then [] else ceFields ++ [2] else [2])

def reachedReads : Option (Option (Iter δ)) → List (Iter δ × Nat)
  | some (some it) => (registerReads r dirRec it).map (it,·)
  | _ => []

def iterateReads (s : σ) (it : Iter δ) : List (Iter δ × Nat) :=
  (checkReads r dirRec it).map (it,·) ++ reachedReads r dirRec (nextEntry r dirRec s it).2

/- The data and the flags of the first matching entry that susp_rr_get_entries has so far. -/
structure Collected where
  data : Option (List UInt8)
  nmspFlags : Option Nat
  deriving DecidableEq, Repr

def Collected.count (c : Collected) : Nat := (c.data.getD []).length

variable (sig : UInt8 × UInt8) (nm : Bool)

def headSkip : Nat := if nm then 5 else 4

def Iter.matches' (it : Iter δ) : Bool := sig.1 = it.byte r dirRec 0 ∧ sig.2 = it.byte r dirRec 1

def Iter.len (it : Iter δ) : Nat := (it.byte r dirRec 2).toNat

def Iter.payload (it : Iter δ) : List UInt8 :=
  (List.range (it.len r dirRec - headSkip nm)).map fun i => it.byte r dirRec (headSkip nm + i)

def Collected.add (c : Collected) (it : Iter δ) : Collected :=
  ⟨some (c.data.getD [] ++ it.payload r dirRec nm),
    if nm ∧ c.nmspFlags = none then some (it.byte r dirRec 4).toNat else c.nmspFlags⟩

/- The last NM entry has no CONTINUE bit. -/
def isDone (it : Iter δ) : Bool := nm && !(it.byte r dirRec 4).toNat.testBit 0

/- The offsets that susp_rr_get_entries looks at. -/
def entryReads (it : Iter δ) : List Nat :=
  (0::(if sig.1 = it.byte r dirRec 0 then [1] else [])) ++
  (if it.matches' r dirRec sig then
    2::(if it.len r dirRec < headSkip nm then []
      else (if nm then [4] else []) ++ (List.range (it.len r dirRec - headSkip nm)).map (headSkip nm + ·))
  else [])

def Collected.ret (c : Collected) : Int :=
  match c.data with
  | none => 0
  | some _ => if nm then ((0x100 ||| c.nmspFlags.getD 0 : Nat) : Int) else 1

def Result.behind (res : Result σ δ) (reads : List (Iter δ × Nat)) : Result σ δ := { res with reads := reads ++ res.reads }

def entriesLoop : Nat → σ → Iter δ → Collected → Option (Result σ δ)
  | 0,_,_,_ => none
  | turns+1,s,it,c =>
      let reads := iterateReads r dirRec s it
      match suspRrIterate r dirRec s it with
      | (s,.failed) => some ⟨s,-1,none,reads⟩
      | (s,.over') => some ⟨s,c.ret nm,c.data,reads⟩
      | (s,.found pos next) =>
          let reads := reads ++ (entryReads r dirRec sig nm pos).map (pos,·)
          if ¬ pos.matches' r dirRec sig then (entriesLoop turns s next c).map (·.behind reads)
          else if pos.len r dirRec < headSkip nm then some ⟨s,-1,none,reads⟩
          else if 102400 < c.count + (pos.len r dirRec - headSkip nm) then some ⟨s,-1,none,reads⟩
          else
            let c := c.add r dirRec nm pos
            if isDone r dirRec nm pos then some ⟨s,c.ret nm,c.data,reads⟩
            else (entriesLoop turns s next c).map (·.behind reads)

def suspRrGetEntries (sbi : SbInfo) (turns : Nat) (s : σ) : Option (Result σ δ) :=
  if sbi.doRr = 0 then some ⟨s,0,none,[]⟩
  else
    match suspRrIterNew dirRec sbi.suspSkip with
    | none => some ⟨s,0,none,[]⟩
    | some it => entriesLoop r dirRec sig nm turns s it ⟨none,none⟩

/- The name of a record, with the state behind it; none stands for NULL. -/
def suspRrGetNm (sbi : SbInfo) (turns : Nat) (s : σ) : Option (σ × Int × Option (List UInt8)) :=
  (suspRrGetEntries r dirRec (0x4e,0x4d) true sbi turns s).map fun res =>
    if res.ret ≤ 0 then (res.state,res.ret,none)
    else
      let name := if res.ret.toNat &&& 6 ≠ 0 then (if res.ret.toNat &&& 2 ≠ 0 then [0x2e] else [0x2e,0x2e])
        else res.data.getD []
      if 256 ≤ name.length then (res.state,-1,none) else (res.state,1,some name)

end
end Syslinux.Susp
