import Syslinux.Runs

/-! memdisk's database of memory ranges (memdisk/e820func.c): an array of starts and types,
closed by a sentinel of type -1U. Reads and writes past the array have no result. -/
namespace Syslinux.E820
open Runs

structure Range where
  start : Nat
  type : Nat
  deriving DecidableEq, Repr

def maxranges : Nat := 1024

/- -1U, the type of the sentinel. -/
def noType : Nat := 2^32 - 1
def sentinel : Range := ⟨0,noType⟩

structure Map where
  ranges : List Range
  nranges : Nat
  deriving DecidableEq, Repr

def write (ranges : List Range) (i : Nat) (r : Range) : Option (List Range) :=
  if i < ranges.length then some (ranges.set i r) else none

def e820mapInit : Map := ⟨⟨0,0⟩::sentinel::List.replicate (maxranges - 2) ⟨0,0⟩,1⟩

/- start - 1 in 64 bits: the last address in front of a range, and of the sentinel's 2^64. -/
def before64 (start : Nat) : Nat := (start + (2^64 - 1)) % 2^64

def shiftUp (at' : Nat) : Nat → List Range → Option (List Range)
  | 0,ranges => some ranges
  | i+1,ranges =>
    if at' < i + 1 then do
      let below ← ranges[i]?
      let ranges ← write ranges (i + 1) below
      shiftUp at' i ranges
    else some ranges

def insertrangeAt (s : Map) (at' start type : Nat) : Option Map := do
  let ranges ← shiftUp at' s.nranges s.ranges
  let ranges ← write ranges at' ⟨start,type⟩
  let ranges ← write ranges (s.nranges + 1) sentinel
  some ⟨ranges,s.nranges + 1⟩

/- The first loop: i and oldtype. The array bounds the number of turns of every loop. -/
def passBelow (ranges : List Range) (start : Nat) : Nat → Nat → Nat → Option (Nat × Nat)
  | 0,_,_ => none
  | turns+1,i,oldtype => do
    let r ← ranges[i]?
    if r.start < start ∧ r.type ≠ noType then passBelow ranges start turns (i + 1) r.type
    else some (i,oldtype)

def overwrite (last type : Nat) : Nat → List Range → Nat → Nat → Option (List Range × Nat × Nat)
  | 0,_,_,_ => none
  | turns+1,ranges,i,oldtype => do
    let r ← ranges[i]?
    if i = 0 ∨ before64 r.start < last then
      let ranges ← write ranges i ⟨r.start,type⟩
      overwrite last type turns ranges (i + 1) r.type
    else some (ranges,i,oldtype)

def compact (nranges : Nat) : Nat → List Range → Nat → Nat → Nat → Option (List Range × Nat × Nat)
  | 0,_,_,_,_ => none
  | turns+1,ranges,i,j,oldtype =>
    if i < nranges then do
      let r ← ranges[i]?
      if r.type = oldtype then compact nranges turns ranges (i + 1) j oldtype
      else
        let ranges ← if i ≠ j then write ranges j r else some ranges
        compact nranges turns ranges (i + 1) (j + 1) r.type
    else some (ranges,i,j)

def removeRedundant (s : Map) : Option Map := do
  let first ← s.ranges[0]?
  let (ranges,i,j) ← compact s.nranges maxranges s.ranges 1 1 first.type
  if i ≠ j then
    let copied ← ranges[i]?
    let ranges ← write ranges j copied
    some ⟨ranges,s.nranges - (i - j)⟩
  else some ⟨ranges,s.nranges⟩

def startToken (s : Map) (i start type : Nat) (here : Range) : Option (Map × Nat) :=
  if start < here.start ∨ here.type = noType then (insertrangeAt s i start type).map (fun s => (s,i + 1))
  else some (s,i)

def endToken (s : Map) (i last oldtype : Nat) (here : Range) : Option Map :=
  if last < before64 here.start then insertrangeAt s i ((last + 1) % 2^64) oldtype
  else some s

def insertrange (s : Map) (start len type : Nat) : Option Map :=
  if len = 0 then some s
  else do
    let last := (start + len + (2^64 - 1)) % 2^64
    let (i,oldtype) ← passBelow s.ranges start maxranges 0 (2^32 - 2)
    let here ← s.ranges[i]?
    let (s,i) ← startToken s i start type here
    let (ranges,i,oldtype) ← overwrite last type maxranges s.ranges i oldtype
    let here ← ranges[i]?
    let s ← endToken ⟨ranges,s.nranges⟩ i last oldtype here
    removeRedundant s

/- A call as its callers make it: the range ends inside the 64-bit space, and its type is
not the sentinel's. -/
structure Insert where
  start : Nat
  len : Nat
  type : Nat
  below : start < 2^64
  fits : start + len ≤ 2^64
  proper : type < noType

def step (s : Map) (e : Insert) : Option Map := insertrange s e.start e.len e.type

end Syslinux.E820
