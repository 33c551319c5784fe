import Syslinux.Machine

/-! The auxiliary data vector: tagged items one behind the other in an area of fixed size.
getadv.c and setadv.c of com32/elflink/ldlinux keep it in memory, libinstaller/setadv.c in
the image of it that goes to the disk. -/
namespace Syslinux.Adv

def advEnd : UInt8 := 0
def advSize : Nat := 512
def advLen : Nat := advSize - 3*4

inductive Errno where
  | einval
  | enospc
  deriving DecidableEq, Repr

/- memmove(p,p + plen,n) on the bytes from p to the end of the buffer. -/
def memmove (here : List UInt8) (plen n : Nat) : List UInt8 := (here.drop plen).take n ++ here.drop n

/- The bytes from p on are `here`, and left is their number. What is returned is p, again
as the bytes from there on, and *size. -/
def getadvFrom (tag : Int32) : List UInt8 → Option (List UInt8 × Nat)
  | ptag::plen::p =>
    if ptag = advEnd then none
    else if p.length < plen.toNat then none
    else if (ptag.toNat : Int) = tag.toInt then some (p,plen.toNat)
    else getadvFrom tag (p.drop plen.toNat)
  | _ => none
  termination_by here => here.length

def syslinuxGetadv (area : List UInt8) (tag : Int32) : Option (List UInt8 × Nat) := getadvFrom tag area

/- The data the caller of syslinux_getadv sees. -/
def item (area : List UInt8) (tag : Int32) : Option (List UInt8) :=
  (syslinuxGetadv area tag).map (fun found => found.1.take found.2)

def impossibleTag (tag : Int32) : Prop := 254 < (tag.toInt - 1) % 2^32
instance (tag : Int32) : Decidable (impossibleTag tag) := by unfold impossibleTag; infer_instance

/- The end of both writers: (p,left) reflects the position to write in and the space there. -/
def putItem (before here : List UInt8) (tag : Int32) (size : Nat) (data : Nat → UInt8) : Except Errno (List UInt8) :=
  if size ≠ 0 then
    if here.length < size + 2 then .error .enospc
    else .ok (before ++ UInt8.ofNat tag.toInt.toNat::UInt8.ofNat size::(read data 0 size ++
      List.replicate (here.length - (size + 2)) 0))
  else .ok (before ++ List.replicate here.length 0)

namespace Com32

/- `before` is the working copy up to p, `here` the rest of it, of length left. -/
def walk (tag : Int32) (before here : List UInt8) (rleft : Nat) : List UInt8 × List UInt8 :=
  if rleft < 2 then (before,here)
  else match here with
    | ptag::len::_ =>
      let plen := len.toNat + 2
      if ptag = advEnd then (before,here)
      else if (ptag.toNat : Int) = tag.toInt then
        if rleft ≤ plen then (before,here)
        -- fewer bytes to read, but not to write
        else walk tag before (memmove here plen (rleft - plen)) (rleft - plen)
      else if rleft < plen then (before,here)
      else walk tag (before ++ here.take plen) (here.drop plen) (rleft - plen)
    | _ => (before,here)
  termination_by rleft

/- The second component is the area afterwards: the working copy is committed only at the end. -/
def commit (area : List UInt8) : Except Errno (List UInt8) → Except Errno Unit × List UInt8
  | .error e => (.error e,area)
  | .ok advtmp => (.ok (),advtmp)

def syslinuxSetadv (area : List UInt8) (tag : Int32) (size : Nat) (data : Nat → UInt8) :
    Except Errno Unit × List UInt8 :=
  if impossibleTag tag then (.error .einval,area)
  else if 255 < size then (.error .enospc,area)
  else
    let (before,here) := walk tag [] area area.length
    commit area (putItem before here tag size data)

end Com32

namespace Libinstaller

def advMagic1 : Nat := 0x5a2d2fa5
def advMagic2 : Nat := 0xa3041767
def advMagic3 : Nat := 0xdd28bf64

def get32 (adv : List UInt8) (i : Nat) : Nat :=
  (adv.getD i 0).toNat + (adv.getD (i + 1) 0).toNat*2^8 + (adv.getD (i + 2) 0).toNat*2^16 +
    (adv.getD (i + 3) 0).toNat*2^24

def copyTo (adv : List UInt8) (i : Nat) (bytes : List UInt8) : List UInt8 :=
  adv.take i ++ bytes ++ adv.drop (i + bytes.length)

def set32 (adv : List UInt8) (i n : Nat) : List UInt8 :=
  copyTo adv i [UInt8.ofNat n,UInt8.ofNat (n / 2^8),UInt8.ofNat (n / 2^16),UInt8.ofNat (n / 2^24)]

def checksum (adv : List UInt8) : Nat :=
  (List.range ((advSize - 12) / 4)).foldl (fun csum k => sub32 csum (get32 adv (8 + 4*k))) advMagic2

def cleanupAdv (adv : List UInt8) : List UInt8 :=
  let adv := set32 adv 0 advMagic1
  let adv := set32 adv 4 (checksum adv)
  let adv := set32 adv (advSize - 4) advMagic3
  copyTo adv advSize (adv.take advSize)

def dataArea (adv : List UInt8) : List UInt8 := (adv.drop (2*4)).take advLen

/- The loop over the working copy, for as many turns as it is given: a deletion takes
nothing off `left`, so nothing bounds their number. -/
def walk (tag : Int32) : Nat → List UInt8 → List UInt8 → Option (List UInt8 × List UInt8)
  | 0,_,_ => none
  | turns+1,before,here =>
    match here with
    | ptag::len::_ =>
      let plen := len.toNat + 2
      if ptag = advEnd then some (before,here)
      else if (ptag.toNat : Int) = tag.toInt then
        if here.length ≤ plen then some (before,here)
        else walk tag turns before (memmove here plen (here.length - plen))
      else if here.length < plen then some (before,here)
      else walk tag turns (before ++ here.take plen) (here.drop plen)
    | _ => some (before,here)

def commit (adv : List UInt8) : Except Errno (List UInt8) → Except Errno Unit × List UInt8
  | .error e => (.error e,adv)
  | .ok advtmp => (.ok (),cleanupAdv (copyTo adv (2*4) advtmp))

def syslinuxSetadv (turns : Nat) (adv : List UInt8) (tag : Int32) (size : Nat) (data : Nat → UInt8) :
    Option (Except Errno Unit × List UInt8) :=
  if impossibleTag tag then some (.error .einval,adv)
  else if 255 < size then some (.error .enospc,adv)
  else do
    let (before,here) ← walk tag turns [] (dataArea adv)
    some (commit adv (putItem before here tag size data))

end Libinstaller
end Syslinux.Adv
