import Syslinux.Machine

/-! The DHCP packets of com32/lib/dhcppack.c and dhcpunpack.c. A packet lies at offset 0
of a memory whose pointers are 32-bit offsets. `none` is an outcome C leaves undefined:
a length that overflows its int, or a store that runs past the end of the address space.
A store that only leaves its field is carried out. Every allocation succeeds; the error
a failed one leaves is ENOMEM. -/
namespace Syslinux.Dhcp

abbrev Memory := Nat → UInt8
abbrev Options := Nat → Option (List UInt8)

def enospc : Nat := 28
def einval : Nat := 22
def intMax : Nat := 2^31 - 1

def offSname : Nat := 44
def offFile : Nat := 108
def offMagic : Nat := 236
def offOptions : Nat := 240
def sizeofPacket : Nat := 244
/- htonl(DHCP_VENDOR_MAGIC), as it lies in memory. -/
def vendorMagic : List UInt8 := [0x63,0x82,0x53,0x63]

def Options.set (opt : Options) (i : Nat) (value : Option (List UInt8)) : Options :=
  fun j => if j = i then value else opt j

/- The length of an option's data, 0 when it is absent. -/
def Options.size (opt : Options) (i : Nat) : Nat := ((opt i).getD []).length

def copy (mem : Memory) (q : Nat) (bytes : List UInt8) : Option Memory :=
  if q + bytes.length ≤ 2^32 then some (store mem q bytes) else none

def clear (mem : Memory) (q n : Nat) : Option Memory :=
  if q + n ≤ 2^32 then some (fun a => if q ≤ a ∧ a < q + n then 0 else mem a) else none

def xlenOf (len : Nat) : Option Nat :=
  if len ≤ 255 then some (len + 2)
  else if intMax < len + 254 ∨ intMax < len + 2 * ((len + 254) / 255) then none
  else some (len + 2 * ((len + 254) / 255))

/- The bytes the do loop writes for an option: chunks of at most 255. -/
@[grind =] def chunks (op : UInt8) : Nat → List UInt8 → List UInt8
  | 0,_ => []
  | fuel+1,data =>
      let plen := min data.length 255
      op::UInt8.ofNat plen::(data.take plen ++
        if data.length ≤ 255 then [] else chunks op fuel (data.drop plen))

def emit (i : Nat) (data : List UInt8) : List UInt8 := chunks (UInt8.ofNat i) (data.length + 1) data

structure Packing where
  mem : Memory
  q : Nat
  spc : Nat
  opt : Options
  err : Nat

def packOption (s : Packing) (i : Nat) : Option Packing :=
  match s.opt i with
  | none => some s
  | some data => do
      let xlen ← xlenOf data.length
      if s.spc ≤ xlen then some { s with err := s.err + 1 }
      else
        let bytes := emit i data
        let mem ← copy s.mem s.q bytes
        some ⟨mem,s.q + bytes.length,sub32 s.spc bytes.length,s.opt.set i none,s.err⟩

structure Packed where
  err : Nat
  mem : Memory
  len : Nat
  opt : Options

/- spc still counts the byte of the end marker when the rest is zeroed: the store ends
one byte past the field. -/
def dhcpPackFieldZero (mem : Memory) (field len : Nat) (opt : Options) : Option Packed :=
  if len = 0 then some ⟨enospc,mem,len,opt⟩
  else do
    let s ← (List.range' 1 254).foldlM packOption ⟨mem,field,len,opt,0⟩
    let mem ← copy s.mem s.q [255]
    let mem ← clear mem (s.q + 1) s.spc
    some ⟨s.err,mem,s.q + 1 - field,s.opt⟩

structure Packet where
  err : Nat
  mem : Memory
  len : Nat

def plainField (mem : Memory) (field size : Nat) (data : List UInt8) : Option Memory := do
  let mem ← clear mem field size
  copy mem field data

def overloadOf (opt : Options) : Nat :=
  (if 128 < opt.size 67 then 1 else 0) + (if 64 < opt.size 66 then 2 else 0)

/- The options for the option fields: 66 and 67 only where they overflow their own
field, and no overload option passed in. -/
def fieldOptions (opt : Options) : Options :=
  let ox := if 128 < opt.size 67 then opt else opt.set 67 none
  let ox := if 64 < opt.size 66 then ox else ox.set 66 none
  ox.set 52 none

def putType (mem : Memory) (spc : Nat) (ox : Options) : Option (Memory × Nat × Nat × Options) :=
  match ox 53 with
  | some [type] => do
      let mem ← copy mem offOptions [53,1,type]
      some (mem,offOptions + 3,sub32 spc 3,ox.set 53 none)
  | _ => some (mem,offOptions,spc,ox)

def putOverload (mem : Memory) (q spc overload : Nat) : Option (Memory × Nat × Nat) :=
  if overload ≠ 0 then do
    let mem ← copy mem q [52,1,UInt8.ofNat overload]
    some (mem,q + 3,sub32 spc 3)
  else some (mem,q,spc)

/- A dedicated field: packed with options when overloaded, else the option's own data. -/
def putField (long : Prop) [Decidable long] (field size : Nat) (data : List UInt8) (r : Packed) : Option Packed :=
  if long then dhcpPackFieldZero r.mem field size r.opt
  else do
    let mem ← plainField r.mem field size data
    some { r with mem := mem }

def dhcpPackPacket (mem : Memory) (len : Nat) (opt : Options) : Option Packet :=
  if len < sizeofPacket then some ⟨enospc,mem,len⟩
  else do
    let mem ← copy mem offMagic vendorMagic
    let (mem,q,spc,ox) ← putType mem (sub32 len 240) (fieldOptions opt)
    let (mem,q,spc) ← putOverload mem q spc (overloadOf opt)
    let options ← dhcpPackFieldZero mem q spc ox
    let len := add32 options.len q
    let file ← putField (128 < opt.size 67) offFile 128 ((opt 67).getD []) options
    let sname ← putField (64 < opt.size 66) offSname 64 ((opt 66).getD []) file
    some ⟨sname.err,sname.mem,len⟩

def Options.append (opt : Options) (i : Nat) (data : List UInt8) : Options :=
  opt.set i (some ((opt i).getD [] ++ data))

/- The loop over the bytes p[0..len); the fuel is their number. -/
@[grind =] def unpackFrom : Nat → List UInt8 → Options → Options
  | fuel+1,op::next::rest,opt =>
      if op = 0 then unpackFrom fuel (next::rest) opt
      else if op = 255 then opt
      else if rest.length < next.toNat then opt
      else unpackFrom fuel (rest.drop next.toNat) (opt.append op.toNat (rest.take next.toNat))
  | _,_,opt => opt

def dhcpUnpackField (mem : Memory) (field len : Nat) (opt : Options) : Options :=
  unpackFrom len (read mem field len) opt

def strnlen (mem : Memory) (field size : Nat) : Nat := ((read mem field size).takeWhile (· ≠ 0)).length

/- The data of option 66 is copied from the file field, with the length of the sname
string. -/
def dhcpUnpackPacket (mem : Memory) (len : Nat) : Except Nat Options :=
  if len < 240 ∨ read mem offMagic 4 ≠ vendorMagic then .error einval
  else
    let opt := dhcpUnpackField mem offOptions (len - 240) (fun _ => none)
    let (overload,opt) := match opt 52 with
      | some [flags] => (flags,opt.set 52 none)
      | _ => (0,opt)
    let opt :=
      if overload &&& 1 ≠ 0 then dhcpUnpackField mem offFile 128 opt
      else opt.set 67 (some (read mem offFile (strnlen mem offFile 128)))
    let opt :=
      if overload &&& 2 ≠ 0 then dhcpUnpackField mem offSname 64 opt
      else opt.set 66 (some (read mem offFile (strnlen mem offSname 64)))
    .ok opt

end Syslinux.Dhcp
