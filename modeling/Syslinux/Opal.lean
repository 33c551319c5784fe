import Mathlib.Tactic

/-! unlockOpal of com32/msedpba/unlockOpal.c with exec of Msed.c: the session in which a
self-encrypting drive is unlocked. What the drive does is a list of replies, one for every
call of sendCmd: its return code and, for IF_RECV, what the response buffer holds after it.
Where the list runs out the call is still waiting and has no result. The hash of the
password is a parameter. Prints under TRACE are left out. -/
namespace Syslinux.Opal

/- IO_BUFFER_LENGTH bytes. -/
abbrev Buffer := Nat → UInt8

structure Reply where
  rc : Nat
  data : Buffer

/- The members of OPAL_DiskInfo that are used here. -/
structure DiskInfo where
  opal20 : Bool
  opal20BasecomID : Nat
  opal10BasecomID : Nat
  lockingMBREnabled : Bool
  serialNum : List UInt8

/- The drive's replies still to come, the buffers handed to IF_SEND, and what was printed. -/
structure Port where
  replies : List Reply
  sent : List Buffer
  printed : List String

def le32 (b : Buffer) (off : Nat) : Nat :=
  (b off).toNat + 2^8 * (b (off+1)).toNat + 2^16 * (b (off+2)).toNat + 2^24 * (b (off+3)).toNat

def be16 (b : Buffer) (off : Nat) : Nat := 2^8 * (b off).toNat + (b (off+1)).toNat

def be32 (b : Buffer) (off : Nat) : Nat :=
  2^24 * (b off).toNat + 2^16 * (b (off+1)).toNat + 2^8 * (b (off+2)).toNat + (b (off+3)).toNat

/- hdr->cp.outstandingData and hdr->cp.minTransfer -/
def outstandingData (b : Buffer) : Nat := le32 b 8
def minTransfer (b : Buffer) : Nat := le32 b 12

def receive : List Reply → Option (Reply × List Reply)
  | [] => none
  | r::rest => if outstandingData r.data ≠ 0 ∧ minTransfer r.data = 0 then receive rest else some (r,rest)

def exec (p : Port) (cmd : Buffer) : Option (Nat × Buffer × Port) :=
  match p.replies with
  | [] => none
  | r::rest =>
    let p := { p with replies := rest, sent := p.sent ++ [cmd] }
    if r.rc ≠ 0 then some (r.rc,r.data,{ p with printed := p.printed ++ ["Command failed on send " ++ toString r.rc] })
    else do
      let (r,rest) ← receive rest
      let p := { p with replies := rest }
      if r.rc ≠ 0 then some (r.rc,r.data,{ p with printed := p.printed ++ ["Command failed on recv " ++ toString r.rc] })
      else some (0,r.data,p)

def startSession : List UInt8 :=
  [0x00,0x00,0x00,0x00,0x07,0xfe,0x00,0x00,0x00,0x00,0x00,0x00,0x00,0x00,0x00,0x00,
   0x00,0x00,0x00,0x7c,0x00,0x00,0x00,0x00,0x00,0x00,0x00,0x00,0x00,0x00,0x00,0x00,
   0x00,0x00,0x00,0x00,0x00,0x00,0x00,0x00,0x00,0x00,0x00,0x64,0x00,0x00,0x00,0x00,
   0x00,0x00,0x00,0x00,0x00,0x00,0x00,0x58,
   0xf8,
   0xa8,0x00,0x00,0x00,0x00,0x00,0x00,0x00,0xff,
   0xa8,0x00,0x00,0x00,0x00,0x00,0x00,0xff,0x02,
   0xf0,
   0x81,0x69,
   0xa8,0x00,0x00,0x02,0x05,0x00,0x00,0x00,0x02,
   0x01,
   0xf2,0x00,0xd0,0x20,
   0x00,0x00,0x00,0x00,0x00,0x00,0x00,0x00,0x00,0x00,0x00,0x00,0x00,0x00,0x00,0x00,
   0x00,0x00,0x00,0x00,0x00,0x00,0x00,0x00,0x00,0x00,0x00,0x00,0x00,0x00,0x00,0x00,
   0xf3,
   0xf2,0x03,0xa8,
   0x00,0x00,0x00,0x09,0x00,0x01,0x00,0x01,
   0xf3,
   0xf1,
   0xf9,
   0xf0,0x00,0x00,0x00,0xf1]

def unlock : List UInt8 :=
  [0x00,0x00,0x00,0x00,0x07,0xfe,0x00,0x00,0x00,0x00,0x00,0x00,0x00,0x00,0x00,0x00,
   0x00,0x00,0x00,0x4c,0xff,0xff,0xfc,0x00,0x00,0x00,0x00,0x69,0x00,0x00,0x00,0x00,
   0x00,0x00,0x00,0x00,0x00,0x00,0x00,0x00,0x00,0x00,0x00,0x34,0x00,0x00,0x00,0x00,
   0x00,0x00,0x00,0x00,0x00,0x00,0x00,0x28,
   0xf8,
   0xa8,0x00,0x00,0x08,0x02,0x00,0x00,0x00,0x01,
   0xa8,0x00,0x00,0x00,0x06,0x00,0x00,0x00,0x17,
   0xf0,0xf2,0x01,0xf0,
   0xf2,0x07,0x00,0xf3,
   0xf2,0x08,0x00,0xf3,
   0xf1,0xf3,0xf1,
   0xf9,
   0xf0,0x00,0x00,0x00,0xf1]

def mbrDone : List UInt8 :=
  [0x00,0x00,0x00,0x00,0x07,0xfe,0x00,0x00,0x00,0x00,0x00,0x00,0x00,0x00,0x00,0x00,
   0x00,0x00,0x00,0x48,0xff,0xff,0xfc,0x52,0x00,0x00,0x00,0x69,0x00,0x00,0x00,0x00,
   0x00,0x00,0x00,0x00,0x00,0x00,0x00,0x00,0x00,0x00,0x00,0x30,0x00,0x00,0x00,0x00,
   0x00,0x00,0x00,0x00,0x00,0x00,0x00,0x24,
   0xf8,
   0xa8,0x00,0x00,0x08,0x03,0x00,0x00,0x00,0x01,
   0xa8,0x00,0x00,0x00,0x06,0x00,0x00,0x00,0x17,
   0xf0,0xf2,0x01,0xf0,
   0xf2,0x02,0x01,0xf3,
   0xf1,0xf3,0xf1,
   0xf9,
   0xf0,0x00,0x00,0x00,0xf1]

def endSession : List UInt8 :=
  [0x00,0x00,0x00,0x00,0x07,0xfe,0x00,0x00,0x00,0x00,0x00,0x00,0x00,0x00,0x00,0x00,
   0x00,0x00,0x00,0x28,0xff,0xff,0xfc,0x01,0x00,0x00,0x00,0x69,0x00,0x00,0x00,0x00,
   0x00,0x00,0x00,0x00,0x00,0x00,0x00,0x00,0x00,0x00,0x00,0x10,0x00,0x00,0x00,0x00,
   0x00,0x00,0x00,0x00,0x00,0x00,0x00,0x01,0xfa,0x00,0x00,0x00]

def command (template : List UInt8) (comid : Nat) : Buffer := fun i =>
  if i = 4 then UInt8.ofNat (comid / 2^8)
  else if i = 5 then UInt8.ofNat comid
  else template.getD i 0

/- pCmd->pkt.TSN = SWAP32(tsn) on a little-endian machine. -/
def setTsn (tsn : Nat) (b : Buffer) : Buffer := fun i =>
  if i = 20 then UInt8.ofNat (tsn / 2^24)
  else if i = 21 then UInt8.ofNat (tsn / 2^16)
  else if i = 22 then UInt8.ofNat (tsn / 2^8)
  else if i = 23 then UInt8.ofNat tsn
  else b i

/- The 32 bytes of the hash at 0x5c. -/
def setHash (hash : List UInt8) (b : Buffer) : Buffer := fun i =>
  if 0x5c ≤ i ∧ i < 0x7c then hash.getD (i - 0x5c) 0 else b i

/- Where the data behind the OPALHeader starts. -/
def sizeofHeader : Nat := 56

/- The checks of the response to StartSession, with the return value of each exit; the TSN is
read as one, two or four bytes. -/
def readTsn (resp : Buffer) : Except Nat Nat :=
  let pos := sizeofHeader
  if resp pos ≠ 0xf8 then .error 11 else
  let pos := pos + (1 + 9 + 9)
  if resp pos ≠ 0xf0 then .error 12 else
  let pos := pos + 1
  if resp pos &&& 0xf0 ≠ 0x80 then .error 13 else
  let pos := pos + ((resp pos &&& 0x0f).toNat + 1)
  if resp pos &&& 0xf0 ≠ 0x80 then .error 14 else
  if resp pos &&& 0x0f = 1 then .ok (resp (pos+1)).toNat
  else if resp pos &&& 0x0f = 2 then .ok (be16 resp (pos+1))
  else if resp pos &&& 0x0f = 4 then .ok (be32 resp (pos+1))
  else .error 15

/- pResp->data.token.header, and bytes[3] behind it. -/
def tokenHeader (resp : Buffer) : UInt8 := resp sizeofHeader
def methodStatus (resp : Buffer) : UInt8 := resp (sizeofHeader + 1 + 3)

def comidOf (d : DiskInfo) : Nat := (if d.opal20 then d.opal20BasecomID else d.opal10BasecomID) % 2^16

def say (p : Port) (text : String) : Port := { p with printed := p.printed ++ [text] }

def closeSession (comid tsn : Nat) (p : Port) : Option (Nat × Port) := do
  let (rc,resp,p) ← exec p (setTsn tsn (command endSession comid))
  if rc ≠ 0 then some (40,say p "endSession failed \n") else
  if tokenHeader resp ≠ 0xfa then some (41,p) else
  some (0,p)

def setMbrDone (comid tsn : Nat) (p : Port) : Option (Nat × Port) := do
  let (rc,resp,p) ← exec p (setTsn tsn (command mbrDone comid))
  if rc ≠ 0 then some (30,p) else
  if tokenHeader resp ≠ 0xf0 then some (32,p) else
  if methodStatus resp ≠ 0x00 then some (32,p) else
  closeSession comid tsn p

def unlockOpal (hash : List UInt8 → List UInt8 → List UInt8) (pass : List UInt8) (d : DiskInfo) (p : Port) :
    Option (Nat × Port) := do
  let comid := comidOf d
  let (rc,resp,p) ← exec p (setHash (hash (pass.take 256) d.serialNum) (command startSession comid))
  if rc ≠ 0 then some (10,say p "start session failed \n") else
  match readTsn resp with
  | .error code => some (code,p)
  | .ok tsn => do
    let (rc,resp,p) ← exec p (setTsn tsn (command unlock comid))
    if rc ≠ 0 then some (20,p) else
    if tokenHeader resp ≠ 0xf0 then some (21,p) else
    if methodStatus resp ≠ 0x00 then some (22,p) else
    if d.lockingMBREnabled then setMbrDone comid tsn p else closeSession comid tsn p

end Syslinux.Opal
