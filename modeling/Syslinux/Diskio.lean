import Mathlib.Data.Nat.Bitwise
import Syslinux.Machine

/-! The disk I/O of core/fs/diskio_bios.c: chs_rdwr_sectors and edd_rdwr_sectors over the INT 13h calls of a BIOS. Addresses
are not wrapped: a buffer lies in the address space. -/
namespace Syslinux.Diskio

structure Disk where
  sectorShift : Nat
  maxtransfer : Nat
  h : Nat
  s : Nat
  secpercyl : Nat
  partStart : Nat
  rdwrChs : Bool
  deriving DecidableEq, Repr

def Disk.sectorSize (d : Disk) : Nat := 2^d.sectorShift
def chsMax (d : Disk) : Nat := d.secpercyl * 2^10

/- A call with its registers or its packet; ES:BX, or the packet's buffer, is given as the pointer it is made of. -/
inductive Call where
  | chs (al ch cl dh ptr : Nat)
  | edd (blocks ptr lba : Nat)
  | reset
  deriving DecidableEq, Repr

def Call.ptr : Call → Nat
  | chs _ _ _ _ ptr => ptr
  | edd _ ptr _ => ptr
  | reset => 0

def Call.blocks : Call → Nat
  | chs al _ _ _ _ => al
  | edd blocks _ _ => blocks
  | reset => 0

/- The first sector, as the BIOS takes it from the call. -/
def Call.first (d : Disk) : Call → Nat
  | chs _ ch cl dh _ => ((ch + cl / 64 * 256) * d.h + dh) * d.s + (cl % 64 - 1)
  | edd _ _ lba => lba
  | reset => 0

/- SEG and OFFS. -/
def seg (p : Nat) : Nat := p / 16 % 2^16
def offs (p : Nat) : Nat := p % 16

/- What is on the disk, how each call ends (none for a success, otherwise what a failed read leaves in memory), and
where core_xfer_buf is. -/
structure World where
  contents : Nat → Nat → UInt8
  bios : Nat → Option (Nat → UInt8)
  xferBuf : Nat

structure Machine where
  mem : Nat → UInt8
  calls : List (Call × Bool)

def World.byteAt (w : World) (d : Disk) (first p : Nat) : UInt8 :=
  w.contents ((first + p / d.sectorSize) % 2^64) (p % d.sectorSize)

def int13 (w : World) (d : Disk) (isWrite : Bool) (m : Machine) (call : Call) : Machine × Bool :=
  let bytes := call.blocks * d.sectorSize
  let target := seg call.ptr * 16 + offs call.ptr
  let (data,ok) := match w.bios m.calls.length with
    | none => (read (w.byteAt d (call.first d)) 0 bytes,true)
    | some junk => (read junk 0 bytes,false)
  (⟨if isWrite then m.mem else store m.mem target data,m.calls ++ [(call,ok)]⟩,ok)

def memcpy (m : Machine) (dst src n : Nat) : Machine := { m with mem := store m.mem dst (read m.mem src n) }

def retryCount : Nat := 6

/- The loop over the retries: the size of the transfer that succeeded and the new maxtransfer, or none. -/
def attempts (w : World) (d : Disk) (isWrite resets : Bool) (issue : Nat → Call) :
    Nat → Nat → Nat → Nat → Machine → Option (Machine × Option (Nat × Nat))
  | 0,_,_,_,_ => none
  | fuel+1,chunk,retry,maxtransfer,m =>
      let (m,ok) := int13 w d isWrite m (issue chunk)
      if ok then some (m,some (chunk,maxtransfer))
      else if retry ≠ 0 then attempts w d isWrite resets issue fuel chunk (retry - 1) maxtransfer m
      else
        let m := if resets then { m with calls := m.calls ++ [(.reset,true)] } else m
        -- For any starting value, this will always end with ..., 1, 0
        let chunk := chunk / 2
        if chunk ≠ 0 then attempts w d isWrite resets issue fuel chunk retryCount chunk m
        else some (m,none)

/- Each size is tried retryCount + 1 times. -/
def attemptsFuel (chunk : Nat) : Nat := (retryCount + 1) * (chunk + 1)

/- One transfer, through core_xfer_buf if tptr is there. -/
def transfer (w : World) (d : Disk) (isWrite resets : Bool) (issue : Nat → Call) (ptr tptr chunk : Nat) (m : Machine) :
    Option (Machine × Option (Nat × Nat)) := do
  let m := if tptr ≠ ptr ∧ isWrite then memcpy m tptr ptr (chunk * d.sectorSize) else m
  match ← attempts w d isWrite resets issue (attemptsFuel chunk) chunk retryCount d.maxtransfer m with
  | (m,none) => some (m,none)
  | (m,some (chunk,maxtransfer)) =>
      some (if tptr ≠ ptr ∧ ¬ isWrite then memcpy m ptr tptr (chunk * d.sectorSize) else m,some (chunk,maxtransfer))

def freeseg (d : Disk) (p : Nat) : Nat := (0x10000 - p % 2^16) / 2^d.sectorShift

/- Where to load, and how many sectors at most. The two functions compare a different pointer with the end of low memory. -/
def place (w : World) (d : Disk) (low ptr : Nat) : Nat × Nat :=
  if low ≤ 0xf0000 ∧ freeseg d ptr ≠ 0 then (ptr,freeseg d ptr) else (w.xferBuf,freeseg d w.xferBuf)

/- The registers of a CHS call. -/
def chsCall (d : Disk) (xlba tptr chunk : Nat) : Call :=
  let s := xlba % d.s
  let t := xlba / d.s
  let h := t % d.h
  let c := t / d.h
  .chs (chunk % 2^8) (c % 2^8) (((c / 2^8 % 4) * 64 ||| (s + 1)) % 2^8) (h % 2^8) tptr

def chsLoop (w : World) (buf : Nat) (isWrite : Bool) : Nat → Disk → Machine → Nat → Nat → Nat → Nat →
    Option (Machine × Disk × Nat)
  | fuel,d,m,ptr,xlba,count,done =>
      if count = 0 then some (m,d,done)
      else match fuel with
      | 0 => none
      | fuel+1 =>
          let (tptr,freeseg) := place w d buf ptr
          let c := xlba / d.s / d.h
          let chunk := min (min (min count d.maxtransfer) freeseg) (d.s - xlba % d.s)
          if c < 1024 then do
            match ← transfer w d isWrite false (chsCall d xlba tptr) ptr tptr chunk m with
            | (m,none) => some (m,d,done)
            | (m,some (chunk,maxtransfer)) =>
                chsLoop w buf isWrite fuel { d with maxtransfer := maxtransfer } m (ptr + chunk * d.sectorSize)
                  ((xlba + chunk) % 2^32) (count - chunk) (done + chunk)
          else
            some (if tptr ≠ ptr ∧ isWrite then memcpy m tptr ptr (chunk * d.sectorSize) else m,d,done)

def chsRdwrSectors (w : World) (d : Disk) (m : Machine) (buf lba count : Nat) (isWrite : Bool) :
    Option (Machine × Disk × Nat) :=
  let xlba := (lba + d.partStart) % 2^64
  if chsMax d ≤ xlba then some (m,d,0)
  else chsLoop w buf isWrite count d m buf (xlba % 2^32) count 0

/- How the EDD loop ends: with all done, or at some sector with a count left. -/
inductive End where
  | all (done : Nat)
  | gaveUp (done lba count : Nat)
  deriving DecidableEq, Repr

def eddLoop (w : World) (isWrite : Bool) : Nat → Disk → Machine → Nat → Nat → Nat → Nat → Option (Machine × Disk × End)
  | fuel,d,m,ptr,lba,count,done =>
      if count = 0 then some (m,d,.all done)
      else match fuel with
      | 0 => none
      | fuel+1 => do
          let (tptr,freeseg) := place w d ptr ptr
          let chunk := min (min count d.maxtransfer) freeseg
          match ← transfer w d isWrite true (fun chunk => .edd (chunk % 2^16) tptr lba) ptr tptr chunk m with
          | (m,none) => some (m,d,.gaveUp done lba count)
          | (m,some (chunk,maxtransfer)) =>
              eddLoop w isWrite fuel { d with maxtransfer := maxtransfer } m (ptr + chunk * d.sectorSize)
                ((lba + chunk) % 2^64) (count - chunk) (done + chunk)

/- Try to fall back to CHS. The pointer that is passed on is the one the function was called with. -/
def eddRdwrSectors (w : World) (d : Disk) (m : Machine) (buf lba count : Nat) (isWrite : Bool) :
    Option (Machine × Disk × Nat) := do
  match ← eddLoop w isWrite count d m buf ((lba + d.partStart) % 2^64) count 0 with
  | (m,d,.all done) => some (m,d,done)
  | (m,d,.gaveUp _ lba count) => do
      let (m,d,done) ← chsRdwrSectors w d m buf ((lba + 2^64 - d.partStart) % 2^64) count isWrite
      if done = count * 2^d.sectorShift % 2^32 then some (m,{ d with rdwrChs := true },done)
      else some (m,d,done)

end Syslinux.Diskio
