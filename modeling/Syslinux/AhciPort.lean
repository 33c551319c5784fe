import Syslinux.WordMemory

/-! An AHCI port taken over and given back: com32/msedpba/ahci.c and sataIOCtl of sata.c, with the
pointers of 32-bit and of 64-bit builds. What the controller shows at each look at one of its
registers, and what it has written to memory by then, is given; a wait without an end has no result. -/
namespace Syslinux.Ahci
open WordMemory

inductive Width | narrow | wide
  deriving DecidableEq

abbrev Register := BitVec 32

/- The registers and bits that the code sets and the controller leaves as they are. -/
structure Port where
  CLB : Register
  CLBU : Register
  FB : Register
  FBU : Register
  ST : Bool
  FRE : Bool

structure Reading where
  CI : Register
  FR : Bool
  CR : Bool
  STSERR : Bool
  ERR : UInt8
  dma : List (Nat × List UInt8)

structure State where
  port : Port
  mem : Memory
  ahead : List Reading
  freed : List Nat

namespace Width

def bits : Width → Nat
  | narrow => 32
  | wide => 64

def pointer : Width → Nat
  | narrow => 4
  | wide => 8

def split : Width → Nat → Register × Register
  | narrow,a => (BitVec.ofNat 32 a,0)
  | wide,a => (BitVec.ofNat 32 (a &&& 0xffffffff),BitVec.ofNat 32 ((a >>> 32) &&& 0xffffffff))

/- The address as ahci_restore and sataIOCtl get it back. -/
def joined : Width → Register → Register → Nat
  | narrow,low,_ => low.toNat
  | wide,low,high => ((high.toNat <<< 32) % 2^64) &&& low.toNat

end Width

def address (low high : Register) : Nat := low.toNat + 2^32*high.toNat

section
variable (w : Width)

/- sizeof(AHCI_INIT_SAVE), packed to 4. -/
def saveSize : Nat := w.pointer + 20

def ahciInitMemSize : Nat := 1024 + 1024 + 256 + saveSize w

def look (s : State) : Option (Reading × State) :=
  match s.ahead with
  | [] => none
  | r::rest => some (r,{ s with ahead := rest, mem := writeAll w.bits s.mem r.dma })

def awaits (done : Reading → Bool) : List Reading → Memory → Option (List Reading × Memory)
  | [],_ => none
  | r::rest,mem =>
    let mem := writeAll w.bits mem r.dma
    if done r then some (rest,mem) else awaits done rest mem

def await (done : Reading → Bool) (s : State) : Option State :=
  (awaits w done s.ahead s.mem).map fun (ahead,mem) => { s with ahead, mem }

def stopPort (s : State) : Option State := do
  let s ← await w (fun r => r.CI = 0) { s with port := { s.port with ST := false } }
  await w (fun r => !r.FR) { s with port := { s.port with FRE := false } }

def startReceive (s : State) : Option State := await w (fun r => r.FR) { s with port := { s.port with FRE := true } }

def startCommands (s : State) : Option State := await w (fun r => r.CR) { s with port := { s.port with ST := true } }

/- AHCI_INIT_SAVE. -/
structure Save where
  baseMemoryAddress : Nat
  originalCLB : Register
  originalCLBU : Register
  originalFB : Register
  originalFBU : Register
  originalCR : UInt8
  originalFR : UInt8

def readSave (mem : Memory) (a : Nat) : Save where
  baseMemoryAddress := readWord w.bits w.pointer mem a
  originalCLB := BitVec.ofNat 32 (readWord w.bits 4 mem (a + w.pointer))
  originalCLBU := BitVec.ofNat 32 (readWord w.bits 4 mem (a + (w.pointer + 4)))
  originalFB := BitVec.ofNat 32 (readWord w.bits 4 mem (a + (w.pointer + 8)))
  originalFBU := BitVec.ofNat 32 (readWord w.bits 4 mem (a + (w.pointer + 12)))
  originalCR := mem ((a + (w.pointer + 16)) % 2^w.bits)
  originalFR := mem ((a + (w.pointer + 17)) % 2^w.bits)

/- The stores of the members up to originalFBU. -/
def writeSave (mem : Memory) (a base : Nat) (port : Port) : Memory :=
  let mem := writeWord w.bits w.pointer mem a base
  let mem := writeWord w.bits 4 mem (a + w.pointer) port.CLB.toNat
  let mem := writeWord w.bits 4 mem (a + (w.pointer + 4)) port.CLBU.toNat
  let mem := writeWord w.bits 4 mem (a + (w.pointer + 8)) port.FB.toNat
  writeWord w.bits 4 mem (a + (w.pointer + 12)) port.FBU.toNat

/- The pointers of ahci_initialize. -/
structure Setup where
  memBase : Nat
  commandList : Nat
  receivedFIS : Nat
  ahciSave : Nat

def setupAt (base : Nat) : Setup :=
  let commandList := (((base + 1024) % 2^w.bits) >>> 10) <<< 10
  ⟨base,commandList,commandList + 1024,commandList + 1024 + 256⟩

def ofBool (b : Bool) : UInt8 := if b then 1 else 0

def ahciInitialize (malloc : Option Nat) (s : State) : Option (Int × State) :=
  match malloc with
  | none => some (-1,s)
  | some base => do
    let u := setupAt w base
    let s := { s with mem := writeBytes w.bits s.mem base (List.replicate (ahciInitMemSize w) 0) }
    let (r,s) ← look w s
    let s := { s with mem := writeBytes w.bits s.mem (u.ahciSave + (w.pointer + 16)) [ofBool r.CR] }
    let (r,s) ← look w s
    let s := { s with mem := writeBytes w.bits s.mem (u.ahciSave + (w.pointer + 17)) [ofBool r.FR] }
    let s ← stopPort w s
    let s := { s with mem := writeSave w s.mem u.ahciSave base s.port }
    let (CLB,CLBU) := w.split u.commandList
    let (FB,FBU) := w.split u.receivedFIS
    let s ← startReceive w { s with port := { s.port with CLB, CLBU, FB, FBU } }
    let s ← startCommands w s
    some (0,s)

def restart (was : UInt8) (start : State → Option State) (s : State) : Option State :=
  if was ≠ 0 then start s else some s

/- ahci_restore from where the port has been stopped. -/
def giveBack (s : State) : Option State := do
  let cmdList := w.joined s.port.CLB s.port.CLBU
  let saved := readSave w s.mem (cmdList + 1024 + 256)
  let s := { s with port := { s.port with
    CLB := saved.originalCLB, CLBU := saved.originalCLBU, FB := saved.originalFB, FBU := saved.originalFBU } }
  let s ← restart saved.originalFR (startReceive w) s
  let s ← restart saved.originalCR (startCommands w) s
  some { s with freed := s.freed ++ [saved.baseMemoryAddress] }

def ahciRestore (s : State) : Option State := do
  let s ← stopPort w s
  giveBack w s

/- do {if(port->TFD.STSERR) break;} while (port->CI & 1); -/
def poll : List Reading → Memory → Option (List Reading × Memory)
  | [],_ => none
  | [r],mem => if r.STSERR then some ([],writeAll w.bits mem r.dma) else none
  | r::q::rest,mem =>
    let mem := writeAll w.bits mem r.dma
    if r.STSERR then some (q::rest,mem)
    else
      let mem := writeAll w.bits mem q.dma
      if q.CI &&& 1 ≠ 0 then poll rest mem else some (rest,mem)

/- The arguments of sataIOCtl, and malloc's answer. -/
structure Call where
  write : UInt8
  fis : List UInt8
  buffer : Nat
  buflength : Nat
  malloc : Option Nat

/- The pointers of a call that came to its command, and the length of its data. -/
structure Issued where
  memBase : Nat
  commandTable : Nat
  ioBuffer : Nat
  commandHeader : Nat
  buflength : Nat

def sataIoctlMemSize : Nat := 4096*2

def issuedAt (c : Call) (base : Nat) (port : Port) : Issued :=
  let commandTable := ((base + 4096) % 2^w.bits) &&& (2^w.bits - 4096)
  ⟨base,commandTable,commandTable + 4096,w.joined port.CLB port.CLBU,c.buflength⟩

def writeTable (c : Call) (i : Issued) (mem : Memory) : Memory :=
  let mem := writeBytes w.bits mem i.memBase (List.replicate (sataIoctlMemSize + c.buflength) 0)
  let mem := writeBytes w.bits mem i.commandTable c.fis
  let (DBA,DBAU) := w.split i.ioBuffer
  let mem := writeWord w.bits 4 mem (i.commandTable + 0x80) DBA.toNat
  let mem := writeWord w.bits 4 mem (i.commandTable + 0x84) DBAU.toNat
  let mem := writeWord w.bits 4 mem (i.commandTable + 0x8c) ((c.buflength + (2^w.bits - 1)) % 2^22 + 2^31)
  copyBytes w.bits c.buflength mem i.ioBuffer c.buffer

/- Only 64-bit builds store to CTBAU; in the others it is 0 already. -/
def writeHeader (c : Call) (i : Issued) (mem : Memory) : Memory :=
  let mem := writeBytes w.bits mem i.commandHeader (List.replicate 32 0)
  let mem := writeWord w.bits 4 mem i.commandHeader ((c.fis.length / 4) % 2^5 + 2^6*(c.write.toNat % 2) + 2^16)
  let (CTBA,CTBAU) := w.split i.commandTable
  let mem := writeWord w.bits 4 mem (i.commandHeader + 8) CTBA.toNat
  writeWord w.bits 4 mem (i.commandHeader + 12) CTBAU.toNat

def sataIOCtl (c : Call) (s : State) : Option (Int × Option Issued × State) :=
  if c.buflength % 2 ≠ 0 then some (-99,none,s)
  else if 8192 < c.buflength then some (-98,none,s)
  else
    match c.malloc with
    | none => some (-1,none,s)
    | some base => do
      let i := issuedAt w c base s.port
      let s := { s with mem := writeHeader w c i (writeTable w c i s.mem) }
      let (_,s) ← look w s
      let (ahead,mem) ← poll w s.ahead s.mem
      let (r,s) ← look w { s with ahead, mem }
      if r.STSERR then do
        let (e,s) ← look w s
        let s ← stopPort w s
        let s ← startReceive w s
        let s ← startCommands w s
        some (e.ERR.toNat,some i,{ s with freed := s.freed ++ [base] })
      else
        -- the spin on IS.DPS breaks off at once
        some (0,some i,{ s with mem := copyBytes w.bits c.buflength s.mem c.buffer i.ioBuffer, freed := s.freed ++ [base] })

def sataCalls : List Call → State → Option (List Issued × State)
  | [],s => some ([],s)
  | c::rest,s => do
    let (_,i,s) ← sataIOCtl w c s
    let (later,s) ← sataCalls rest s
    some (i.toList ++ later,s)

end

section
variable {w : Width} {base : Nat}

theorem maskedDown {n k x : Nat} (low : k ≤ n) (fits : x < 2^n) : x &&& (2^n - 2^k) = x / 2^k * 2^k := by
  have mask : 2^n - 2^k = (2^(n-k) - 1)*2^k := by
    rw [Nat.sub_mul,← Nat.pow_add,Nat.sub_add_cancel low,Nat.one_mul]
  refine Nat.eq_of_testBit_eq fun i => ?_
  rw [mask,Nat.testBit_and,Nat.testBit_mul_two_pow,Nat.testBit_two_pow_sub_one,Nat.testBit_mul_two_pow,
    Nat.testBit_div_two_pow]
  by_cases above : k ≤ i
  · rw [Nat.sub_add_cancel above]
    by_cases inside : i < n
    · simp [above,show i - k < n - k by omega]
    · have zero : x.testBit i = false :=
        Nat.testBit_lt_two_pow (Nat.lt_of_lt_of_le fits (Nat.pow_le_pow_right (by omega) (by omega)))
      simp [zero]
  · simp [above]

theorem bitsLow : 2^32 ≤ 2^w.bits := by cases w <;> decide

theorem pointerBits : 2^(8*w.pointer) = 2^w.bits := by cases w <;> rfl

theorem pointerSmall : w.pointer ≤ 8 := by cases w <;> decide

theorem setupList (room : base + ahciInitMemSize w ≤ 2^w.bits) :
    (setupAt w base).commandList = (base + 1024) / 1024 * 1024 := by
  have small : base + 1024 < 2^w.bits := by
    unfold ahciInitMemSize at room
    omega
  rw [setupAt,Nat.mod_eq_of_lt small,Nat.shiftRight_eq_div_pow,Nat.shiftLeft_eq]

theorem setupNear (room : base + ahciInitMemSize w ≤ 2^w.bits) : base < (setupAt w base).commandList ∧
    (setupAt w base).commandList ≤ base + 1024 ∧ (setupAt w base).ahciSave = (setupAt w base).commandList + 1280 ∧
    (setupAt w base).ahciSave + saveSize w ≤ base + ahciInitMemSize w := by
  have place := setupList room
  have save : (setupAt w base).ahciSave = (setupAt w base).commandList + 1280 := rfl
  have size : ahciInitMemSize w = 2304 + saveSize w := by
    unfold ahciInitMemSize
    omega
  omega

theorem splitAddress {a : Nat} (fits : a < 2^w.bits) : address (w.split a).1 (w.split a).2 = a := by
  cases w with
  | narrow =>
    show (BitVec.ofNat 32 a).toNat + 2^32*0 = a
    rw [BitVec.toNat_ofNat,Nat.mod_eq_of_lt (show a < 2^32 from fits)]
    omega
  | wide =>
    show (BitVec.ofNat 32 (a &&& (2^32 - 1))).toNat + 2^32*(BitVec.ofNat 32 ((a >>> 32) &&& (2^32 - 1))).toNat = a
    have fits : a < 2^64 := fits
    rw [BitVec.toNat_ofNat,BitVec.toNat_ofNat,Nat.and_two_pow_sub_one_eq_mod,Nat.and_two_pow_sub_one_eq_mod,
      Nat.shiftRight_eq_div_pow]
    omega

theorem joinedNarrow {a : Nat} (fits : a < 2^32) :
    Width.narrow.joined (Width.narrow.split a).1 (Width.narrow.split a).2 = a := by
  show (BitVec.ofNat 32 a).toNat = a
  rw [BitVec.toNat_ofNat,Nat.mod_eq_of_lt fits]

theorem joinedWide (low high : Register) : Width.wide.joined low high = 0 := by
  refine Nat.eq_of_testBit_eq fun i => ?_
  rw [Width.joined,Nat.testBit_and,Nat.testBit_mod_two_pow,Nat.testBit_shiftLeft,Nat.zero_testBit]
  by_cases upper : 32 ≤ i
  · rw [Nat.testBit_lt_two_pow (x := low.toNat) (Nat.lt_of_lt_of_le low.isLt (Nat.pow_le_pow_right (by omega) upper)),
      Bool.and_false]
  · simp [upper]

theorem tableAt (c : Call) (port : Port) (room : base + (sataIoctlMemSize + c.buflength) ≤ 2^w.bits) :
    (issuedAt w c base port).commandTable = (base + 4096) / 4096 * 4096 := by
  have small : base + 4096 < 2^w.bits := by
    unfold sataIoctlMemSize at room
    omega
  have k : 12 ≤ w.bits := by cases w <;> decide
  rw [issuedAt,Nat.mod_eq_of_lt small]
  exact maskedDown (k := 12) k small

end

section
variable (w : Width) (base : Nat)

/- What the waits and the calls leave alone: the save area, and what is known of the looks to come. -/
structure Keeps (s s' : State) : Prop where
  saved : ∀ q, (setupAt w base).ahciSave ≤ q → q < (setupAt w base).ahciSave + saveSize w → s'.mem q = s.mem q
  ahead : ∀ r ∈ s'.ahead, r ∈ s.ahead
  registers : (s'.port.CLB,s'.port.CLBU,s'.port.FB,s'.port.FBU) = (s.port.CLB,s.port.CLBU,s.port.FB,s.port.FBU)

def Spares (r : Reading) : Prop :=
  ∀ block ∈ r.dma, ∀ i < block.2.length, base ≤ (block.1+i) % 2^w.bits →
    (block.1+i) % 2^w.bits < base + ahciInitMemSize w →
    (setupAt w base).commandList ≤ (block.1+i) % 2^w.bits ∧ (block.1+i) % 2^w.bits < (setupAt w base).receivedFIS + 256

end

/- The save area at a holds the block's address and the registers of the port. -/
def Saves (w : Width) (base : Nat) (port : Port) (mem : Memory) (a : Nat) : Prop :=
  (readSave w mem a).baseMemoryAddress = base ∧ (readSave w mem a).originalCLB = port.CLB ∧
    (readSave w mem a).originalCLBU = port.CLBU ∧ (readSave w mem a).originalFB = port.FB ∧
    (readSave w mem a).originalFBU = port.FBU

section
variable {w : Width} {base a : Nat} {port : Port} {mem mem' : Memory}

theorem savesWritten (inside : a + saveSize w ≤ 2^w.bits) (fits : base < 2^w.bits) :
    Saves w base port (writeSave w mem a base port) a := by
  have size : saveSize w = w.pointer + 20 := rfl
  have four : ∀ v : Register, BitVec.ofNat 32 (v.toNat % 2^(8*4)) = v := fun v => by
    rw [Nat.mod_eq_of_lt v.isLt,BitVec.ofNat_toNat,BitVec.setWidth_eq]
  have pointer := pointerSmall (w := w)
  have low := bitsLow (w := w)
  refine ⟨?_,?_,?_,?_,?_⟩
  · simp only [readSave,writeSave]
    rw [readBeside (by omega) (by omega) (by omega),readBeside (by omega) (by omega) (by omega),
      readBeside (by omega) (by omega) (by omega),readBeside (by omega) (by omega) (by omega),readWrite (by omega),
      pointerBits,Nat.mod_eq_of_lt fits]
  · simp only [readSave,writeSave]
    rw [readBeside (by omega) (by omega) (by omega),readBeside (by omega) (by omega) (by omega),
      readBeside (by omega) (by omega) (by omega),readWrite (by omega),four]
  · simp only [readSave,writeSave]
    rw [readBeside (by omega) (by omega) (by omega),readBeside (by omega) (by omega) (by omega),readWrite (by omega),four]
  · simp only [readSave,writeSave]
    rw [readBeside (by omega) (by omega) (by omega),readWrite (by omega),four]
  · simp only [readSave,writeSave]
    rw [readWrite (by omega),four]

theorem savesSame (inside : a + saveSize w ≤ 2^w.bits) (same : ∀ q, a ≤ q → q < a + saveSize w → mem' q = mem q) :
    Saves w base port mem' a ↔ Saves w base port mem a := by
  have size : saveSize w = w.pointer + 20 := rfl
  have word : ∀ n k, k + n ≤ saveSize w → readWord w.bits n mem' (a+k) = readWord w.bits n mem (a+k) :=
    fun n k fits => readSame fun i lt => by
      rw [Nat.mod_eq_of_lt (by omega)]
      exact same _ (by omega) (by omega)
  have first := word w.pointer 0 (by omega)
  rw [Nat.add_zero] at first
  simp only [Saves,readSave]
  rw [first,word 4 w.pointer (by omega),word 4 (w.pointer+4) (by omega),word 4 (w.pointer+8) (by omega),
    word 4 (w.pointer+12) (by omega)]

end

section
variable {w : Width} {base : Nat} {s s' t : State}

theorem Keeps.refl (s : State) : Keeps w base s s := ⟨fun _ _ _ => rfl,fun _ h => h,rfl⟩

theorem Keeps.trans (first : Keeps w base s s') (second : Keeps w base s' t) : Keeps w base s t where
  saved q from_ before := (second.saved q from_ before).trans (first.saved q from_ before)
  ahead r h := first.ahead r (second.ahead r h)
  registers := second.registers.trans first.registers

variable (room : base + ahciInitMemSize w ≤ 2^w.bits)
include room

theorem dmaKeeps {r : Reading} {mem : Memory} (spares : Spares w base r) {q : Nat}
    (after : (setupAt w base).ahciSave ≤ q) (before : q < (setupAt w base).ahciSave + saveSize w) :
    writeAll w.bits mem r.dma q = mem q := by
  refine writeAllApart fun block member near => ?_
  have place := setupNear room
  have here := atBehind (a := block.1) near.1
  have inside := spares block member _ near.2 (by omega) (by omega)
  rw [here] at inside
  have fis : (setupAt w base).ahciSave = (setupAt w base).receivedFIS + 256 := rfl
  omega

theorem lookKeeps {r : Reading} (ran : look w s = some (r,s')) (spares : ∀ r ∈ s.ahead, Spares w base r) :
    Keeps w base s s' ∧ s'.port = s.port ∧ s'.freed = s.freed := by
  unfold look at ran
  split at ran
  · exact absurd ran (by simp)
  · rename_i r' rest shown
    obtain ⟨rfl,rfl⟩ := by simpa only [Option.some.injEq,Prod.mk.injEq] using ran
    rw [shown] at spares
    exact ⟨⟨fun q after before => dmaKeeps room (spares _ List.mem_cons_self) after before,
      fun _ h => shown ▸ List.mem_cons_of_mem _ h,rfl⟩,rfl,rfl⟩

theorem awaitsKeeps {done : Reading → Bool} {ahead ahead' : List Reading} {mem mem' : Memory}
    (spares : ∀ r ∈ ahead, Spares w base r) (ran : awaits w done ahead mem = some (ahead',mem')) :
    (∀ q, (setupAt w base).ahciSave ≤ q → q < (setupAt w base).ahciSave + saveSize w → mem' q = mem q) ∧
      ∀ r ∈ ahead', r ∈ ahead := by
  induction ahead generalizing mem with
  | nil => exact absurd ran (by simp [awaits])
  | cons r rest ih =>
    have first : ∀ q, (setupAt w base).ahciSave ≤ q → q < (setupAt w base).ahciSave + saveSize w →
        writeAll w.bits mem r.dma q = mem q := fun q => dmaKeeps room (spares _ List.mem_cons_self)
    rw [awaits] at ran
    split at ran
    · obtain ⟨rfl,rfl⟩ := by simpa only [Option.some.injEq,Prod.mk.injEq] using ran
      exact ⟨first,fun _ h => List.mem_cons_of_mem _ h⟩
    · obtain ⟨more,left⟩ := ih (fun r h => spares r (List.mem_cons_of_mem _ h)) ran
      exact ⟨fun q after before => (more q after before).trans (first q after before),
        fun r h => List.mem_cons_of_mem _ (left r h)⟩

theorem awaitKeeps {done : Reading → Bool} {port : Port}
    (ran : await w done { s with port } = some s') (spares : ∀ r ∈ s.ahead, Spares w base r)
    (same : (port.CLB,port.CLBU,port.FB,port.FBU) = (s.port.CLB,s.port.CLBU,s.port.FB,s.port.FBU)) :
    Keeps w base s s' ∧ s'.freed = s.freed := by
  obtain ⟨⟨ahead,mem⟩,waited,rfl⟩ := Option.map_eq_some_iff.mp ran
  obtain ⟨saved,left⟩ := awaitsKeeps room spares waited
  exact ⟨⟨saved,left,same⟩,rfl⟩

theorem stopKeeps (ran : stopPort w s = some s') (spares : ∀ r ∈ s.ahead, Spares w base r) :
    Keeps w base s s' ∧ s'.freed = s.freed := by
  obtain ⟨mid,first,second⟩ := Option.bind_eq_some_iff.mp ran
  obtain ⟨one,freed⟩ := awaitKeeps (s := s) room first spares rfl
  obtain ⟨two,later⟩ := awaitKeeps (s := mid) room second (fun r h => spares r (one.ahead r h)) rfl
  exact ⟨one.trans two,later.trans freed⟩

theorem receiveKeeps (ran : startReceive w s = some s') (spares : ∀ r ∈ s.ahead, Spares w base r) :
    Keeps w base s s' ∧ s'.freed = s.freed := awaitKeeps (s := s) room ran spares rfl

theorem commandsKeeps (ran : startCommands w s = some s') (spares : ∀ r ∈ s.ahead, Spares w base r) :
    Keeps w base s s' ∧ s'.freed = s.freed := awaitKeeps (s := s) room ran spares rfl

theorem pollKeeps {ahead ahead' : List Reading} {mem mem' : Memory} (spares : ∀ r ∈ ahead, Spares w base r)
    (ran : poll w ahead mem = some (ahead',mem')) :
    (∀ q, (setupAt w base).ahciSave ≤ q → q < (setupAt w base).ahciSave + saveSize w → mem' q = mem q) ∧
      ∀ r ∈ ahead', r ∈ ahead := by
  induction ahead, mem using poll.induct w with
  | case1 => exact absurd ran (by simp [poll])
  | case2 mem r shown =>
    rw [poll,if_pos shown] at ran
    obtain ⟨rfl,rfl⟩ := by simpa only [Option.some.injEq,Prod.mk.injEq] using ran
    exact ⟨fun q => dmaKeeps room (spares _ List.mem_cons_self),by simp⟩
  | case3 mem r shown =>
    rw [poll,if_neg shown] at ran
    exact absurd ran (by simp)
  | case4 r q rest mem shown =>
    rw [poll,if_pos shown] at ran
    obtain ⟨rfl,rfl⟩ := by simpa only [Option.some.injEq,Prod.mk.injEq] using ran
    exact ⟨fun q => dmaKeeps room (spares _ List.mem_cons_self),fun _ h => List.mem_cons_of_mem _ h⟩
  | case5 r q rest mem mem1 shown mem2 busy ih =>
    rw [poll,if_neg shown,if_pos busy] at ran
    obtain ⟨more,left⟩ := ih (fun r h => spares r (List.mem_cons_of_mem _ (List.mem_cons_of_mem _ h))) ran
    exact ⟨fun p after before => (more p after before).trans
        ((dmaKeeps room (spares q (List.mem_cons_of_mem _ List.mem_cons_self)) after before).trans
          (dmaKeeps room (spares r List.mem_cons_self) after before)),
      fun r h => List.mem_cons_of_mem _ (List.mem_cons_of_mem _ (left r h))⟩
  | case6 r q rest mem shown idle =>
    rw [poll,if_neg shown,if_neg idle] at ran
    obtain ⟨rfl,rfl⟩ := by simpa only [Option.some.injEq,Prod.mk.injEq] using ran
    refine ⟨fun p after before => ?_,fun r h => List.mem_cons_of_mem _ (List.mem_cons_of_mem _ h)⟩
    rw [dmaKeeps room (spares q (List.mem_cons_of_mem _ List.mem_cons_self)) after before,
      dmaKeeps room (spares r List.mem_cons_self) after before]

theorem initSpec {rc : Int} (spares : ∀ r ∈ s.ahead, Spares w base r)
    (ran : ahciInitialize w (some base) s = some (rc,s')) :
    (∀ r ∈ s'.ahead, r ∈ s.ahead) ∧ s'.freed = s.freed ∧ Saves w base s.port s'.mem (setupAt w base).ahciSave ∧
      (s'.port.CLB,s'.port.CLBU) = w.split (setupAt w base).commandList ∧
      (s'.port.FB,s'.port.FBU) = w.split (setupAt w base).receivedFIS := by
  have place := setupNear room
  unfold ahciInitialize at ran
  dsimp only at ran
  obtain ⟨⟨r1,s1⟩,look1,ran⟩ := Option.bind_eq_some_iff.mp ran
  obtain ⟨⟨r2,s2⟩,look2,ran⟩ := Option.bind_eq_some_iff.mp ran
  obtain ⟨s3,stopped,ran⟩ := Option.bind_eq_some_iff.mp ran
  obtain ⟨s4,receiving,ran⟩ := Option.bind_eq_some_iff.mp ran
  obtain ⟨s5,running,ran⟩ := Option.bind_eq_some_iff.mp ran
  obtain ⟨_,rfl⟩ := Prod.mk.inj (Option.some.inj ran)
  obtain ⟨kept1,port1,freed1⟩ := lookKeeps room look1 spares
  obtain ⟨kept2,port2,freed2⟩ := lookKeeps room look2 fun r h => spares r (kept1.ahead r h)
  obtain ⟨kept3,freed3⟩ := stopKeeps room stopped fun r h => spares r (kept1.ahead r (kept2.ahead r h))
  have ahead3 : ∀ r ∈ s3.ahead, r ∈ s.ahead := fun r h => kept1.ahead r (kept2.ahead r (kept3.ahead r h))
  obtain ⟨kept4,freed4⟩ := receiveKeeps room receiving fun r h => spares r (ahead3 r h)
  obtain ⟨kept5,freed5⟩ := commandsKeeps room running fun r h => spares r (ahead3 r (kept4.ahead r h))
  have all := kept4.trans kept5
  refine ⟨fun r h => ahead3 r (all.ahead r h),?_,?_,?_,?_⟩
  · rw [freed5,freed4]
    exact freed3.trans (freed2.trans freed1)
  · refine (savesSame (by omega) all.saved).mpr ?_
    have same : (s3.port.CLB,s3.port.CLBU,s3.port.FB,s3.port.FBU) = (s.port.CLB,s.port.CLBU,s.port.FB,s.port.FBU) :=
      kept3.registers.trans (kept2.registers.trans kept1.registers)
    simp only [Prod.mk.injEq] at same
    have saved := @savesWritten w base (setupAt w base).ahciSave s3.port s3.mem (by omega) (by omega)
    rw [Saves,same.1,same.2.1,same.2.2.1,same.2.2.2] at saved
    exact saved
  · have registers := all.registers
    simp only [Prod.mk.injEq] at registers
    rw [registers.1,registers.2.1]
  · have registers := all.registers
    simp only [Prod.mk.injEq] at registers
    rw [registers.2.2.1,registers.2.2.2]

end

def Call.Issues (c : Call) : Prop := c.buflength % 2 = 0 ∧ c.buflength ≤ 8192 ∧ c.malloc ≠ none

def sizeofFis : Nat := 20

/- What the callers of sataIOCtl and malloc promise while the block at base is in use. -/
structure Promised (w : Width) (base : Nat) (c : Call) : Prop where
  fis : c.fis.length = sizeofFis
  buffer : c.buffer + c.buflength ≤ base ∨ base + ahciInitMemSize w ≤ c.buffer
  bufferRoom : c.buffer + c.buflength ≤ 2^w.bits
  fresh : ∀ a, c.malloc = some a → a + (sataIoctlMemSize + c.buflength) ≤ 2^w.bits ∧
    (a + (sataIoctlMemSize + c.buflength) ≤ base ∨ base + ahciInitMemSize w ≤ a)

section
variable {w : Width} {base block : Nat} {c : Call} {s s' : State} {port : Port} {mem : Memory} {q : Nat}

theorem tableNear (room : block + (sataIoctlMemSize + c.buflength) ≤ 2^w.bits) :
    block < (issuedAt w c block port).commandTable ∧ (issuedAt w c block port).commandTable ≤ block + 4096 ∧
      (issuedAt w c block port).ioBuffer = (issuedAt w c block port).commandTable + 4096 := by
  have place := tableAt c port room
  have buffer : (issuedAt w c block port).ioBuffer = (issuedAt w c block port).commandTable + 4096 := rfl
  omega

theorem writeTableKeeps (fis : c.fis.length = sizeofFis) (room : block + (sataIoctlMemSize + c.buflength) ≤ 2^w.bits)
    (apart : q < block ∨ block + (sataIoctlMemSize + c.buflength) ≤ q) :
    writeTable w c (issuedAt w c block port) mem q = mem q := by
  have near := @tableNear w block c port room
  have start : (issuedAt w c block port).memBase = block := rfl
  unfold sataIoctlMemSize at room apart
  unfold sizeofFis at fis
  simp only [writeTable]
  rw [copyBytesApart (by omega) (by omega),writeWordApart (by omega) (by omega),writeWordApart (by omega) (by omega),
    writeWordApart (by omega) (by omega),writeBytesApart (by omega) (by omega) fis,
    writeBytesApart (by unfold sataIoctlMemSize; omega) (by unfold sataIoctlMemSize; omega) (List.length_replicate ..)]

theorem writeHeaderKeeps {i : Issued} (room : i.commandHeader + 32 ≤ 2^w.bits)
    (apart : q < i.commandHeader ∨ i.commandHeader + 32 ≤ q) : writeHeader w c i mem q = mem q := by
  simp only [writeHeader]
  rw [writeWordApart (by omega) (by omega),writeWordApart (by omega) (by omega),writeWordApart (by omega) (by omega),
    writeBytesApart (by omega) (by omega) (List.length_replicate ..)]

theorem callRefused {rc : Int} {i : Option Issued} (refused : ¬ c.Issues) (ran : sataIOCtl w c s = some (rc,i,s')) :
    i = none ∧ s' = s := by
  unfold sataIOCtl at ran
  split at ran
  · obtain ⟨_,rfl,rfl⟩ := by simpa only [Option.some.injEq,Prod.mk.injEq] using ran
    exact ⟨rfl,rfl⟩
  · split at ran
    · obtain ⟨_,rfl,rfl⟩ := by simpa only [Option.some.injEq,Prod.mk.injEq] using ran
      exact ⟨rfl,rfl⟩
    · split at ran
      · obtain ⟨_,rfl,rfl⟩ := by simpa only [Option.some.injEq,Prod.mk.injEq] using ran
        exact ⟨rfl,rfl⟩
      · rename_i odd long _ _ got
        exact absurd ⟨by omega,by omega,by simp [got]⟩ refused

/- The others leave their pointers, free their block, and keep the save area where the header is
apart from it. -/
theorem callIssued {rc : Int} {i : Option Issued} (issues : c.Issues) (ran : sataIOCtl w c s = some (rc,i,s')) :
    ∃ block, c.malloc = some block ∧ i = some (issuedAt w c block s.port) ∧
      (base + ahciInitMemSize w ≤ 2^w.bits → Promised w base c → (∀ r ∈ s.ahead, Spares w base r) →
        w.joined s.port.CLB s.port.CLBU + 32 ≤ (setupAt w base).ahciSave →
          Keeps w base s s' ∧ s'.freed = s.freed ++ [block]) := by
  obtain ⟨even,short,got⟩ := issues
  obtain ⟨block,got⟩ := Option.ne_none_iff_exists'.mp got
  unfold sataIOCtl at ran
  rw [if_neg (by omega),if_neg (by omega),got] at ran
  dsimp only at ran
  obtain ⟨⟨r1,s1⟩,look1,ran⟩ := Option.bind_eq_some_iff.mp ran
  obtain ⟨⟨ahead,mem⟩,polled,ran⟩ := Option.bind_eq_some_iff.mp ran
  obtain ⟨⟨r2,s2⟩,look2,ran⟩ := Option.bind_eq_some_iff.mp ran
  dsimp only at ran polled look2
  refine ⟨block,got,?_⟩
  have upTo : base + ahciInitMemSize w ≤ 2^w.bits → Promised w base c → (∀ r ∈ s.ahead, Spares w base r) →
      w.joined s.port.CLB s.port.CLBU + 32 ≤ (setupAt w base).ahciSave →
        Keeps w base s s2 ∧ s2.freed = s.freed := by
    intro room promised spares header
    have place := setupNear room
    obtain ⟨fits,apart⟩ := promised.fresh block got
    have written : Keeps w base s
        { s with
          mem := writeHeader w c (issuedAt w c block s.port) (writeTable w c (issuedAt w c block s.port) s.mem) } := by
      refine ⟨fun q after before => ?_,fun _ h => h,rfl⟩
      have start : (issuedAt w c block s.port).commandHeader = w.joined s.port.CLB s.port.CLBU := rfl
      exact (writeHeaderKeeps (by omega) (by omega)).trans (writeTableKeeps promised.fis fits (by omega))
    obtain ⟨kept1,_,freed1⟩ := lookKeeps room look1 spares
    have before := written.trans kept1
    obtain ⟨saved,left⟩ := pollKeeps room (fun r h => spares r (before.ahead r h)) polled
    have kept : Keeps w base s { s1 with ahead, mem } := before.trans ⟨saved,left,rfl⟩
    obtain ⟨kept2,_,freed2⟩ := lookKeeps room look2 fun r h => spares r (kept.ahead r h)
    exact ⟨kept.trans kept2,freed2.trans freed1⟩
  split at ran
  · obtain ⟨⟨e,s3⟩,look3,ran⟩ := Option.bind_eq_some_iff.mp ran
    obtain ⟨s4,stopped,ran⟩ := Option.bind_eq_some_iff.mp ran
    obtain ⟨s5,receiving,ran⟩ := Option.bind_eq_some_iff.mp ran
    obtain ⟨s6,running,ran⟩ := Option.bind_eq_some_iff.mp ran
    simp only [Option.some.injEq,Prod.mk.injEq] at ran
    obtain ⟨_,rfl,rfl⟩ := ran
    refine ⟨rfl,fun room promised spares header => ?_⟩
    obtain ⟨kept2,freed2⟩ := upTo room promised spares header
    obtain ⟨kept3,_,freed3⟩ := lookKeeps room look3 fun r h => spares r (kept2.ahead r h)
    have upTo3 := kept2.trans kept3
    obtain ⟨kept4,freed4⟩ := stopKeeps room stopped fun r h => spares r (upTo3.ahead r h)
    have upTo4 := upTo3.trans kept4
    obtain ⟨kept5,freed5⟩ := receiveKeeps room receiving fun r h => spares r (upTo4.ahead r h)
    have upTo5 := upTo4.trans kept5
    obtain ⟨kept6,freed6⟩ := commandsKeeps room running fun r h => spares r (upTo5.ahead r h)
    have upTo6 := upTo5.trans kept6
    refine ⟨⟨upTo6.saved,upTo6.ahead,upTo6.registers⟩,?_⟩
    show s6.freed ++ [block] = s.freed ++ [block]
    rw [freed6,freed5,freed4,freed3,freed2]
  · simp only [Option.some.injEq,Prod.mk.injEq] at ran
    obtain ⟨_,rfl,rfl⟩ := ran
    refine ⟨rfl,fun room promised spares header => ?_⟩
    obtain ⟨kept2,freed2⟩ := upTo room promised spares header
    have place := setupNear room
    refine ⟨⟨fun q after before => ?_,kept2.ahead,kept2.registers⟩,by rw [← freed2]⟩
    have copied := @copyBytesApart _ _ q (issuedAt w c block s.port).ioBuffer s2.mem _ promised.bufferRoom
      (by have apart := promised.buffer; omega)
    exact copied.trans (kept2.saved q after before)

end

section
variable (w : Width) (base : Nat) (calls : List Call) (s : State)

/- The port taken over with the block at base, the calls, and the port given back: the states behind
ahci_initialize and behind ahci_restore, and between them what was issued. -/
def session : Option (State × List Issued × State) := do
  let (_,started) ← ahciInitialize w (some base) s
  let (issued,ended) ← sataCalls w calls started
  let final ← ahciRestore w ended
  some (started,issued,final)

end

def Within (block size a n : Nat) : Prop := block ≤ a ∧ a + n ≤ block + size

def Issued.Tables (i : Issued) : Prop :=
  Within i.memBase (sataIoctlMemSize + i.buflength) i.commandTable 0x90 ∧
    Within i.memBase (sataIoctlMemSize + i.buflength) i.ioBuffer i.buflength

structure GivenBack (w : Width) (base : Nat) (s started : State) (issued : List Issued) (final : State) : Prop where
  registers : (final.port.CLB,final.port.CLBU,final.port.FB,final.port.FBU) = (s.port.CLB,s.port.CLBU,s.port.FB,s.port.FBU)
  freed : final.freed = s.freed ++ issued.map Issued.memBase ++ [base]
  listed : address started.port.CLB started.port.CLBU = (setupAt w base).commandList
  received : address started.port.FB started.port.FBU = (setupAt w base).receivedFIS
  headers : ∀ i ∈ issued, i.commandHeader = address started.port.CLB started.port.CLBU
  commandList : Within base (ahciInitMemSize w) (setupAt w base).commandList 1024
  receivedFIS : Within base (ahciInitMemSize w) (setupAt w base).receivedFIS 256
  ahciSave : Within base (ahciInitMemSize w) (setupAt w base).ahciSave (saveSize w)
  tables : ∀ i ∈ issued, i.Tables

/- What is at address 1280 when the port has been stopped again is what there is to restore. -/
def SavedLow (w : Width) (base : Nat) (s : State) : Prop :=
  ∀ rc started stopped, ahciInitialize w (some base) s = some (rc,started) → stopPort w started = some stopped →
    Saves w base s.port stopped.mem 1280

/- Pointers of 32 bits; or no call came to its command and the wrong place holds the right values. -/
def Restorable (w : Width) (base : Nat) (calls : List Call) (s : State) : Prop :=
  w = .narrow ∨ (∀ c ∈ calls, ¬ c.Issues) ∧ SavedLow w base s

section
variable {w : Width} {base : Nat} {calls : List Call} {issued : List Issued} {s s' started final : State}

theorem tablesIn {c : Call} {block : Nat} {port : Port} (room : block + (sataIoctlMemSize + c.buflength) ≤ 2^w.bits) :
    (issuedAt w c block port).Tables := by
  have near := @tableNear w block c port room
  have start : (issuedAt w c block port).memBase = block := rfl
  have length : (issuedAt w c block port).buflength = c.buflength := rfl
  unfold Issued.Tables Within
  unfold sataIoctlMemSize
  omega

theorem callsRefused (refused : ∀ c ∈ calls, ¬ c.Issues) (ran : sataCalls w calls s = some (issued,s')) :
    issued = [] ∧ s' = s := by
  induction calls generalizing s issued with
  | nil =>
    obtain ⟨rfl,rfl⟩ := by simpa only [sataCalls,Option.some.injEq,Prod.mk.injEq] using ran
    exact ⟨rfl,rfl⟩
  | cons c rest ih =>
    obtain ⟨⟨rc,i,s1⟩,one,ran⟩ := Option.bind_eq_some_iff.mp ran
    obtain ⟨⟨later,s2⟩,more,ran⟩ := Option.bind_eq_some_iff.mp ran
    obtain ⟨rfl,rfl⟩ := by simpa only [Option.some.injEq,Prod.mk.injEq] using ran
    obtain ⟨rfl,rfl⟩ := callRefused (refused c List.mem_cons_self) one
    exact ih (fun c h => refused c (List.mem_cons_of_mem _ h)) more

theorem callsWide (ran : sataCalls .wide calls s = some (issued,s')) :
    (∀ i ∈ issued, i.commandHeader = 0) ∧ ((∃ c ∈ calls, c.Issues) → issued ≠ []) := by
  induction calls generalizing s issued with
  | nil =>
    obtain ⟨rfl,rfl⟩ := by simpa only [sataCalls,Option.some.injEq,Prod.mk.injEq] using ran
    exact ⟨by simp,by simp⟩
  | cons c rest ih =>
    obtain ⟨⟨rc,i,s1⟩,one,ran⟩ := Option.bind_eq_some_iff.mp ran
    obtain ⟨⟨later,s2⟩,more,ran⟩ := Option.bind_eq_some_iff.mp ran
    obtain ⟨rfl,rfl⟩ := by simpa only [Option.some.injEq,Prod.mk.injEq] using ran
    obtain ⟨zeros,some_⟩ := ih more
    by_cases issues : c.Issues
    · obtain ⟨block,_,rfl,_⟩ := @callIssued _ 0 _ _ _ _ _ issues one
      refine ⟨fun i member => ?_,fun _ => by simp⟩
      rcases List.mem_cons.mp member with rfl | member
      · exact joinedWide _ _
      · exact zeros i member
    · obtain ⟨rfl,rfl⟩ := callRefused issues one
      refine ⟨zeros,?_⟩
      rintro ⟨d,member,issued⟩
      rcases List.mem_cons.mp member with rfl | member
      · exact absurd issued issues
      · exact some_ ⟨d,member,issued⟩

/- Where the header lies in the command list, calls keep the save area and free what they allocate. -/
theorem callsKeep (room : base + ahciInitMemSize w ≤ 2^w.bits) (promised : ∀ c ∈ calls, Promised w base c)
    (spares : ∀ r ∈ s.ahead, Spares w base r) (header : w.joined s.port.CLB s.port.CLBU + 32 ≤ (setupAt w base).ahciSave)
    (ran : sataCalls w calls s = some (issued,s')) :
    Keeps w base s s' ∧ s'.freed = s.freed ++ issued.map Issued.memBase ∧
      ∀ i ∈ issued, i.commandHeader = w.joined s.port.CLB s.port.CLBU ∧ i.Tables := by
  induction calls generalizing s issued with
  | nil =>
    obtain ⟨rfl,rfl⟩ := by simpa only [sataCalls,Option.some.injEq,Prod.mk.injEq] using ran
    exact ⟨.refl _,by simp,by simp⟩
  | cons c rest ih =>
    obtain ⟨⟨rc,i,s1⟩,one,ran⟩ := Option.bind_eq_some_iff.mp ran
    obtain ⟨⟨later,s2⟩,more,ran⟩ := Option.bind_eq_some_iff.mp ran
    obtain ⟨rfl,rfl⟩ := by simpa only [Option.some.injEq,Prod.mk.injEq] using ran
    have promisedLater : ∀ c ∈ rest, Promised w base c := fun c h => promised c (List.mem_cons_of_mem _ h)
    by_cases issues : c.Issues
    · obtain ⟨block,got,rfl,keeps⟩ := callIssued issues one
      have this := promised c List.mem_cons_self
      obtain ⟨kept,freed⟩ := keeps room this spares header
      have same := kept.registers
      simp only [Prod.mk.injEq] at same
      obtain ⟨after,freedLater,headers⟩ :=
        ih promisedLater (fun r h => spares r (kept.ahead r h)) (by rw [same.1,same.2.1]; exact header) more
      rw [same.1,same.2.1] at headers
      refine ⟨kept.trans after,?_,fun i member => ?_⟩
      · rw [freedLater,freed,List.append_assoc]
        rfl
      · rcases List.mem_cons.mp member with rfl | member
        · exact ⟨rfl,tablesIn (this.fresh block got).1⟩
        · exact headers i member
    · obtain ⟨rfl,rfl⟩ := callRefused issues one
      exact ih promisedLater spares header more

theorem restartSame {done : Reading → Bool} {was : UInt8} (changed : Port → Port)
    (ran : restart was (fun s => await w done { s with port := changed s.port }) s = some s')
    (same : ∀ p, ((changed p).CLB,(changed p).CLBU,(changed p).FB,(changed p).FBU) = (p.CLB,p.CLBU,p.FB,p.FBU)) :
    (s'.port.CLB,s'.port.CLBU,s'.port.FB,s'.port.FBU) = (s.port.CLB,s.port.CLBU,s.port.FB,s.port.FBU) ∧
      s'.freed = s.freed := by
  unfold restart at ran
  split at ran
  · obtain ⟨_,_,rfl⟩ := Option.map_eq_some_iff.mp ran
    exact ⟨same _,rfl⟩
  · obtain rfl := Option.some.inj ran
    exact ⟨rfl,rfl⟩

theorem givesBack (ran : giveBack w s = some s') :
    let saved := readSave w s.mem (w.joined s.port.CLB s.port.CLBU + 1024 + 256)
    (s'.port.CLB,s'.port.CLBU,s'.port.FB,s'.port.FBU) =
        (saved.originalCLB,saved.originalCLBU,saved.originalFB,saved.originalFBU) ∧
      s'.freed = s.freed ++ [saved.baseMemoryAddress] := by
  unfold giveBack at ran
  obtain ⟨s1,receiving,ran⟩ := Option.bind_eq_some_iff.mp ran
  obtain ⟨s2,running,ran⟩ := Option.bind_eq_some_iff.mp ran
  obtain rfl := Option.some.inj ran
  obtain ⟨same1,freed1⟩ := restartSame (fun p => { p with FRE := true }) receiving fun _ => rfl
  obtain ⟨same2,freed2⟩ := restartSame (fun p => { p with ST := true }) running fun _ => rfl
  refine ⟨same2.trans same1,?_⟩
  show s2.freed ++ _ = _
  rw [freed2,freed1]

theorem restoredIff {stopped : State} {a : Nat} (place : w.joined stopped.port.CLB stopped.port.CLBU + 1280 = a)
    (ran : giveBack w stopped = some final) :
    ((final.port.CLB,final.port.CLBU,final.port.FB,final.port.FBU) = (s.port.CLB,s.port.CLBU,s.port.FB,s.port.FBU) ∧
      final.freed = stopped.freed ++ [base]) ↔ Saves w base s.port stopped.mem a := by
  obtain ⟨registers,freed⟩ := givesBack ran
  rw [Nat.add_assoc,place] at registers freed
  rw [registers,freed]
  simp only [Prod.mk.injEq,List.append_cancel_left_eq,List.cons.injEq,and_true]
  constructor
  · rintro ⟨⟨a,b,c,d⟩,e⟩
    exact ⟨e,a,b,c,d⟩
  · rintro ⟨e,a,b,c,d⟩
    exact ⟨⟨a,b,c,d⟩,e⟩

theorem givenBackIff (room : base + ahciInitMemSize w ≤ 2^w.bits) (promised : ∀ c ∈ calls, Promised w base c)
    (spares : ∀ r ∈ s.ahead, Spares w base r) (ran : session w base calls s = some (started,issued,final)) :
    GivenBack w base s started issued final ↔ Restorable w base calls s := by
  obtain ⟨⟨rc,started'⟩,initialized,ran⟩ := Option.bind_eq_some_iff.mp ran
  obtain ⟨⟨issued',ended⟩,called,ran⟩ := Option.bind_eq_some_iff.mp ran
  obtain ⟨final',restored,ran⟩ := Option.bind_eq_some_iff.mp ran
  obtain ⟨rfl,rfl,rfl⟩ := by simpa only [Option.some.injEq,Prod.mk.injEq] using ran
  obtain ⟨stopped,stops,gives⟩ := Option.bind_eq_some_iff.mp restored
  have place := setupNear room
  have fis : (setupAt w base).receivedFIS = (setupAt w base).commandList + 1024 := rfl
  obtain ⟨ahead,freed,saves,list,received⟩ := initSpec room spares initialized
  have listed : address started'.port.CLB started'.port.CLBU = (setupAt w base).commandList := by
    rw [(Prod.mk.inj list).1,(Prod.mk.inj list).2]
    exact splitAddress (by omega)
  have areas : (address started'.port.FB started'.port.FBU = (setupAt w base).receivedFIS) ∧
      Within base (ahciInitMemSize w) (setupAt w base).commandList 1024 ∧
      Within base (ahciInitMemSize w) (setupAt w base).receivedFIS 256 ∧
      Within base (ahciInitMemSize w) (setupAt w base).ahciSave (saveSize w) := by
    refine ⟨?_,?_⟩
    · rw [(Prod.mk.inj received).1,(Prod.mk.inj received).2]
      exact splitAddress (by omega)
    · unfold Within
      omega
  cases w with
  | narrow =>
    refine ⟨fun _ => Or.inl rfl,fun _ => ?_⟩
    have joined : Width.narrow.joined started'.port.CLB started'.port.CLBU = (setupAt .narrow base).commandList := by
      rw [(Prod.mk.inj list).1,(Prod.mk.inj list).2]
      exact joinedNarrow (show _ < 2^Width.narrow.bits by omega)
    obtain ⟨kept,frees,tables⟩ := callsKeep room promised (fun r h => spares r (ahead r h)) (by omega) called
    obtain ⟨still,stopFreed⟩ := stopKeeps room stops fun r h => spares r (ahead r (kept.ahead r h))
    have all := kept.trans still
    have same := all.registers
    simp only [Prod.mk.injEq] at same
    have saved := (savesSame (by omega) all.saved).mpr saves
    obtain ⟨registers,last⟩ := (restoredIff (by rw [same.1,same.2.1,joined]; omega) gives).mpr saved
    exact {
      registers
      freed := by rw [last,stopFreed,frees,freed]
      listed
      received := areas.1
      headers := fun i h => by rw [(tables i h).1,joined,listed]
      commandList := areas.2.1
      receivedFIS := areas.2.2.1
      ahciSave := areas.2.2.2
      tables := fun i h => (tables i h).2 }
  | wide =>
    obtain ⟨zeros,some_⟩ := callsWide called
    have low := @restoredIff _ base s _ _ 1280 (by rw [joinedWide]) gives
    constructor
    · intro good
      have refused : ∀ c ∈ calls, ¬ c.Issues := by
        intro c member issues
        obtain ⟨i,rest,shape⟩ := List.exists_cons_of_ne_nil (some_ ⟨c,member,issues⟩)
        have first : i ∈ issued' := shape ▸ List.mem_cons_self
        have header := good.headers i first
        rw [zeros i first,listed] at header
        omega
      obtain ⟨rfl,rfl⟩ := callsRefused refused called
      obtain ⟨_,stopFreed⟩ := stopKeeps room stops fun r h => spares r (ahead r h)
      refine Or.inr ⟨refused,fun rc' other stopped' initialized' stops' => ?_⟩
      obtain ⟨_,rfl⟩ := Prod.mk.inj (Option.some.inj (initialized'.symm.trans initialized))
      obtain rfl := Option.some.inj (stops'.symm.trans stops)
      refine low.mp ⟨good.registers,?_⟩
      rw [good.freed,stopFreed,freed,List.map_nil,List.append_nil]
    · rintro (narrow | ⟨refused,savedLow⟩)
      · exact absurd narrow (by decide)
      · obtain ⟨rfl,rfl⟩ := callsRefused refused called
        obtain ⟨_,stopFreed⟩ := stopKeeps room stops fun r h => spares r (ahead r h)
        obtain ⟨registers,last⟩ := low.mpr (savedLow rc ended stopped initialized stops)
        exact {
          registers
          freed := by rw [last,stopFreed,freed,List.map_nil,List.append_nil]
          listed
          received := areas.1
          headers := by simp
          commandList := areas.2.1
          receivedFIS := areas.2.2.1
          ahciSave := areas.2.2.2
          tables := by simp }

end

def quiet : Reading := ⟨0,false,true,false,0,[]⟩
def receiving : Reading := ⟨0,true,true,false,0,[]⟩

/- An idle controller is looked at by ahci_initialize, a call without an error, and ahci_restore. -/
def found : State where
  port := ⟨0x1000,0,0x2000,0,true,true⟩
  mem := fun _ => 0
  ahead := [quiet,quiet,quiet,quiet,receiving,receiving] ++ [quiet,quiet,quiet,quiet] ++ [quiet,quiet,receiving,receiving]
  freed := []

def identify : Call := ⟨0,List.replicate 20 0,0x300000,512,some 0x200000⟩

theorem identifyPromised (w : Width) : ∀ c ∈ [identify], Promised w 0x100000 c := by
  intro c member
  obtain rfl := List.mem_singleton.mp member
  cases w <;> exact ⟨by decide,by decide,by decide,by rintro _ ⟨⟩; decide⟩

theorem foundSpares (w : Width) (base : Nat) : ∀ r ∈ found.ahead, Spares w base r := by
  intro r member block written
  have none_ : ∀ r ∈ found.ahead, r.dma = [] := by decide
  rw [none_ r member] at written
  exact absurd written List.not_mem_nil

theorem narrowGivenBack : ∃ started issued final, session .narrow 0x100000 [identify] found = some (started,issued,final) ∧
    GivenBack .narrow 0x100000 found started issued final := by
  have result : (session .narrow 0x100000 [identify] found).map (fun r => r.2.2.freed) = some [0x200000,0x100000] := by
    decide +kernel
  obtain ⟨⟨started,issued,final⟩,ran,_⟩ := Option.map_eq_some_iff.mp result
  exact ⟨started,issued,final,ran,
    (givenBackIff (by decide) (identifyPromised _) (foundSpares _ _) ran).mpr (Or.inl rfl)⟩

/- The header goes to address 0, and 0 is what CLB becomes and what is freed. -/
theorem wideLost : ¬ ∀ w base calls s started issued final, base + ahciInitMemSize w ≤ 2^w.bits →
    (∀ c ∈ calls, Promised w base c) → (∀ r ∈ s.ahead, Spares w base r) →
    session w base calls s = some (started,issued,final) → GivenBack w base s started issued final := by
  intro all
  have result : (session .wide 0x100000 [identify] found).map (fun r => (r.2.2.port.CLB,r.2.2.freed)) =
      some (0,[0x200000,0]) := by decide +kernel
  obtain ⟨⟨started,issued,final⟩,ran,lost⟩ := Option.map_eq_some_iff.mp result
  have good := all .wide 0x100000 [identify] found started issued final (by decide) (identifyPromised _)
    (foundSpares _ _) ran
  have same := (Prod.mk.inj good.registers).1
  rw [show final.port.CLB = 0 from (Prod.mk.inj lost).1] at same
  exact absurd same (by decide)

end Syslinux.Ahci
