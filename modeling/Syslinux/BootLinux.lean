import Syslinux.Initramfs
import Syslinux.Readconfig
import Syslinux.ShuffleArea
import Syslinux.Zones

/-! bios_boot_linux of com32/lib/syslinux/load_linux.c, up to the call of syslinux_shuffle_boot_rm.
The header is the one at kernel_buf, with the fields that are read or written; the map is what
syslinux_memory_map returned. A null initramfs or setup_data is an empty list. `Attempt` threads
the outcomes of malloc and stops with the errno of a bail. -/
namespace Syslinux.BootLinux
open Align Zonelist Zonelist.MemmapType Relocation Initramfs Zones
open Readconfig (Text isspace char strntoumax)

inductive Errno where
  | einval | enomem | enxio
  deriving DecidableEq, Repr

abbrev Attempt := StateT (List Bool) (Except Errno)

def bail {α : Type} (e : Errno) : Attempt α := fun _ => .error e

def addMemmap (e : Errno) (list : List Zone) (start len : Nat) (type : MemmapType) : Attempt (List Zone) :=
  fun mallocs =>
    let r := syslinuxAddMemmap mallocs list start len type
    if r.rv ≠ 0 then .error e else .ok (r.list,r.mallocs)

def addMovelist (e : Errno) (fraglist : List Move) (dst src len : Nat) : Attempt (List Move) := fun mallocs =>
  let r := syslinuxAddMovelist mallocs fraglist dst src len
  if r.1 ≠ 0 then .error e else .ok r.2

def dupMemmap (list : List Zone) : Attempt (List Zone) := fun mallocs =>
  match Shuffle.syslinuxDupMemmap list mallocs with
  | .ok r => .ok r
  | .error _ => .error .enomem

structure LinuxHeader where
  oldCmdLineMagic : UInt16
  oldCmdLineOffset : UInt16
  setupSects : UInt8
  vidMode : UInt16
  bootFlag : UInt16
  header : UInt32
  version : UInt16
  typeOfLoader : UInt8
  loadflags : UInt8
  setupMoveSize : UInt16
  code32Start : UInt32
  ramdiskImage : UInt32
  ramdiskSize : UInt32
  heapEndPtr : UInt16
  cmdLinePtr : UInt32
  initrdAddrMax : UInt32
  kernelAlignment : UInt32
  relocatableKernel : UInt8
  cmdlineMaxLen : UInt32
  setupData : UInt64
  initSize : UInt32
  deriving DecidableEq, Repr

def bootMagic : UInt16 := 0xaa55
def linuxMagic : UInt32 := 0x53726448
def oldCmdlineMagic : UInt16 := 0xa33f
def canUseHeap : UInt8 := 0x80

def LinuxHeader.loadHigh (hdr : LinuxHeader) : Prop := hdr.loadflags &&& 0x01 ≠ 0
instance (hdr : LinuxHeader) : Decidable hdr.loadHigh := by unfold LinuxHeader.loadHigh; infer_instance

/- A block of setup data: the address of its header in memory, and the header's own fields. -/
structure SetupData where
  hdr : Nat
  data : Nat
  next : UInt64
  len : UInt32
  deriving DecidableEq, Repr

def sizeofSetupDataHeader : Nat := 16

/- No object in this memory has 2^31 bytes or more, the command line and its NUL included. -/
structure Call where
  kernelBuf : Nat
  kernelSize : UInt32
  hdr : LinuxHeader
  initramfs : List Chunk
  setupData : List SetupData
  cmdlineBuf : Nat
  cmdline : Text
  short : cmdline.length + 1 < 2^31

def findArgumentFrom (argument : Text) : Option Text → Bool → Text → Option Text
  | found,_,[] => found
  | found,wasSpace,c::p =>
      if isspace c then findArgumentFrom argument found true p
      else if wasSpace then
        findArgumentFrom argument (if argument.isPrefixOf (c::p) then some ((c::p).drop argument.length) else found)
          false p
      else findArgumentFrom argument found wasSpace p

def findArgument (cmdline argument : Text) : Option Text := findArgumentFrom argument none true cmdline

def saturate32 (v : Nat) : Nat := if 0xffffffff < v then 0xffffffff else v

/- suffix_number of com32/lib/suffix_number.c -/
def suffixShift (c : UInt8) : Nat :=
  if c = 0x6b then 10
  else if c = 0x6d then 20
  else if c = 0x67 then 30
  else if c = 0x74 then 40
  else if c = 0x70 then 50
  else if c = 0x65 then 60
  else 0

def suffixNumber (str : Text) : Nat :=
  let (v,ep) := strntoumax str 0
  v*2^suffixShift (char ep ||| 0x20) % 2^64

/- "mem=" and "vga=" -/
def memEquals : Text := [0x6d,0x65,0x6d,0x3d]
def vgaEquals : Text := [0x76,0x67,0x61,0x3d]

def memArgument (cmdline : Text) : Nat :=
  match findArgument cmdline memEquals with
  | some arg => saturate32 (suffixNumber arg)
  | none => 0

def vgaArgument (cmdline : Text) : UInt16 :=
  match findArgument cmdline vgaEquals with
  | some arg =>
      let c := char arg ||| 0x20
      if c = 0x61 then 0xfffd
      else if c = 0x65 then 0xfffe
      else if c = 0x6e then 0xffff
      else if c = 0x63 then 0x0f04
      else UInt16.ofNat (strntoumax arg 0).1
  | none => 0

/- The private copy of the header, with the defaults of the older versions. -/
def oldKernel (hdr : LinuxHeader) : LinuxHeader :=
  if hdr.header ≠ linuxMagic then { hdr with version := 0x0100, loadflags := 0 } else hdr

def defaultSects (hdr : LinuxHeader) : LinuxHeader := if hdr.setupSects = 0 then { hdr with setupSects := 4 } else hdr

def defaultAddrMax (hdr : LinuxHeader) : LinuxHeader :=
  if hdr.version < 0x0203 ∨ hdr.initrdAddrMax = 0 then { hdr with initrdAddrMax := 0x37ffffff } else hdr

def defaultRelocatable (hdr : LinuxHeader) : LinuxHeader :=
  if hdr.version < 0x0205 ∨ ¬hdr.loadHigh then { hdr with relocatableKernel := 0 } else hdr

def defaultMaxLen (hdr : LinuxHeader) : LinuxHeader :=
  if hdr.version < 0x0206 then { hdr with cmdlineMaxLen := 256 } else hdr

def privateHeader (hdr : LinuxHeader) : LinuxHeader :=
  defaultMaxLen (defaultRelocatable (defaultAddrMax (defaultSects (oldKernel hdr))))

structure Setup where
  hdr : LinuxHeader
  videoMode : UInt16
  memlimit : Nat
  cmdline : Text
  cmdlineSize : Nat
  realModeSize : Nat
  realModeBase : Nat
  protModeBase : Nat
  protModeMax : Nat
  protModeSize : Nat

/- A command line that is too long is cut; with no room at all the NUL is put in front of it. -/
def cutCmdline (maxLen : Nat) (cmdline : Text) : Text × Nat :=
  if maxLen < add32 cmdline.length 1 then (if maxLen = 0 then cmdline else cmdline.take (maxLen - 1),maxLen)
  else (cmdline,add32 cmdline.length 1)

def LinuxHeader.realModeSize (hdr : LinuxHeader) : Nat := (hdr.setupSects.toNat + 1)*512
def LinuxHeader.realModeBase (hdr : LinuxHeader) : Nat := if hdr.loadHigh then 0x10000 else 0x90000
def LinuxHeader.protModeBase (hdr : LinuxHeader) : Nat := if hdr.loadHigh then 0x100000 else 0x10000
def LinuxHeader.protModeMax (hdr : LinuxHeader) : Nat := if hdr.loadHigh then 0xffffffff else 0x8ffff

def limitOf (memlimit : Nat) (hdr : LinuxHeader) : Nat :=
  if memlimit = 0 ∧ hdr.initrdAddrMax.toNat < sub32 memlimit 1 then add32 hdr.initrdAddrMax.toNat 1 else memlimit

def defaultInitSize (protModeSize : Nat) (hdr : LinuxHeader) : LinuxHeader :=
  if hdr.version < 0x020a then { hdr with initSize := UInt32.ofNat (3*protModeSize) } else hdr

def setup (c : Call) : Setup :=
  let hdr := privateHeader c.hdr
  let line := cutCmdline hdr.cmdlineMaxLen.toNat c.cmdline
  let protModeSize := sub32 c.kernelSize.toNat hdr.realModeSize
  { hdr := defaultInitSize protModeSize hdr
    videoMode := vgaArgument c.cmdline
    memlimit := limitOf (memArgument c.cmdline) hdr
    cmdline := line.1
    cmdlineSize := line.2
    realModeSize := hdr.realModeSize
    realModeBase := hdr.realModeBase
    protModeBase := hdr.protModeBase
    protModeMax := hdr.protModeMax
    protModeSize }

/- The two searches of calc_cmdline_offset. -/
def lowmem (mmap : List Zone) (cmdlineSize start : Nat) : Option Nat :=
  let free := syslinuxMemmapHighest mmap ⟨smtFree,start,cmdlineSize,0xa0000,16⟩
  if free.rv = 0 then some free.start
  else
    let terminal := syslinuxMemmapHighest mmap ⟨smtTerminal,free.start,cmdlineSize,0xa0000,16⟩
    if terminal.rv = 0 then some terminal.start else none

def LinuxHeader.newCmdline (hdr : LinuxHeader) : Prop := 0x0202 ≤ hdr.version ∧ hdr.loadHigh
instance (hdr : LinuxHeader) : Decidable hdr.newCmdline := by unfold LinuxHeader.newCmdline; infer_instance

def maxOffset (hdr : LinuxHeader) (cmdlineSize : Nat) : Nat :=
  if hdr.newCmdline then 0x10000 else sub32 0xfff0 cmdlineSize

def calcCmdlineOffset (mmap : List Zone) (hdr : LinuxHeader) (cmdlineSize base start : Nat) : Nat :=
  match lowmem mmap cmdlineSize start with
  | some start => alignDown (min (sub32 start base) (maxOffset hdr cmdlineSize)) 16
  | none => alignDown (sub32 0x9ff0 cmdlineSize) 16

/- The kernel with its command line in memory. `available` is amap when the two searches run on it. -/
structure Kernel where
  whdr : LinuxHeader
  available : List Zone
  base : Nat
  realModeBase : Nat
  cmdlineOffset : Nat
  fraglist : List Move
  mmap : List Zone
  amap : List Zone

def loaderFields (hdr whdr : LinuxHeader) (cmdlineOffset : Nat) : LinuxHeader :=
  if 0x0200 ≤ hdr.version then
    let whdr := { whdr with typeOfLoader := 0x30 }
    if 0x0201 ≤ hdr.version then
      { whdr with heapEndPtr := UInt16.ofNat (sub32 cmdlineOffset 0x0200), loadflags := whdr.loadflags ||| canUseHeap }
    else whdr
  else whdr

def cmdlineFields (hdr whdr : LinuxHeader) (realModeBase cmdlineOffset cmdlineSize : Nat) : LinuxHeader :=
  if 0x0202 ≤ hdr.version then { whdr with cmdLinePtr := UInt32.ofNat (add32 realModeBase cmdlineOffset) }
  else
    let whdr := { whdr with oldCmdLineMagic := oldCmdlineMagic, oldCmdLineOffset := UInt16.ofNat cmdlineOffset }
    if 0x0200 ≤ hdr.version then
      { whdr with setupMoveSize := UInt16.ofNat (alignUp (add32 cmdlineOffset cmdlineSize) 16) }
    else whdr

/- The search for the protected-mode code, and the one for the real-mode code. -/
def findProtMode (s : Setup) (amap : List Zone) : Found :=
  if s.protModeSize = 0 then ⟨0,s.protModeBase⟩
  else
    let relocatable := s.hdr.relocatableKernel ≠ 0
    syslinuxMemmapFind amap s.protModeBase (if relocatable then s.hdr.initSize.toNat else s.protModeSize) relocatable
      s.hdr.kernelAlignment.toNat ⟨s.protModeBase,s.protModeMax,s.protModeBase,s.protModeMax⟩

def findRealMode (s : Setup) (amap : List Zone) (cmdlineOffset : Nat) : Found :=
  syslinuxMemmapFind amap s.realModeBase (add32 cmdlineOffset s.cmdlineSize) true 16
    ⟨s.realModeBase,0x90000,0,640*1024⟩

def limitMemory (s : Setup) (amap : List Zone) : Attempt (List Zone) :=
  if s.memlimit ≠ 0 then addMemmap .enomem amap s.memlimit (sub32 0 s.memlimit) smtReserved else pure amap

def placeKernel (c : Call) (s : Setup) (mmap amap : List Zone) : Attempt Kernel := do
  let cmdlineOffset := calcCmdlineOffset mmap s.hdr s.cmdlineSize s.realModeBase (add32 s.realModeBase s.realModeSize)
  if ¬s.hdr.loadHigh ∧ 512*1024 < s.protModeSize then bail .einval else
  if initramfsSize c.initramfs ≠ 0 ∧ s.hdr.version < 0x0200 then bail .einval else
  let whdr := loaderFields s.hdr { c.hdr with vidMode := s.videoMode } cmdlineOffset
  let available ← limitMemory s amap
  let prot := findProtMode s available
  if prot.rv ≠ 0 then bail .einval else
  let base := prot.start
  let whdr := { whdr with code32Start := whdr.code32Start + UInt32.ofNat (sub32 base s.protModeBase) }
  let real := findRealMode s available cmdlineOffset
  if real.rv ≠ 0 then bail .einval else
  let realModeBase := real.start
  let fraglist ← addMovelist .einval [] realModeBase c.kernelBuf s.realModeSize
  let amap ← addMemmap .enomem available realModeBase (add32 cmdlineOffset s.cmdlineSize) smtAlloc
  let mmap ← addMemmap .enomem mmap (add32 realModeBase s.realModeSize) (sub32 cmdlineOffset s.realModeSize) smtZero
  let fraglist ← addMovelist .enomem fraglist (add32 realModeBase cmdlineOffset) c.cmdlineBuf s.cmdlineSize
  let whdr := cmdlineFields s.hdr whdr realModeBase cmdlineOffset s.cmdlineSize
  if s.protModeSize ≠ 0 then
    let fraglist ← addMovelist .enomem fraglist s.protModeBase (add32 c.kernelBuf s.realModeSize) s.protModeSize
    let amap ← addMemmap .enomem amap s.protModeBase s.protModeSize smtAlloc
    pure ⟨whdr,available,base,realModeBase,cmdlineOffset,fraglist,mmap,amap⟩
  else pure ⟨whdr,available,base,realModeBase,cmdlineOffset,fraglist,mmap,amap⟩

/- The loop that the initramfs and each block of setup data go through: the last zone that has
the room decides. -/
def bestAddr (size align : Nat) : Nat → List Zone → Nat
  | best,ml::next::rest =>
      if ml.type = smtEnd then best
      else
        let adjStart := alignUp ml.start align
        let adjEnd := alignDown next.start align
        bestAddr size align
          (if ml.type = smtFree ∧ size ≤ sub32 adjEnd adjStart then alignDown (sub32 adjEnd size) align else best)
          (next::rest)
  | best,_ => best

/- Where something was put and the map it was put into: `size` is what was asked for, `bytes` are
copied there. -/
structure Placement where
  amap : List Zone
  addr : Nat
  size : Nat
  align : Nat
  bytes : Nat
  deriving DecidableEq, Repr

structure State where
  whdr : LinuxHeader
  fraglist : List Move
  mmap : List Zone
  amap : List Zone

def placeInitramfs (c : Call) (st : State) : Attempt (State × Option Placement) := do
  let irfSize := initramfsSize c.initramfs
  if irfSize = 0 then pure (st,none) else
  let addr := bestAddr irfSize initramfsMaxAlign 0 st.amap
  if addr = 0 then bail .einval else
  let whdr := { st.whdr with ramdiskImage := UInt32.ofNat addr, ramdiskSize := UInt32.ofNat irfSize }
  let amap ← addMemmap .enomem st.amap addr irfSize smtAlloc
  fun mallocs =>
    let r := mapInitramfs mallocs st.fraglist st.mmap c.initramfs addr
    if r.rv ≠ 0 then .error .enomem
    else .ok ((⟨whdr,r.fraglist,r.mmap,amap⟩,some ⟨st.amap,addr,irfSize,initramfsMaxAlign,irfSize⟩),r.mallocs)

structure PlacedData where
  state : State
  placements : List Placement
  link : Option Nat
  blocks : List SetupData

/- `link` is what is stored through prev_ptr: the address of the first block that is placed. -/
def placeSetupData (hdr : LinuxHeader) (st : State) : List SetupData → Attempt PlacedData
  | [] => pure ⟨st,[],none,[]⟩
  | sdp::rest => do
      let size := add32 sdp.len.toNat sizeofSetupDataHeader
      if sdp.data = 0 ∨ sdp.len = 0 then
        let r ← placeSetupData hdr st rest
        pure { r with blocks := sdp::r.blocks }
      else if hdr.version < 0x0209 then bail .enxio
      else
        let addr := bestAddr size 16 0 st.amap
        if addr = 0 then bail .einval else
        let amap ← addMemmap .enomem st.amap addr size smtAlloc
        let fraglist ← addMovelist .enomem st.fraglist addr sdp.hdr sizeofSetupDataHeader
        let fraglist ← addMovelist .enomem fraglist (add32 addr sizeofSetupDataHeader) sdp.data sdp.len.toNat
        let r ← placeSetupData hdr { st with amap, fraglist } rest
        let linked := match r.link with
          | some next => { sdp with next := UInt64.ofNat next }
          | none => sdp
        pure ⟨r.state,⟨st.amap,addr,size,16,sizeofSetupDataHeader + sdp.len.toNat⟩::r.placements,some addr,linked::r.blocks⟩

structure RmRegs where
  segments : UInt16
  cs : UInt16
  sp : UInt16
  deriving DecidableEq, Repr

/- What syslinux_shuffle_boot_rm is called with, and how it came about. -/
structure Boot where
  kernel : Kernel
  initramfs : Option Placement
  setupData : List Placement
  blocks : List SetupData
  whdr : LinuxHeader
  fraglist : List Move
  mmap : List Zone
  regs : RmRegs
  forceTextMode : Bool

def biosBootLinux (c : Call) (map : Option (List Zone)) : Attempt Boot := do
  if c.kernelSize < 2*512 then bail .einval else
  let s := setup c
  if c.hdr.bootFlag ≠ bootMagic then bail .einval else
  match map with
  | none => bail .enomem
  | some mmap =>
    let amap ← dupMemmap mmap
    let kernel ← placeKernel c s mmap amap
    let (st,initramfs) ← placeInitramfs c ⟨kernel.whdr,kernel.fraglist,kernel.mmap,kernel.amap⟩
    let r ← placeSetupData s.hdr st c.setupData
    let whdr := match r.link with
      | some first => { r.state.whdr with setupData := UInt64.ofNat first }
      | none => r.state.whdr
    pure {
      kernel, initramfs
      setupData := r.placements
      blocks := r.blocks
      whdr
      fraglist := r.state.fraglist
      mmap := r.state.mmap
      regs := ⟨UInt16.ofNat (kernel.realModeBase / 16),UInt16.ofNat (kernel.realModeBase / 16 + 0x20),
        UInt16.ofNat (min kernel.cmdlineOffset 0xfff0)⟩
      forceTextMode := s.videoMode ≠ 0x0f04 }

section
variable {α β : Type} {m m' : List Bool} {e : Errno}

theorem attemptBind {x : Attempt α} {f : α → Attempt β} {b : β} (ok : (x >>= f) m = .ok (b,m')) :
    ∃ a n, x m = .ok (a,n) ∧ f a n = .ok (b,m') := by
  simp only [bind,StateT.bind,Except.bind] at ok
  split at ok
  · contradiction
  · rename_i v eq
    exact ⟨v.1,v.2,eq,ok⟩

theorem attemptPure {a b : α} (ok : (pure a : Attempt α) m = .ok (b,m')) : b = a := by
  have same : (a,m) = (b,m') := Except.ok.inj ok
  cases same
  rfl

theorem attemptGuard {p : Prop} [Decidable p] {x : Attempt α} {b : α}
    (ok : (if p then bail e else x) m = .ok (b,m')) : ¬p ∧ x m = .ok (b,m') := by
  split at ok
  · cases ok
  next other => exact ⟨other,ok⟩

theorem addMemmapResult {list list' : List Zone} {start len : Nat} {type : MemmapType}
    (ok : addMemmap e list start len type m = .ok (list',m')) : list' = addAll list [⟨start,len,type⟩] := by
  simp only [addMemmap] at ok
  split at ok
  · cases ok
  next fine =>
    cases Except.ok.inj ok
    exact Shuffle.addMemmapList (not_not.mp fine)

theorem addMovelistResult {fraglist fraglist' : List Move} {dst src len : Nat}
    (ok : addMovelist e fraglist dst src len m = .ok (fraglist',m')) : fraglist' = ⟨dst,src,len⟩::fraglist := by
  unfold addMovelist syslinuxAddMovelist at ok
  rcases outcome : malloc m with ⟨_ | _,rest⟩
  · simp [outcome] at ok
  · simp only [outcome,ne_eq,not_true_eq_false,if_false] at ok
    cases Except.ok.inj ok
    rfl

theorem dupMemmapResult {list list' : List Zone} (ok : dupMemmap list m = .ok (list',m')) : list' = list := by
  unfold dupMemmap at ok
  split at ok
  next r same =>
    cases Except.ok.inj ok
    exact Shuffle.dupMemmapOk same
  · cases ok

end

def availableMap (s : Setup) (map : List Zone) : List Zone :=
  if s.memlimit ≠ 0 then addAll map [⟨s.memlimit,sub32 0 s.memlimit,smtReserved⟩] else map

theorem limitMemoryResult {s : Setup} {map available : List Zone} {m m' : List Bool}
    (ok : limitMemory s map m = .ok (available,m')) : available = availableMap s map := by
  unfold limitMemory at ok
  unfold availableMap
  split at ok
  next limited => rw [if_pos limited,addMemmapResult ok]
  next limited => rw [if_neg limited,attemptPure ok]

structure KernelPlaced (c : Call) (s : Setup) (map : List Zone) (k : Kernel) : Prop where
  low : s.hdr.loadHigh ∨ s.protModeSize ≤ 512*1024
  supported : initramfsSize c.initramfs = 0 ∨ 0x0200 ≤ s.hdr.version
  offset : k.cmdlineOffset =
    calcCmdlineOffset map s.hdr s.cmdlineSize s.realModeBase (add32 s.realModeBase s.realModeSize)
  available : k.available = availableMap s map
  prot : findProtMode s k.available = ⟨0,k.base⟩
  code32 : k.whdr.code32Start = c.hdr.code32Start + UInt32.ofNat (sub32 k.base s.protModeBase)
  real : findRealMode s k.available k.cmdlineOffset = ⟨0,k.realModeBase⟩
  fraglist : k.fraglist =
    (if s.protModeSize ≠ 0 then [⟨s.protModeBase,add32 c.kernelBuf s.realModeSize,s.protModeSize⟩] else []) ++
      [⟨add32 k.realModeBase k.cmdlineOffset,c.cmdlineBuf,s.cmdlineSize⟩,⟨k.realModeBase,c.kernelBuf,s.realModeSize⟩]
  mmap : k.mmap = addAll map
    [⟨add32 k.realModeBase s.realModeSize,sub32 k.cmdlineOffset s.realModeSize,smtZero⟩]
  amap : k.amap = addAll k.available (⟨k.realModeBase,add32 k.cmdlineOffset s.cmdlineSize,smtAlloc⟩::
    if s.protModeSize ≠ 0 then [⟨s.protModeBase,s.protModeSize,smtAlloc⟩] else [])

theorem foundAt {r : Found} (found : ¬r.rv ≠ 0) : r = ⟨0,r.start⟩ := by
  cases r
  simp only [ne_eq,not_not] at found
  rw [found]

theorem loaderFieldsCode32 (hdr whdr : LinuxHeader) (offset : Nat) :
    (loaderFields hdr whdr offset).code32Start = whdr.code32Start := by
  unfold loaderFields
  split
  · dsimp only
    split <;> rfl
  · rfl

theorem cmdlineFieldsCode32 (hdr whdr : LinuxHeader) (base offset size : Nat) :
    (cmdlineFields hdr whdr base offset size).code32Start = whdr.code32Start := by
  unfold cmdlineFields
  split
  · rfl
  · dsimp only
    split <;> rfl

theorem placeKernelResult {c : Call} {s : Setup} {map : List Zone} {k : Kernel} {m m' : List Bool}
    (ok : placeKernel c s map map m = .ok (k,m')) : KernelPlaced c s map k := by
  unfold placeKernel at ok
  obtain ⟨low,ok⟩ := attemptGuard ok
  obtain ⟨supported,ok⟩ := attemptGuard ok
  obtain ⟨available,_,limited,ok⟩ := attemptBind ok
  obtain ⟨prot,ok⟩ := attemptGuard ok
  obtain ⟨real,ok⟩ := attemptGuard ok
  obtain ⟨frag1,_,code,ok⟩ := attemptBind ok
  obtain ⟨amap1,_,reserved,ok⟩ := attemptBind ok
  obtain ⟨mmap1,_,zero,ok⟩ := attemptBind ok
  obtain ⟨frag2,_,line,ok⟩ := attemptBind ok
  rw [limitMemoryResult limited] at *
  rw [addMemmapResult reserved,addMemmapResult zero,addMovelistResult line,addMovelistResult code] at ok
  have low' : s.hdr.loadHigh ∨ s.protModeSize ≤ 512*1024 := by
    by_cases high : s.hdr.loadHigh
    · exact Or.inl high
    · exact Or.inr (by by_contra large; exact low ⟨high,by omega⟩)
  have supported' : initramfsSize c.initramfs = 0 ∨ 0x0200 ≤ s.hdr.version := by
    by_cases none' : initramfsSize c.initramfs = 0
    · exact Or.inl none'
    · exact Or.inr (UInt16.not_lt.mp (fun old => supported ⟨none',old⟩))
  split at ok
  next some' =>
    obtain ⟨frag3,_,image,ok⟩ := attemptBind ok
    obtain ⟨amap2,_,marked,ok⟩ := attemptBind ok
    rw [addMemmapResult marked,addMovelistResult image] at ok
    rw [attemptPure ok]
    refine ⟨low',supported',rfl,rfl,foundAt prot,?_,foundAt real,?_,rfl,?_⟩
    · rw [cmdlineFieldsCode32,loaderFieldsCode32]
    · rw [if_pos some']
      rfl
    · rw [if_pos some']
      rfl
  next none' =>
    rw [attemptPure ok]
    refine ⟨low',supported',rfl,rfl,foundAt prot,?_,foundAt real,?_,rfl,?_⟩
    · rw [cmdlineFieldsCode32,loaderFieldsCode32]
    · rw [if_neg none']
      rfl
    · rw [if_neg none']

/- What the placements did to amap: one step for the initramfs, and a run over the blocks. -/
inductive InitramfsPlaced (chain : List Chunk) (amap : List Zone) : Option Placement → List Zone → Prop
  | none (zero : initramfsSize chain = 0) : InitramfsPlaced chain amap none amap
  | placed (some' : initramfsSize chain ≠ 0) (fits : bestAddr (initramfsSize chain) initramfsMaxAlign 0 amap ≠ 0) :
      InitramfsPlaced chain amap
        (some ⟨amap,bestAddr (initramfsSize chain) initramfsMaxAlign 0 amap,initramfsSize chain,initramfsMaxAlign,
          initramfsSize chain⟩)
        (addAll amap
          [⟨bestAddr (initramfsSize chain) initramfsMaxAlign 0 amap,initramfsSize chain,smtAlloc⟩])

def blockSize (sdp : SetupData) : Nat := add32 sdp.len.toNat sizeofSetupDataHeader

def blockPlacement (sdp : SetupData) (amap : List Zone) : Placement :=
  ⟨amap,bestAddr (blockSize sdp) 16 0 amap,blockSize sdp,16,sizeofSetupDataHeader + sdp.len.toNat⟩

inductive BlocksPlaced : List Zone → List SetupData → List Placement → List Zone → Prop
  | nil {amap} : BlocksPlaced amap [] [] amap
  | skip {amap sdp rest placements last} (empty : sdp.data = 0 ∨ sdp.len = 0) : BlocksPlaced amap rest placements last →
      BlocksPlaced amap (sdp::rest) placements last
  | place {amap sdp rest placements last} (some' : ¬(sdp.data = 0 ∨ sdp.len = 0)) (fits : (blockPlacement sdp amap).addr ≠ 0) :
      BlocksPlaced (addAll amap [⟨(blockPlacement sdp amap).addr,blockSize sdp,smtAlloc⟩]) rest placements last →
      BlocksPlaced amap (sdp::rest) (blockPlacement sdp amap::placements) last

theorem mapInitramfsKeeps {chain : List Chunk} : ∀ {m : List Bool} {fraglist : List Move} {mmap : List Zone} {addr : Nat},
    fraglist <:+ (mapInitramfs m fraglist mmap chain addr).fraglist := by
  induction chain with
  | nil =>
    intro m fraglist mmap addr
    exact List.suffix_refl _
  | cons ip rest ih =>
    intro m fraglist mmap addr
    have added : ∀ dst src len, fraglist <:+ (syslinuxAddMovelist m fraglist dst src len).2.1 := by
      intro dst src len
      unfold syslinuxAddMovelist
      split
      · exact List.suffix_refl _
      · exact List.suffix_cons _ _
    have moved : fraglist <:+ (if ip.dataLen ≠ 0 then syslinuxAddMovelist m fraglist addr ip.data
        (add32 ip.len (padding (add32 addr ip.len) rest)) else (0,fraglist,m)).2.1 := by
      split
      · exact added _ _ _
      · exact List.suffix_refl _
    rw [mapInitramfs]
    split
    next rv frag m' eq =>
      rw [eq] at moved
      split
      · exact moved
      split
      · dsimp only
        split
        · exact moved
        · exact moved.trans ih
      · exact moved.trans ih

theorem placeInitramfsResult {c : Call} {st st' : State} {p : Option Placement} {m m' : List Bool}
    (ok : placeInitramfs c st m = .ok ((st',p),m')) : InitramfsPlaced c.initramfs st.amap p st'.amap ∧
      st.fraglist <:+ st'.fraglist ∧ st'.whdr.code32Start = st.whdr.code32Start := by
  unfold placeInitramfs at ok
  dsimp only at ok
  split at ok
  next zero =>
    cases attemptPure ok
    exact ⟨.none zero,List.suffix_refl _,rfl⟩
  next some' =>
    obtain ⟨fits,ok⟩ := attemptGuard ok
    obtain ⟨amap,n,marked,ok⟩ := attemptBind ok
    rw [addMemmapResult marked] at ok
    split at ok
    · cases ok
    · cases Except.ok.inj ok
      exact ⟨.placed some' fits,mapInitramfsKeeps,rfl⟩

theorem placeSetupDataResult {hdr : LinuxHeader} {blocks : List SetupData} : ∀ {st : State} {r : PlacedData} {m m' : List Bool},
    placeSetupData hdr st blocks m = .ok (r,m') → BlocksPlaced st.amap blocks r.placements r.state.amap ∧
      st.fraglist <:+ r.state.fraglist ∧ r.state.whdr.code32Start = st.whdr.code32Start := by
  induction blocks with
  | nil =>
    intro st r m m' ok
    rw [placeSetupData] at ok
    cases attemptPure ok
    exact ⟨.nil,List.suffix_refl _,rfl⟩
  | cons sdp rest ih =>
    intro st r m m' ok
    rw [placeSetupData] at ok
    dsimp only at ok
    split at ok
    next skipped =>
      obtain ⟨later,n,ran,ok⟩ := attemptBind ok
      obtain ⟨placed,kept,code⟩ := ih ran
      cases attemptPure ok
      exact ⟨.skip skipped placed,kept,code⟩
    next real =>
      obtain ⟨supported,ok⟩ := attemptGuard ok
      obtain ⟨fits,ok⟩ := attemptGuard ok
      obtain ⟨amap,_,marked,ok⟩ := attemptBind ok
      obtain ⟨frag1,_,header,ok⟩ := attemptBind ok
      obtain ⟨frag2,_,data,ok⟩ := attemptBind ok
      obtain ⟨later,_,ran,ok⟩ := attemptBind ok
      obtain ⟨placed,kept,code⟩ := ih ran
      cases attemptPure ok
      rw [addMemmapResult marked] at placed
      rw [addMovelistResult data,addMovelistResult header] at kept
      exact ⟨.place real fits placed,((List.suffix_cons _ _).trans (List.suffix_cons _ _)).trans kept,code⟩

/- What a call that reaches syslinux_shuffle_boot_rm went through. -/
structure Booted (c : Call) (map : List Zone) (b : Boot) : Prop where
  size : 2*512 ≤ c.kernelSize.toNat
  magic : c.hdr.bootFlag = bootMagic
  kernel : KernelPlaced c (setup c) map b.kernel
  placed : ∃ amap last, InitramfsPlaced c.initramfs b.kernel.amap b.initramfs amap ∧
    BlocksPlaced amap c.setupData b.setupData last
  fraglist : b.kernel.fraglist <:+ b.fraglist
  code32 : b.whdr.code32Start = b.kernel.whdr.code32Start

theorem bootedResult {c : Call} {map : List Zone} {b : Boot} {m m' : List Bool}
    (ok : biosBootLinux c (some map) m = .ok (b,m')) : Booted c map b := by
  unfold biosBootLinux at ok
  obtain ⟨size,ok⟩ := attemptGuard ok
  obtain ⟨magic,ok⟩ := attemptGuard ok
  obtain ⟨amap,_,copied,ok⟩ := attemptBind ok
  rw [dupMemmapResult copied] at ok
  obtain ⟨kernel,_,kernelOk,ok⟩ := attemptBind ok
  obtain ⟨⟨st,initramfs⟩,_,initramfsOk,ok⟩ := attemptBind ok
  obtain ⟨r,_,blocksOk,ok⟩ := attemptBind ok
  obtain ⟨placed1,kept1,code1⟩ := placeInitramfsResult initramfsOk
  obtain ⟨placed2,kept2,code2⟩ := placeSetupDataResult blocksOk
  cases attemptPure ok
  refine ⟨?_,not_not.mp magic,placeKernelResult kernelOk,⟨_,_,placed1,placed2⟩,kept1.trans kept2,?_⟩
  · have := UInt32.le_iff_toNat_le.mp (UInt32.not_lt.mp size)
    simpa using this
  · dsimp only at code1 ⊢
    rw [← code1,← code2]
    split <;> rfl

end Syslinux.BootLinux
