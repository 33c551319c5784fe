import Syslinux.BootLinux
import Syslinux.ZonesHighest

/-! Where bios_boot_linux puts the kernel: the sizes it computes for the real-mode part with its
command line, and the address of the protected-mode part. -/
namespace Syslinux.BootLinux
open Align Zonelist Zonelist.MemmapType Relocation Initramfs Zones
open Movebits (Area)

theorem down16 {x : Nat} (fits : x < 2^32) : alignDown x 16 = x / 16*16 := alignDownEq (k := 4) (by omega) fits

theorem privateSects (hdr : LinuxHeader) : (privateHeader hdr).setupSects ≠ 0 := by
  have kept : (privateHeader hdr).setupSects = (defaultSects (oldKernel hdr)).setupSects := by
    unfold privateHeader defaultMaxLen defaultRelocatable defaultAddrMax
    split <;> split <;> split <;> rfl
  rw [kept]
  unfold defaultSects
  split
  · exact (by decide : (4 : UInt8) ≠ 0)
  next given => exact given

theorem initSizeFlags (size : Nat) (hdr : LinuxHeader) : (defaultInitSize size hdr).loadflags = hdr.loadflags := by
  unfold defaultInitSize
  split <;> rfl

theorem initSizeVersion (size : Nat) (hdr : LinuxHeader) : (defaultInitSize size hdr).version = hdr.version := by
  unfold defaultInitSize
  split <;> rfl

structure Sizes (c : Call) (s : Setup) : Prop where
  real : s.realModeSize = ((privateHeader c.hdr).setupSects.toNat + 1)*512
  least : 2*512 ≤ s.realModeSize
  most : s.realModeSize ≤ 0x20000
  whole : 16 ∣ s.realModeSize
  base : s.hdr.loadHigh ∧ s.realModeBase = 0x10000 ∧ s.protModeBase = 0x100000 ∨
    ¬s.hdr.loadHigh ∧ s.realModeBase = 0x90000 ∧ s.protModeBase = 0x10000
  cmdline : s.cmdlineSize = min (c.cmdline.length + 1) (privateHeader c.hdr).cmdlineMaxLen.toNat
  short : s.cmdlineSize < 2^31
  prot : s.protModeSize = sub32 c.kernelSize.toNat s.realModeSize

section
variable (c : Call)

theorem setupReal : (setup c).realModeSize = (privateHeader c.hdr).realModeSize := by simp only [setup]
theorem setupBase : (setup c).realModeBase = (privateHeader c.hdr).realModeBase := by simp only [setup]
theorem setupProtBase : (setup c).protModeBase = (privateHeader c.hdr).protModeBase := by simp only [setup]
theorem setupProt : (setup c).protModeSize = sub32 c.kernelSize.toNat (setup c).realModeSize := by simp only [setup]
theorem setupCmdline : (setup c).cmdlineSize = (cutCmdline (privateHeader c.hdr).cmdlineMaxLen.toNat c.cmdline).2 := by
  simp only [setup]
theorem setupHeader : (setup c).hdr = defaultInitSize (setup c).protModeSize (privateHeader c.hdr) := by simp only [setup]

end

theorem setupSizes (c : Call) : Sizes c (setup c) := by
  have sects : 0 < (privateHeader c.hdr).setupSects.toNat :=
    Nat.pos_of_ne_zero (fun zero => privateSects c.hdr (UInt8.toNat_inj.mp zero))
  have top := (privateHeader c.hdr).setupSects.toNat_lt
  have real : (setup c).realModeSize = ((privateHeader c.hdr).setupSects.toNat + 1)*512 := by
    rw [setupReal,LinuxHeader.realModeSize]
  have cmdline : (setup c).cmdlineSize = min (c.cmdline.length + 1) (privateHeader c.hdr).cmdlineMaxLen.toNat := by
    rw [setupCmdline,cutCmdline,add32Eq (by have := c.short; omega)]
    split <;> simp only <;> omega
  have short := c.short
  refine ⟨real,?_,?_,?_,?_,cmdline,?_,setupProt c⟩
  · rw [real]
    omega
  · rw [real]
    omega
  · rw [real]
    omega
  · have same : (setup c).hdr.loadHigh ↔ (privateHeader c.hdr).loadHigh := by
      unfold LinuxHeader.loadHigh
      rw [setupHeader,initSizeFlags]
    rw [same,setupBase,setupProtBase,LinuxHeader.realModeBase,LinuxHeader.protModeBase]
    by_cases high : (privateHeader c.hdr).loadHigh
    · exact Or.inl ⟨high,if_pos high,if_pos high⟩
    · exact Or.inr ⟨high,if_neg high,if_neg high⟩
  · rw [cmdline]
    omega

theorem baseLe {c : Call} {s : Setup} (sizes : Sizes c s) : s.realModeBase ≤ 0x90000 ∧ s.protModeBase ≤ 0x100000 := by
  rcases sizes.base with ⟨_,real,prot⟩ | ⟨_,real,prot⟩ <;> omega

theorem realStart {c : Call} {s : Setup} (sizes : Sizes c s) : add32 s.realModeBase s.realModeSize = s.realModeBase + s.realModeSize := by
  have most := sizes.most
  have base := (baseLe sizes).1
  exact add32Eq (by omega)

section
variable {map : List Zone} {size start low : Nat}

theorem lowmemStart (wf : WellFormed map) (found : lowmem map size start = some low) : ∃ stop,
    low = alignDown (sub32 stop size) 16 ∧ start ≤ low ∧ stop ≤ 0xa0000 ∧ (start < stop ∨ stop = 0xa0000) := by
  unfold lowmem at found
  dsimp only at found
  split at found
  next free =>
    rw [← Option.some.inj found]
    exact highestRoom wf free
  next busy =>
    have kept : (syslinuxMemmapHighest map ⟨smtFree,start,size,0xa0000,16⟩).start = start := by
      unfold syslinuxMemmapHighest at busy ⊢
      dsimp only at busy ⊢
      split
      · rfl
      next some' => exact absurd (by rw [if_neg some']) busy
    rw [kept] at found
    split at found
    next terminal =>
      rw [← Option.some.inj found]
      exact highestRoom wf terminal
    · cases found

end

theorem findFromFits {size align : Nat} {b : Bounds} {start : Nat} : ∀ {list : List Zone},
    findFrom size align b list = some start → start + size ≤ b.endMax
  | [],found => by simp [findFrom] at found
  | [_],found => by simp [findFrom] at found
  | mp::next::rest,found => by
      rw [findFrom] at found
      dsimp only at found
      have stop : (if b.endMax < next.start then b.endMax else next.start) ≤ b.endMax := by split <;> omega
      generalize (if b.endMax < next.start then b.endMax else next.start) = hi at found stop
      generalize alignUp (if mp.start < b.startMin then b.startMin else mp.start) align = lo at found
      split at found
      · cases found
      split at found
      · exact findFromFits found
      split at found
      · exact findFromFits found
      split at found
      · cases Option.some.inj found
        omega
      · exact findFromFits found

theorem findPlace {mmap : List Zone} {base size align start : Nat} {relocate : Bool} {b : Bounds}
    (found : syslinuxMemmapFind mmap base size relocate align b = ⟨0,start⟩) :
    start = base ∨ start + size ≤ b.endMax := by
  unfold syslinuxMemmapFind at found
  split at found
  · exact Or.inl (congrArg Found.start found).symm
  split at found
  · exact Or.inl (congrArg Found.start found).symm
  split at found
  · cases found
  split at found
  next other =>
    cases found
    exact Or.inr (findFromFits other)
  · cases found

def codeArea (s : Setup) (k : Kernel) : Area := ⟨k.realModeBase,s.realModeSize⟩
def zeroArea (s : Setup) (k : Kernel) : Area :=
  ⟨add32 k.realModeBase s.realModeSize,sub32 k.cmdlineOffset s.realModeSize⟩
def lineArea (s : Setup) (k : Kernel) : Area := ⟨add32 k.realModeBase k.cmdlineOffset,s.cmdlineSize⟩
def reservedArea (s : Setup) (k : Kernel) : Area := ⟨k.realModeBase,add32 k.cmdlineOffset s.cmdlineSize⟩

/- The copies and the zeroing stay in the range that was taken out of amap, one behind the other. -/
structure Laid (s : Setup) (k : Kernel) : Prop where
  top : (reservedArea s k).start + (reservedArea s k).len ≤ 2^32
  inside : ∀ a ∈ [codeArea s k,zeroArea s k,lineArea s k], (reservedArea s k).start ≤ a.start ∧
    a.start + a.len ≤ (reservedArea s k).start + (reservedArea s k).len
  apart : [codeArea s k,zeroArea s k,lineArea s k].Pairwise (fun a b => a.start + a.len ≤ b.start)

structure Scheduled (c : Call) (map : List Zone) (b : Boot) : Prop where
  code : ⟨(codeArea (setup c) b.kernel).start,c.kernelBuf,(codeArea (setup c) b.kernel).len⟩ ∈ b.fraglist
  zero : b.kernel.mmap = addAll map
    [⟨(zeroArea (setup c) b.kernel).start,(zeroArea (setup c) b.kernel).len,smtZero⟩]
  line : ⟨(lineArea (setup c) b.kernel).start,c.cmdlineBuf,(lineArea (setup c) b.kernel).len⟩ ∈ b.fraglist
  reserved : ∃ more, b.kernel.amap = addAll b.kernel.available
    (⟨(reservedArea (setup c) b.kernel).start,(reservedArea (setup c) b.kernel).len,smtAlloc⟩::more)

theorem scheduledOf {c : Call} {map : List Zone} {b : Boot} (booted : Booted c map b) : Scheduled c map b := by
  have placed := booted.kernel
  have kept : ∀ m ∈ b.kernel.fraglist, m ∈ b.fraglist := fun m mem => booted.fraglist.subset mem
  refine ⟨kept _ ?_,placed.mmap,kept _ ?_,⟨_,placed.amap⟩⟩
  · rw [placed.fraglist]
    simp [codeArea]
  · rw [placed.fraglist]
    simp [lineArea]

def lowmemOf (s : Setup) (map : List Zone) : Option Nat :=
  lowmem map s.cmdlineSize (add32 s.realModeBase s.realModeSize)

structure NoUnderflow (c : Call) (map : List Zone) (b : Boot) : Prop where
  kernel : (setup c).realModeSize ≤ c.kernelSize.toNat
  cmdline : 1 ≤ (setup c).cmdlineSize
  maxOffset : (setup c).hdr.newCmdline ∨ (setup c).cmdlineSize ≤ 0xfff0
  legacy : lowmemOf (setup c) map = none → (setup c).cmdlineSize ≤ 0x9ff0
  start : ∀ low, lowmemOf (setup c) map = some low → (setup c).realModeBase ≤ low
  offset : (setup c).realModeSize ≤ b.kernel.cmdlineOffset
  scheduled : Scheduled c map b
  laid : Laid (setup c) b.kernel

def RealModeFits (c : Call) (map : List Zone) : Prop :=
  let hdr := privateHeader c.hdr
  let size := min (c.cmdline.length + 1) hdr.cmdlineMaxLen.toNat
  hdr.realModeSize ≤ c.kernelSize.toNat ∧ hdr.cmdlineMaxLen ≠ 0 ∧
    if (lowmem map size (hdr.realModeBase + hdr.realModeSize)).isSome then
      if hdr.newCmdline then hdr.realModeSize ≤ 0x10000 else hdr.realModeSize + size ≤ 0xfff0
    else hdr.realModeSize + size ≤ 0x9ff0

instance (c : Call) (map : List Zone) : Decidable (RealModeFits c map) := by unfold RealModeFits; infer_instance

theorem setupNewCmdline (c : Call) : (setup c).hdr.newCmdline ↔ (privateHeader c.hdr).newCmdline := by
  unfold LinuxHeader.newCmdline LinuxHeader.loadHigh
  rw [setupHeader,initSizeFlags,initSizeVersion]

theorem realModeFitsIff {c : Call} {map : List Zone} : RealModeFits c map ↔
    (setup c).realModeSize ≤ c.kernelSize.toNat ∧ 1 ≤ (setup c).cmdlineSize ∧
      match lowmemOf (setup c) map with
      | some _ => ((setup c).hdr.newCmdline → (setup c).realModeSize ≤ 0x10000) ∧
          (¬(setup c).hdr.newCmdline → (setup c).realModeSize + (setup c).cmdlineSize ≤ 0xfff0)
      | none => (setup c).realModeSize + (setup c).cmdlineSize ≤ 0x9ff0 := by
  have sizes := setupSizes c
  have start : add32 (setup c).realModeBase (setup c).realModeSize =
      (privateHeader c.hdr).realModeBase + (privateHeader c.hdr).realModeSize := by
    rw [← setupBase,← setupReal]
    exact realStart sizes
  have positive : (privateHeader c.hdr).cmdlineMaxLen ≠ 0 ↔ 1 ≤ (setup c).cmdlineSize := by
    rw [sizes.cmdline,ne_eq,← UInt32.toNat_inj,UInt32.toNat_zero]
    omega
  unfold RealModeFits lowmemOf
  dsimp only
  rw [start,← sizes.cmdline,positive,setupNewCmdline,setupReal]
  refine and_congr_right (fun _ => and_congr_right (fun _ => ?_))
  cases lowmem map (setup c).cmdlineSize ((privateHeader c.hdr).realModeBase + (privateHeader c.hdr).realModeSize) with
  | none => simp
  | some low =>
    by_cases new : (privateHeader c.hdr).newCmdline
    · simp [new]
    · simp [new]

section
variable {c : Call} {s : Setup} {map : List Zone} {k : Kernel} {low : Nat}

theorem offsetFound (placed : KernelPlaced c s map k) (found : lowmemOf s map = some low) :
    k.cmdlineOffset = alignDown (min (sub32 low s.realModeBase) (maxOffset s.hdr s.cmdlineSize)) 16 := by
  unfold lowmemOf at found
  rw [placed.offset,calcCmdlineOffset,found]

theorem offsetLegacy (placed : KernelPlaced c s map k) (none' : lowmemOf s map = none) :
    k.cmdlineOffset = alignDown (sub32 0x9ff0 s.cmdlineSize) 16 := by
  unfold lowmemOf at none'
  rw [placed.offset,calcCmdlineOffset,none']

theorem realPlace (placed : KernelPlaced c s map k) : k.realModeBase = s.realModeBase ∨
    k.realModeBase + add32 k.cmdlineOffset s.cmdlineSize ≤ 640*1024 := by
  have real := placed.real
  unfold findRealMode at real
  exact findPlace real

theorem lowmemBehind (wf : WellFormed map) (sizes : Sizes c s) (found : lowmemOf s map = some low) :
    s.realModeBase + s.realModeSize ≤ low ∧ low < 2^32 := by
  unfold lowmemOf at found
  rw [realStart sizes] at found
  obtain ⟨stop,eq,behind,ceiling,_⟩ := lowmemStart wf found
  have short := sizes.short
  have small : sub32 stop s.cmdlineSize < 2^32 := by unfold sub32; split <;> omega
  refine ⟨behind,?_⟩
  rw [eq,down16 small]
  omega

end

theorem offsetRange {c : Call} {map : List Zone} {k : Kernel} (wf : WellFormed map)
    (placed : KernelPlaced c (setup c) map k) (fits : RealModeFits c map) :
    (setup c).realModeSize ≤ k.cmdlineOffset ∧ k.cmdlineOffset ≤ 0x10000 := by
  have sizes := setupSizes c
  obtain ⟨_,some',room⟩ := realModeFitsIff.1 fits
  obtain ⟨m,whole⟩ := sizes.whole
  cases found : lowmemOf (setup c) map with
  | none =>
    simp only [found] at room
    rw [offsetLegacy placed found,sub32Eq (by omega),down16 (by omega)]
    omega
  | some low =>
    simp only [found] at room
    obtain ⟨behind,top⟩ := lowmemBehind wf sizes found
    have offset := offsetFound placed found
    rw [sub32Eq (by omega)] at offset
    have max' : (setup c).realModeSize ≤ maxOffset (setup c).hdr (setup c).cmdlineSize ∧
        maxOffset (setup c).hdr (setup c).cmdlineSize ≤ 0x10000 := by
      unfold maxOffset
      split
      next new => exact ⟨room.1 new,Nat.le_refl _⟩
      next old =>
        have := room.2 old
        rw [sub32Eq (by omega)]
        omega
    rw [down16 (by omega)] at offset
    omega

theorem realModeLaid {c : Call} {map : List Zone} {k : Kernel} (placed : KernelPlaced c (setup c) map k)
    (least : (setup c).realModeSize ≤ k.cmdlineOffset) (most : k.cmdlineOffset ≤ 0x10000) : Laid (setup c) k := by
  have sizes := setupSizes c
  have short := sizes.short
  have reserved : add32 k.cmdlineOffset (setup c).cmdlineSize = k.cmdlineOffset + (setup c).cmdlineSize :=
    add32Eq (by omega)
  have top : k.realModeBase + (k.cmdlineOffset + (setup c).cmdlineSize) ≤ 2^32 - 1 := by
    have base := (baseLe sizes).1
    have place := realPlace placed
    rw [reserved] at place
    rcases place with same | below
    · omega
    · omega
  have zero : add32 k.realModeBase (setup c).realModeSize = k.realModeBase + (setup c).realModeSize :=
    add32Eq (by omega)
  have line : add32 k.realModeBase k.cmdlineOffset = k.realModeBase + k.cmdlineOffset := add32Eq (by omega)
  have left : sub32 k.cmdlineOffset (setup c).realModeSize = k.cmdlineOffset - (setup c).realModeSize := sub32Eq least
  refine ⟨?_,?_,?_⟩
  · simp only [reservedArea,reserved]
    omega
  · simp only [codeArea,zeroArea,lineArea,reservedArea,reserved,zero,line,left,List.mem_cons,List.not_mem_nil,or_false]
    rintro a (rfl | rfl | rfl)
    · simp only
      omega
    · simp only
      omega
    · simp only
      omega
  · simp only [codeArea,zeroArea,lineArea,zero,line,left,List.pairwise_cons,List.mem_cons,List.not_mem_nil,or_false,
      forall_eq_or_imp,forall_eq,List.Pairwise.nil,and_true,false_imp_iff,implies_true]
    omega

theorem realModeNoUnderflow {c : Call} {map : List Zone} {b : Boot} {mallocs rest : List Bool} (wf : WellFormed map)
    (booted : biosBootLinux c (some map) mallocs = .ok (b,rest)) : NoUnderflow c map b ↔ RealModeFits c map := by
  have placed := (bootedResult booted).kernel
  have sizes := setupSizes c
  constructor
  · intro ok
    refine realModeFitsIff.2 ⟨ok.kernel,ok.cmdline,?_⟩
    have offset := ok.offset
    cases found : lowmemOf (setup c) map with
    | none =>
      have legacy := ok.legacy found
      rw [offsetLegacy placed found,sub32Eq legacy,down16 (by omega)] at offset
      simp only
      omega
    | some low =>
      have most := ok.maxOffset
      obtain ⟨behind,top⟩ := lowmemBehind wf sizes found
      rw [offsetFound placed found,sub32Eq (by omega),down16 (by omega)] at offset
      unfold maxOffset at offset
      simp only
      refine ⟨?_,?_⟩
      · intro new
        rw [if_pos new] at offset
        omega
      · intro old
        have small := most.resolve_left old
        rw [if_neg old,sub32Eq small] at offset
        omega
  · intro fits
    obtain ⟨kernel,some',room⟩ := realModeFitsIff.1 fits
    obtain ⟨least,most⟩ := offsetRange wf placed fits
    refine ⟨kernel,some',?_,?_,?_,least,scheduledOf (bootedResult booted),
      realModeLaid placed least most⟩
    · by_cases new : (setup c).hdr.newCmdline
      · exact Or.inl new
      · refine Or.inr ?_
        cases found : lowmemOf (setup c) map with
        | none =>
          simp only [found] at room
          omega
        | some low =>
          simp only [found] at room
          have := room.2 new
          omega
    · intro none'
      simp only [none'] at room
      omega
    · intro low found
      have := (lowmemBehind wf sizes found).1
      omega

theorem bootedOf {c : Call} {map : Option (List Zone)} {m : List Bool} {f : Boot × List Bool → Bool}
    (ok : (biosBootLinux c map m).toOption.any f = true) : ∃ b rest, biosBootLinux c map m = .ok (b,rest) ∧
      f (b,rest) = true := by
  cases out : biosBootLinux c map m with
  | error e => simp [out,Except.toOption] at ok
  | ok r =>
    rw [out] at ok
    exact ⟨r.1,r.2,rfl,ok⟩

def vmwareMap : List Zone :=
  [⟨0,smtFree⟩,⟨0x92800,smtReserved⟩,⟨0xa0000,smtUndefined⟩,⟨0xca000,smtReserved⟩,⟨0xcc000,smtUndefined⟩,
    ⟨0xdc000,smtReserved⟩,⟨0xe0000,smtUndefined⟩,⟨0xe4000,smtReserved⟩,⟨0xe5c00,smtUndefined⟩,⟨0x100000,smtFree⟩,
    ⟨0x3fef0000,smtUndefined⟩,⟨0,smtEnd⟩]

def testHeader : LinuxHeader := ⟨0,0,1,0,bootMagic,0,0x0201,0,0,0,0,0,0,0,0,0,0,0,0,0,0⟩

def testCall : Call := ⟨0x200000,1024,testHeader,[],[],0x300000,[0x61,0x3d,0x62],by decide⟩

theorem realModeNoUnderflowTest : ∃ b rest, biosBootLinux testCall (some vmwareMap) [] = .ok (b,rest) ∧
    NoUnderflow testCall vmwareMap b := by
  have ran : (biosBootLinux testCall (some vmwareMap) []).toOption.any (fun _ => true) = true := by decide
  obtain ⟨b,rest,booted,_⟩ := bootedOf ran
  exact ⟨b,rest,booted,(realModeNoUnderflow (by simp [vmwareMap,WellFormed,Follows]) booted).mpr (by decide)⟩

/- A relocatable kernel whose image was cut after 1024 bytes: its header has 4 sectors of setup. -/
def cutHeader : LinuxHeader := { testHeader with
  header := linuxMagic, version := 0x020a, loadflags := 1, setupSects := 4, relocatableKernel := 1
  kernelAlignment := 0x1000, initSize := 0x100000, cmdlineMaxLen := 255, initrdAddrMax := 0x37ffffff }

def cutCall : Call := { testCall with hdr := cutHeader }

theorem realModeUnderflowCut : WellFormed vmwareMap ∧ ∃ b rest,
    biosBootLinux cutCall (some vmwareMap) [] = .ok (b,rest) ∧ ¬NoUnderflow cutCall vmwareMap b := by
  have ran : (biosBootLinux cutCall (some vmwareMap) []).toOption.any (fun _ => true) = true := by decide
  obtain ⟨b,rest,booted,_⟩ := bootedOf ran
  refine ⟨by simp [vmwareMap,WellFormed,Follows],b,rest,booted,?_⟩
  intro ok
  exact absurd ok.kernel (by decide)

/- The range taken for the real-mode part does not wrap, even where its offset does. -/
theorem reservedSmall {c : Call} {map : List Zone} {k : Kernel} (wf : WellFormed map)
    (placed : KernelPlaced c (setup c) map k) : add32 k.cmdlineOffset (setup c).cmdlineSize ≤ 2^31 + 0x10000 := by
  have sizes := setupSizes c
  have short := sizes.short
  cases found : lowmemOf (setup c) map with
  | none =>
    have offset := offsetLegacy placed found
    by_cases small : (setup c).cmdlineSize ≤ 0x9ff0
    · rw [sub32Eq small,down16 (by omega)] at offset
      unfold add32
      omega
    · rw [sub32,if_neg small,down16 (by omega)] at offset
      unfold add32
      omega
  | some low =>
    have offset := offsetFound placed found
    obtain ⟨behind,top⟩ := lowmemBehind wf sizes found
    rw [sub32Eq (by omega)] at offset
    rw [down16 (by omega)] at offset
    unfold maxOffset at offset
    by_cases new : (setup c).hdr.newCmdline
    · rw [if_pos new] at offset
      unfold add32
      omega
    by_cases small : (setup c).cmdlineSize ≤ 0xfff0
    · rw [if_neg new,sub32Eq small] at offset
      unfold add32
      omega
    rw [if_neg new,sub32,if_neg small] at offset
    have least := sizes.least
    unfold lowmemOf at found
    rw [realStart sizes] at found
    obtain ⟨stop,eq,_,ceiling,above⟩ := lowmemStart wf found
    have base := (baseLe sizes).1
    by_cases room : (setup c).cmdlineSize ≤ stop
    · rw [sub32Eq room,down16 (by omega)] at eq
      unfold add32
      omega
    · rw [sub32,if_neg room,down16 (by omega)] at eq
      unfold add32
      omega

theorem reservedFits {c : Call} {map : List Zone} {k : Kernel} (wf : WellFormed map)
    (placed : KernelPlaced c (setup c) map k) :
    k.realModeBase + add32 k.cmdlineOffset (setup c).cmdlineSize ≤ 2^32 := by
  have small := reservedSmall wf placed
  have base := (baseLe (setupSizes c)).1
  rcases realPlace placed with same | below
  · omega
  · omega

theorem memlimitSmall (c : Call) : (setup c).memlimit < 2^32 := by
  have eq : (setup c).memlimit = limitOf (memArgument c.cmdline) (privateHeader c.hdr) := by simp only [setup]
  have mem : memArgument c.cmdline < 2^32 := by
    unfold memArgument
    split
    · unfold saturate32
      split <;> omega
    · omega
  rw [eq]
  unfold limitOf
  split
  · exact Nat.mod_lt _ (by decide)
  · exact mem

theorem availableOk {c : Call} {map : List Zone} (wf : WellFormed map) : WellFormed (availableMap (setup c) map) ∧
    ∀ a, a < 2^32 → typeAt (availableMap (setup c) map) a =
      if (setup c).memlimit ≠ 0 ∧ (setup c).memlimit ≤ a then smtReserved else typeAt map a := by
  have small := memlimitSmall c
  unfold availableMap
  generalize (setup c).memlimit = limit at small ⊢
  by_cases limited : limit ≠ 0
  · have whole : limit + sub32 0 limit = 2^32 := by
      rw [sub32,if_neg (by omega)]
      omega
    have spec := addOneSpec wf (by decide : smtReserved ≠ smtEnd) (Nat.le_of_eq whole)
    simp only [if_pos limited]
    refine ⟨spec.1,?_⟩
    intro a bound
    rw [spec.2 a bound,whole]
    simp only [ne_eq,limited,not_false_eq_true,true_and,bound,and_true]
  · simp only [if_neg limited]
    refine ⟨wf,?_⟩
    intro a _
    rw [if_neg (by omega)]

structure AtBase (c : Call) (b : Boot) : Prop where
  adjusted : b.whdr.code32Start = c.hdr.code32Start + UInt32.ofNat (sub32 b.kernel.base (setup c).protModeBase)
  copied : b.kernel.fraglist.head? =
    some ⟨b.kernel.base,add32 c.kernelBuf (setup c).realModeSize,(setup c).protModeSize⟩
  kept : b.kernel.fraglist <:+ b.fraglist
  whole : b.kernel.base + (setup c).protModeSize ≤ 2^32
  free : ∀ a, b.kernel.base ≤ a → a < b.kernel.base + (setup c).protModeSize →
    validTerminalType (typeAt b.kernel.available a)
  marked : ∀ a, b.kernel.base ≤ a → a < b.kernel.base + (setup c).protModeSize →
    typeAt b.kernel.amap a = smtAlloc

/- The search answers the default address, and the memory of the whole part is free there. -/
def DefaultFree (c : Call) (map : List Zone) : Prop :=
  let s := setup c
  s.protModeSize ≠ 0 → (findProtMode s (availableMap s map)).start = s.protModeBase ∧
    s.protModeBase + s.protModeSize ≤ 2^32 ∧
    ∀ a, s.protModeBase ≤ a → a < s.protModeBase + s.protModeSize →
      validTerminalType (typeAt map a) ∧ (s.memlimit = 0 ∨ a < s.memlimit)

theorem copiedDefault {c : Call} {s : Setup} {map : List Zone} {k : Kernel} (placed : KernelPlaced c s map k)
    (some' : s.protModeSize ≠ 0) :
    k.fraglist.head? = some ⟨s.protModeBase,add32 c.kernelBuf s.realModeSize,s.protModeSize⟩ := by
  rw [placed.fraglist,if_pos some']
  rfl

/- amap once the kernel is placed, when its range does not wrap. -/
theorem kernelMapOk {c : Call} {map : List Zone} {k : Kernel} (wf : WellFormed map)
    (placed : KernelPlaced c (setup c) map k) (whole : (setup c).protModeBase + (setup c).protModeSize ≤ 2^32) :
    WellFormed k.amap ∧ ∀ a, a < 2^32 → typeAt k.amap a =
      if (setup c).protModeBase ≤ a ∧ a < (setup c).protModeBase + (setup c).protModeSize then smtAlloc
      else if k.realModeBase ≤ a ∧ a < k.realModeBase + add32 k.cmdlineOffset (setup c).cmdlineSize then smtAlloc
      else typeAt k.available a := by
  have available := (availableOk (c := c) wf).1
  rw [← placed.available] at available
  have first := addOneSpec available (by decide : smtAlloc ≠ smtEnd) (reservedFits wf placed)
  have second := addOneSpec first.1 (by decide : smtAlloc ≠ smtEnd) whole
  rw [placed.amap]
  by_cases some' : (setup c).protModeSize ≠ 0
  · rw [if_pos some',addAll,← addAll]
    refine ⟨second.1,?_⟩
    intro a bound
    rw [← first.2 a bound]
    exact second.2 a bound
  · rw [if_neg some']
    refine ⟨first.1,?_⟩
    intro a bound
    rw [first.2 a bound,if_neg (show ¬((setup c).protModeBase ≤ a ∧ _) by omega)]

theorem kernelAtBase {c : Call} {map : List Zone} {b : Boot} {mallocs rest : List Bool} (wf : WellFormed map)
    (booted : biosBootLinux c (some map) mallocs = .ok (b,rest)) :
    ((setup c).protModeSize ≠ 0 → AtBase c b) ↔ DefaultFree c map := by
  have result := bootedResult booted
  have placed := result.kernel
  have available := availableOk (c := c) wf
  have base : (findProtMode (setup c) (availableMap (setup c) map)).start = b.kernel.base := by
    rw [← placed.available,placed.prot]
  constructor
  · intro claim some'
    obtain ⟨_,copied,_,whole,free,_⟩ := claim some'
    have same : (setup c).protModeBase = b.kernel.base := by
      have head := (copiedDefault placed some').symm.trans copied
      exact congrArg Move.dst (Option.some.inj head)
    rw [base,same]
    refine ⟨rfl,whole,?_⟩
    intro a lo hi
    have usable := free a lo hi
    rw [placed.available,available.2 a (by omega)] at usable
    split at usable
    · simp [validTerminalType] at usable
    next below => exact ⟨usable,by omega⟩
  · intro fits some'
    obtain ⟨same,whole,free⟩ := fits some'
    rw [base] at same
    refine ⟨result.code32.trans placed.code32,?_,result.fraglist,same ▸ whole,?_,?_⟩
    · rw [same]
      exact copiedDefault placed some'
    · intro a lo hi
      rw [same] at lo hi
      obtain ⟨usable,below⟩ := free a lo hi
      rw [placed.available,available.2 a (by omega),if_neg (by omega)]
      exact usable
    · intro a lo hi
      rw [same] at lo hi
      rw [(kernelMapOk wf placed whole).2 a (by omega),if_pos ⟨lo,hi⟩]

/- A relocatable kernel of 64 KB that needs 8 MB to unpack. -/
def relocHeader : LinuxHeader :=
  { cutHeader with setupSects := 1, kernelAlignment := 0x100000, initSize := 0x800000, code32Start := 0x100000 }

def relocCall : Call := { testCall with hdr := relocHeader, kernelSize := 0x10000 }

theorem kernelAtBaseDefault : ∃ b rest, biosBootLinux relocCall (some vmwareMap) [] = .ok (b,rest) ∧ AtBase relocCall b := by
  have ran : (biosBootLinux relocCall (some vmwareMap) []).toOption.any (fun _ => true) = true := by decide
  obtain ⟨b,rest,booted,_⟩ := bootedOf ran
  have prot : (setup relocCall).protModeBase = 0x100000 := by decide
  have size : (setup relocCall).protModeSize = 0xfc00 := by decide
  have limit : (setup relocCall).memlimit = 0x38000000 := by decide
  have free : DefaultFree relocCall vmwareMap := by
    intro _
    refine ⟨by decide,by decide,?_⟩
    rw [prot,size,limit]
    intro a lo hi
    refine ⟨?_,Or.inr (by omega)⟩
    have type : typeAt vmwareMap a = smtFree := by
      have below : ∀ n, n ≤ 0x100000 → ¬a < n := fun n le => by omega
      simp [typeAt,typeFrom,vmwareMap,below,show a < 0x3fef0000 by omega]
    rw [type]
    decide
  exact ⟨b,rest,booted,(kernelAtBase (by simp [vmwareMap,WellFormed,Follows]) booted).mpr free (by rw [size]; decide)⟩

/- With a hole at 2 MB the search answers 3 MB, and the copy still goes to 1 MB. -/
def holeMap : List Zone :=
  [⟨0,smtFree⟩,⟨0x9f000,smtReserved⟩,⟨0x100000,smtFree⟩,⟨0x200000,smtReserved⟩,⟨0x300000,smtFree⟩,
    ⟨0x8000000,smtReserved⟩,⟨0,smtEnd⟩]

theorem kernelNotAtBase : WellFormed holeMap ∧ (setup relocCall).protModeSize ≠ 0 ∧ ∃ b rest,
    biosBootLinux relocCall (some holeMap) [] = .ok (b,rest) ∧ ¬AtBase relocCall b := by
  have ran : (biosBootLinux relocCall (some holeMap) []).toOption.any (fun _ => true) = true := by decide
  obtain ⟨b,rest,booted,_⟩ := bootedOf ran
  have some' : (setup relocCall).protModeSize ≠ 0 := by decide
  have elsewhere : (findProtMode (setup relocCall) (availableMap (setup relocCall) holeMap)).start ≠
      (setup relocCall).protModeBase := by decide
  refine ⟨by simp [holeMap,WellFormed,Follows],some',b,rest,booted,?_⟩
  intro ok
  have placed := (bootedResult booted).kernel
  have head := (copiedDefault placed some').symm.trans ok.copied
  refine elsewhere ?_
  rw [← placed.available,placed.prot]
  exact (congrArg Move.dst (Option.some.inj head)).symm

end Syslinux.BootLinux
