import Syslinux.Align
import Syslinux.DealiasCopies

/-! The initramfs chain of com32/lib/syslinux/initramfs.c, initramfs_size of linux.h and
map_initramfs of load_linux.c. A chain is the list of its chunks behind the head; sizes and
addresses are 32 bits wide. -/
namespace Syslinux.Initramfs
open Align Zonelist Zonelist.MemmapType Relocation Movebits

structure Chunk where
  data : Nat
  dataLen : Nat
  len : Nat
  align : Nat
  deriving DecidableEq, Repr

def initramfsMaxAlign : Nat := 4096

def initramfsAddData (mallocs : List Bool) (chain : List Chunk) (data dataLen len align : Nat) :
    Int × List Chunk × List Bool :=
  if len = 0 then (0,chain,mallocs)
  else if align = 0 ∨ align &&& (align - 1) ≠ 0 ∨ initramfsMaxAlign < align then (-1,chain,mallocs)
  else match malloc mallocs with
  | (false,mallocs) => (-1,chain,mallocs)
  | (true,mallocs) => (0,chain ++ [⟨data,dataLen,len,align⟩],mallocs)

/- The chains that initramfs_init and calls of initramfs_add_data make. -/
inductive Built : List Chunk → Prop
  | init : Built []
  | add {chain data dataLen len align} (mallocs : List Bool) : Built chain → dataLen ≤ len →
      Built (initramfsAddData mallocs chain data dataLen len align).2.1

def sizeFrom : Nat → List Chunk → Nat
  | size,[] => size
  | size,ip::rest => sizeFrom (add32 (alignUp size ip.align) ip.len) rest

def initramfsSize (chain : List Chunk) : Nat := sizeFrom 0 chain

def syslinuxAddMovelist (mallocs : List Bool) (list : List Move) (dst src len : Nat) : Int × List Move × List Bool :=
  match malloc mallocs with
  | (false,mallocs) => (-1,list,mallocs)
  | (true,mallocs) => (0,⟨dst,src,len⟩::list,mallocs)

structure Mapped where
  rv : Int
  fraglist : List Move
  mmap : List Zone
  mallocs : List Bool

def padding (nextAddr : Nat) : List Chunk → Nat
  | [] => 0
  | next::_ => sub32 0 nextAddr &&& sub32 next.align 1

def mapInitramfs (mallocs : List Bool) (fraglist : List Move) (mmap : List Zone) : List Chunk → Nat → Mapped
  | [],_ => ⟨0,fraglist,mmap,mallocs⟩
  | ip::rest,addr =>
      let pad := padding (add32 addr ip.len) rest
      let len := add32 ip.len pad
      let nextAddr := add32 (add32 addr ip.len) pad
      let (rv,fraglist,mallocs) :=
        if ip.dataLen ≠ 0 then syslinuxAddMovelist mallocs fraglist addr ip.data len else (0,fraglist,mallocs)
      if rv ≠ 0 then ⟨-1,fraglist,mmap,mallocs⟩
      else if ip.dataLen < len then
        let r := syslinuxAddMemmap mallocs mmap (add32 addr ip.dataLen) (sub32 len ip.dataLen) smtZero
        if r.rv ≠ 0 then ⟨-1,fraglist,r.list,r.mallocs⟩
        else mapInitramfs r.mallocs fraglist r.list rest nextAddr
      else mapInitramfs mallocs fraglist mmap rest nextAddr

/- Where initramfs_size puts a chunk, and where the next one starts. -/
structure Placed where
  chunk : Chunk
  start : Nat
  stop : Nat
  deriving DecidableEq, Repr

def nextStart (size : Nat) : List Chunk → Nat
  | [] => size
  | next::_ => alignUp size next.align

def placedFrom : Nat → List Chunk → List Placed
  | _,[] => []
  | size,ip::rest =>
      let start := alignUp size ip.align
      let size := add32 start ip.len
      ⟨ip,start,nextStart size rest⟩::placedFrom size rest

def roundUp (n a : Nat) : Nat := (n + (a - 1)) / a*a

def exactFrom : Nat → List Chunk → Nat
  | size,[] => size
  | size,ip::rest => exactFrom (roundUp size ip.align + ip.len) rest

structure Good (c : Chunk) : Prop where
  some' : 0 < c.len
  data : c.dataLen ≤ c.len
  power : ∃ k, k ≤ 12 ∧ c.align = 2^k

theorem builtGood {chain : List Chunk} (built : Built chain) : ∀ c ∈ chain, Good c := by
  induction built with
  | init => simp
  | @add chain data dataLen len align mallocs _ le ih =>
    unfold initramfsAddData
    split
    · exact ih
    split
    · exact ih
    next some' proper =>
    split
    · exact ih
    · intro c m
      rcases List.mem_append.mp m with m | m
      · exact ih c m
      · rw [List.mem_singleton.mp m]
        simp only [not_or,not_not,Nat.not_lt] at proper
        obtain ⟨k,eq⟩ := Nat.ne_zero_and_sub_one_eq_zero_iff_isPowerOfTwo.mp ⟨proper.1,proper.2.1⟩
        refine ⟨by simp only; omega,le,k,?_,eq⟩
        by_contra large
        have : 2^13 ≤ 2^k := Nat.pow_le_pow_right (by decide) (by omega)
        have := proper.2.2
        unfold initramfsMaxAlign at this
        omega

section
variable {k n : Nat}

theorem roundUpOk (a : Nat) (positive : 0 < a) : RoundedUp n a (roundUp n a) := by
  have whole := Nat.div_add_mod (n + (a - 1)) a
  have rest := Nat.mod_lt (n + (a - 1)) positive
  rw [Nat.mul_comm] at whole
  refine ⟨Nat.dvd_mul_left _ _,by unfold roundUp; omega,?_⟩
  rintro _ ⟨m,rfl⟩ le
  unfold roundUp
  rw [Nat.mul_comm a m]
  refine Nat.mul_le_mul_right a ?_
  refine Nat.le_of_lt_succ ((Nat.div_lt_iff_lt_mul positive).mpr ?_)
  rw [Nat.succ_mul,Nat.mul_comm m a]
  omega

theorem roundedUpUnique {a v w : Nat} (first : RoundedUp n a v) (second : RoundedUp n a w) : v = w :=
  Nat.le_antisymm (first.lowest w second.aligned second.le) (second.lowest v first.aligned first.le)

theorem roundUpSelf {a : Nat} (positive : 0 < a) (aligned : a ∣ n) : roundUp n a = n :=
  roundedUpUnique (roundUpOk a positive) ⟨aligned,Nat.le_refl n,fun _ _ le => le⟩

theorem roundUpAdd {a b : Nat} (positive : 0 < a) (aligned : a ∣ b) : roundUp (b + n) a = b + roundUp n a := by
  have up := roundUpOk (n := n) a positive
  refine roundedUpUnique (roundUpOk a positive) ⟨Nat.dvd_add aligned up.aligned,?_,?_⟩
  · have := up.le
    omega
  · intro c there le
    have := up.lowest (c - b) (Nat.dvd_sub there aligned) (by omega)
    omega

theorem powerRoom (small : k ≤ 12) {v : Nat} (aligned : 2^k ∣ v) (less : v < 2^32) : v + 2^k ≤ 2^32 := by
  have top : 2^k*2^(32 - k) = 2^32 := by rw [← Nat.pow_add]; congr 1; omega
  obtain ⟨m,rfl⟩ := aligned
  have fewer : m < 2^(32 - k) := by
    by_contra more
    have := Nat.mul_le_mul_left (2^k) (Nat.le_of_not_lt more)
    omega
  have := Nat.mul_le_mul_left (2^k) (Nat.succ_le_of_lt fewer)
  rw [Nat.mul_succ] at this
  omega

theorem alignUpEq (small : k ≤ 12) (less : roundUp n (2^k) < 2^32) : alignUp n (2^k) = roundUp n (2^k) := by
  have up := roundUpOk (n := n) (2^k) (Nat.two_pow_pos k)
  have room := powerRoom small up.aligned less
  have := up.le
  exact roundedUpUnique (alignUpOk (by omega) (by omega)) up

theorem padEq (small : k ≤ 12) (less : n < 2^32) : n + (sub32 0 n &&& sub32 (2^k) 1) = roundUp n (2^k) := by
  have positive := Nat.two_pow_pos k
  have divides : 2^k ∣ 2^32 := Nat.pow_dvd_pow 2 (by omega)
  rw [sub32Eq positive,Nat.and_two_pow_sub_one_eq_mod]
  have aligned : 2^k ∣ n + sub32 0 n % 2^k := by
    by_cases zero : n = 0
    · simp [zero,sub32]
    · have neg : sub32 0 n = 2^32 - n := by rw [sub32,if_neg (by omega),Nat.sub_zero]
      have whole := Nat.div_add_mod (2^32 - n) (2^k)
      have split : n + (2^32 - n) % 2^k = 2^32 - 2^k*((2^32 - n) / 2^k) := by omega
      rw [neg,split]
      exact Nat.dvd_sub divides (Nat.dvd_mul_right _ _)
  have less' := Nat.mod_lt (sub32 0 n) positive
  refine roundedUpUnique ⟨aligned,Nat.le_add_right _ _,?_⟩ (roundUpOk (2^k) positive)
  intro b there le
  by_contra above
  have := Nat.le_of_dvd (by omega) (Nat.dvd_sub aligned there)
  omega

end

/- Chunks that fill a range one after the other, each up to where the next one starts. -/
inductive Tiled : Nat → List Placed → Nat → Prop
  | nil (start) : Tiled start [] start
  | cons {p ps stop} : p.start + p.chunk.len ≤ p.stop → Tiled p.stop ps stop → Tiled p.start (p::ps) stop

section
variable {start stop : Nat} {ps : List Placed} (tiled : Tiled start ps stop)
include tiled

theorem tiledLe : start ≤ stop := by
  induction tiled with
  | nil => exact Nat.le_refl _
  | cons _ _ ih => omega

theorem tiledBounds {p : Placed} (m : p ∈ ps) : start ≤ p.start ∧ p.start + p.chunk.len ≤ p.stop ∧ p.stop ≤ stop := by
  induction tiled with
  | nil => simp at m
  | @cons q qs last room rest ih =>
    have := tiledLe rest
    rcases List.mem_cons.mp m with rfl | m
    · omega
    · have := ih m
      omega

theorem tiledCovers {a : Nat} (from' : start ≤ a) (upto : a < stop) : ∃ p ∈ ps, p.start ≤ a ∧ a < p.stop := by
  induction tiled with
  | nil => omega
  | @cons q qs last room rest ih =>
    by_cases first : a < q.stop
    · exact ⟨q,by simp,from',first⟩
    · obtain ⟨p,m,inside⟩ := ih (by omega) upto
      exact ⟨p,by simp [m],inside⟩

theorem tiledUnique {p q : Placed} {a : Nat} (mp : p ∈ ps) (mq : q ∈ ps) (first : p.start ≤ a ∧ a < p.stop)
    (second : q.start ≤ a ∧ a < q.stop) : p = q := by
  induction tiled with
  | nil => simp at mp
  | @cons r rs last room rest ih =>
    rcases List.mem_cons.mp mp with here | later
    · rcases List.mem_cons.mp mq with here' | later'
      · rw [here,here']
      · have := tiledBounds rest later'
        rw [here] at first
        omega
    · rcases List.mem_cons.mp mq with here' | later'
      · have := tiledBounds rest later
        rw [here'] at second
        omega
      · exact ih later later'

end

section
variable {chain : List Chunk} {size : Nat}

theorem goodAlign {c : Chunk} (good : Good c) : 0 < c.align ∧ c.align ∣ initramfsMaxAlign := by
  obtain ⟨k,small,eq⟩ := good.power
  rw [eq]
  exact ⟨Nat.two_pow_pos k,Nat.pow_dvd_pow (n := 12) 2 small⟩

theorem alignUpGood {c : Chunk} (good : Good c) (less : roundUp size c.align < 2^32) :
    alignUp size c.align = roundUp size c.align := by
  obtain ⟨k,small,eq⟩ := good.power
  rw [eq] at less ⊢
  exact alignUpEq small less

theorem exactFromLe (size : Nat) (good : ∀ c ∈ chain, Good c) : size ≤ exactFrom size chain := by
  induction chain generalizing size with
  | nil => exact Nat.le_refl _
  | cons c rest ih =>
    have up := (roundUpOk (n := size) c.align (goodAlign (good c (by simp))).1).le
    have := ih (roundUp size c.align + c.len) (fun d m => good d (by simp [m]))
    rw [exactFrom]
    omega

theorem exactCons {c : Chunk} {rest : List Chunk} (good : ∀ d ∈ c::rest, Good d) (room : exactFrom size (c::rest) < 2^32) :
    alignUp size c.align = roundUp size c.align ∧ add32 (roundUp size c.align) c.len = roundUp size c.align + c.len ∧
      size ≤ roundUp size c.align ∧ roundUp size c.align + c.len ≤ exactFrom size (c::rest) := by
  have le := exactFromLe (roundUp size c.align + c.len) (fun d m => good d (List.mem_cons_of_mem c m))
  have up := (roundUpOk (n := size) c.align (goodAlign (good c (by simp))).1).le
  rw [exactFrom] at room
  exact ⟨alignUpGood (good c (by simp)) (by omega),add32Eq (by omega),up,le⟩

theorem sizeExact (good : ∀ c ∈ chain, Good c) (room : exactFrom size chain < 2^32) : sizeFrom size chain = exactFrom size chain := by
  induction chain generalizing size with
  | nil => rfl
  | cons c rest ih =>
    obtain ⟨up,sum,_,_⟩ := exactCons good room
    rw [sizeFrom,up,sum,ih (fun d m => good d (by simp [m])) room,exactFrom]

theorem nextStartLe (good : ∀ c ∈ chain, Good c) (room : exactFrom size chain < 2^32) :
    size ≤ nextStart size chain ∧ nextStart size chain ≤ exactFrom size chain := by
  cases chain with
  | nil => exact ⟨Nat.le_refl _,Nat.le_refl _⟩
  | cons c rest =>
    obtain ⟨up,_,le,le'⟩ := exactCons good room
    rw [nextStart,up]
    omega

theorem placedTiled (good : ∀ c ∈ chain, Good c) (room : exactFrom size chain < 2^32) :
    Tiled (nextStart size chain) (placedFrom size chain) (exactFrom size chain) ∧
      (placedFrom size chain).map Placed.chunk = chain ∧ ∀ p ∈ placedFrom size chain, p.chunk.align ∣ p.start := by
  induction chain generalizing size with
  | nil => exact ⟨.nil size,rfl,by simp [placedFrom]⟩
  | cons c rest ih =>
    obtain ⟨up,sum,_,_⟩ := exactCons good room
    have later : ∀ d ∈ rest, Good d := fun d m => good d (by simp [m])
    rw [exactFrom] at room
    obtain ⟨tiled,same,aligned⟩ := ih later room
    obtain ⟨le,_⟩ := nextStartLe later room
    rw [nextStart,placedFrom]
    simp only [up,sum]
    refine ⟨Tiled.cons (p := ⟨c,roundUp size c.align,nextStart (roundUp size c.align + c.len) rest⟩) le tiled,by simp [same],?_⟩
    intro p m
    rcases List.mem_cons.mp m with rfl | m
    · exact Nat.dvd_mul_left _ _
    · exact aligned p m

end

/- The fragments of the chunks that have data, and the bytes that are zeroed. -/
def fragsOf (base : Nat) (ps : List Placed) : List Move :=
  (ps.filter (fun p => p.chunk.dataLen ≠ 0)).map (fun p => ⟨base + p.start,p.chunk.data,p.stop - p.start⟩)

def ZeroAt (base : Nat) (ps : List Placed) (a : Nat) : Prop :=
  ∃ p ∈ ps, base + p.start + p.chunk.dataLen ≤ a ∧ a < base + p.stop

/- What map_initramfs adds to the list of fragments and to the memory map. -/
structure Maps (base : Nat) (ps : List Placed) (fraglist : List Move) (mmap : List Zone) (r : Mapped) : Prop where
  frags : r.fraglist = (fragsOf base ps).reverse ++ fraglist
  wf : WellFormed r.mmap
  zeroed : ∀ a, a < 2^32 → ZeroAt base ps a → typeAt r.mmap a = smtZero
  others : ∀ a, a < 2^32 → ¬ ZeroAt base ps a → typeAt r.mmap a = typeAt mmap a

section
variable {chain rest : List Chunk} {size base : Nat} {c : Chunk}

theorem padNext (good : ∀ d ∈ rest, Good d) (aligned : initramfsMaxAlign ∣ base) (fits : base + exactFrom size rest ≤ 2^32)
    (room : exactFrom size rest < 2^32) (some' : rest ≠ []) :
    base + size < 2^32 ∧ base + size + padding (base + size) rest = base + nextStart size rest ∧
      base + nextStart size rest < 2^32 := by
  cases rest with
  | nil => exact absurd rfl some'
  | cons next later =>
    obtain ⟨up,_,le,le'⟩ := exactCons good room
    have positive := (good next (by simp)).some'
    obtain ⟨power,divides⟩ := goodAlign (good next (by simp))
    have less : base + size < 2^32 := by omega
    refine ⟨less,?_,by rw [nextStart,up]; omega⟩
    rw [padding,nextStart,up,← roundUpAdd power (Nat.dvd_trans divides aligned)]
    obtain ⟨k,small,eq⟩ := (good next (by simp)).power
    rw [eq]
    exact padEq small less

/- The sums of one turn do not wrap, except past the last byte of the address space. -/
theorem turnSums (good : ∀ d ∈ c::rest, Good d) (aligned : initramfsMaxAlign ∣ base)
    (fits : base + exactFrom size (c::rest) ≤ 2^32) (room : exactFrom size (c::rest) < 2^32) {start : Nat}
    (at' : start = nextStart size (c::rest)) :
    add32 c.len (padding (add32 (base + start) c.len) rest) = nextStart (start + c.len) rest - start ∧
      c.len ≤ nextStart (start + c.len) rest - start ∧ base + nextStart (start + c.len) rest ≤ 2^32 ∧
      (rest ≠ [] → add32 (add32 (base + start) c.len) (padding (add32 (base + start) c.len) rest) =
        base + nextStart (start + c.len) rest) := by
  obtain ⟨up,_,_,le⟩ := exactCons good room
  have later : ∀ d ∈ rest, Good d := fun d m => good d (by simp [m])
  rw [nextStart,up] at at'
  have fits' : base + exactFrom (start + c.len) rest ≤ 2^32 := by rwa [at',← exactFrom]
  have room' : exactFrom (start + c.len) rest < 2^32 := by rwa [at',← exactFrom]
  have next := nextStartLe later room'
  by_cases last : rest = []
  · subst last
    simp only [padding,nextStart] at next ⊢
    refine ⟨?_,by omega,by omega,by simp⟩
    rw [add32Eq (by omega)]
    omega
  · obtain ⟨less,pad,less'⟩ := padNext later aligned fits' room' last
    rw [add32Eq (by omega : base + start + c.len < 2^32)]
    rw [← Nat.add_assoc] at pad less
    refine ⟨?_,by omega,by omega,fun _ => ?_⟩
    · rw [add32Eq (by omega)]
      omega
    · rw [add32Eq (by omega)]
      exact pad

theorem mapTurn {mallocs : List Bool} {fraglist : List Move} {mmap : List Zone} {addr len nextAddr : Nat} (wf : WellFormed mmap)
    (lenEq : add32 c.len (padding (add32 addr c.len) rest) = len) (data : c.dataLen ≤ len) (fits : addr + len ≤ 2^32)
    (next : add32 (add32 addr c.len) (padding (add32 addr c.len) rest) = nextAddr)
    (ok : (mapInitramfs mallocs fraglist mmap (c::rest) addr).rv = 0) :
    ∃ mallocs' mmap', mapInitramfs mallocs fraglist mmap (c::rest) addr = mapInitramfs mallocs'
        ((if c.dataLen ≠ 0 then [⟨addr,c.data,len⟩] else []) ++ fraglist) mmap' rest nextAddr ∧ WellFormed mmap' ∧
      ∀ a, a < 2^32 → typeAt mmap' a = if addr + c.dataLen ≤ a ∧ a < addr + len then smtZero else typeAt mmap a := by
  rw [mapInitramfs] at ok ⊢
  simp only [lenEq,next] at ok ⊢
  have listed : ∃ mallocs', (if c.dataLen ≠ 0 then syslinuxAddMovelist mallocs fraglist addr c.data len else (0,fraglist,mallocs)) =
        (0,(if c.dataLen ≠ 0 then [⟨addr,c.data,len⟩] else []) ++ fraglist,mallocs') ∨
      (if c.dataLen ≠ 0 then syslinuxAddMovelist mallocs fraglist addr c.data len else (0,fraglist,mallocs)) =
        (-1,fraglist,mallocs') := by
    by_cases some' : c.dataLen ≠ 0
    · simp only [if_pos some',syslinuxAddMovelist]
      rcases malloc mallocs with ⟨_ | _,later⟩
      · exact ⟨later,Or.inr rfl⟩
      · exact ⟨later,Or.inl rfl⟩
    · exact ⟨mallocs,Or.inl (by simp [some'])⟩
  obtain ⟨mallocs',listed | failed⟩ := listed
  · simp only [listed] at ok ⊢
    by_cases padded : c.dataLen < len
    · have place : add32 addr c.dataLen = addr + c.dataLen := add32Eq (by omega)
      have rest' : sub32 len c.dataLen = len - c.dataLen := sub32Eq (by omega)
      simp only [ne_eq,not_true_eq_false,if_false,if_pos padded,place,rest'] at ok ⊢
      by_cases added : (syslinuxAddMemmap mallocs' mmap (addr + c.dataLen) (len - c.dataLen) smtZero).rv = 0
      · obtain ⟨wf',types⟩ := addMemmapSpec wf (by decide) (by omega) added
        simp only [added,not_true_eq_false,if_false] at ok ⊢
        refine ⟨_,_,rfl,wf',?_⟩
        intro a bound
        rw [types a bound,show addr + c.dataLen + (len - c.dataLen) = addr + len by omega]
      · simp [added] at ok
    · simp only [ne_eq,not_true_eq_false,if_false,if_neg padded] at ok ⊢
      refine ⟨_,_,rfl,wf,?_⟩
      intro a bound
      rw [if_neg (by omega)]
  · simp [failed] at ok

theorem mapPlaced {mallocs : List Bool} {fraglist : List Move} {mmap : List Zone} (good : ∀ c ∈ chain, Good c)
    (aligned : initramfsMaxAlign ∣ base) (fits : base + exactFrom size chain ≤ 2^32) (room : exactFrom size chain < 2^32)
    (wf : WellFormed mmap) (ok : (mapInitramfs mallocs fraglist mmap chain (base + nextStart size chain)).rv = 0) :
    Maps base (placedFrom size chain) fraglist mmap
      (mapInitramfs mallocs fraglist mmap chain (base + nextStart size chain)) := by
  induction chain generalizing size mallocs fraglist mmap with
  | nil =>
    refine ⟨rfl,wf,?_,fun _ _ _ => rfl⟩
    rintro a _ ⟨p,m,_⟩
    simp [placedFrom] at m
  | cons c rest ih =>
    obtain ⟨up,sum,_,_⟩ := exactCons good room
    have later : ∀ d ∈ rest, Good d := fun d m => good d (by simp [m])
    have data := (good c (by simp)).data
    obtain ⟨lenEq,enough,bound,next⟩ := turnSums good aligned fits room rfl
    have first : nextStart size (c::rest) = roundUp size c.align := by rw [nextStart,up]
    rw [first] at ok lenEq enough bound next ⊢
    rw [exactFrom] at fits room
    have le := (nextStartLe later room).1
    obtain ⟨mallocs',mmap',turn,wf',types⟩ := mapTurn wf lenEq (by omega) (by omega) rfl ok
    have goes : mapInitramfs mallocs' ((if c.dataLen ≠ 0 then [⟨base + roundUp size c.align,c.data,
          nextStart (roundUp size c.align + c.len) rest - roundUp size c.align⟩] else []) ++ fraglist) mmap' rest
          (add32 (add32 (base + roundUp size c.align) c.len) (padding (add32 (base + roundUp size c.align) c.len) rest)) =
        mapInitramfs mallocs' ((if c.dataLen ≠ 0 then [⟨base + roundUp size c.align,c.data,
          nextStart (roundUp size c.align + c.len) rest - roundUp size c.align⟩] else []) ++ fraglist) mmap' rest
          (base + nextStart (roundUp size c.align + c.len) rest) := by
      by_cases last : rest = []
      · subst last
        rfl
      · rw [next last]
    rw [turn,goes] at ok ⊢
    obtain ⟨frags,wf'',zeroed,others⟩ := ih later fits room wf' ok
    rw [placedFrom]
    simp only [up,sum]
    refine ⟨?_,wf'',?_,?_⟩
    · rw [frags,fragsOf,fragsOf]
      by_cases some' : c.dataLen ≠ 0
      · simp [some']
      · simp [some']
    · rintro a bound ⟨p,m,inside⟩
      by_cases there : ZeroAt base (placedFrom (roundUp size c.align + c.len) rest) a
      · exact zeroed a bound there
      · rcases List.mem_cons.mp m with rfl | m
        · rw [others a bound there,types a bound,if_pos]
          simp only at inside
          omega
        · exact absurd ⟨p,m,inside⟩ there
    · intro a bound none'
      rw [others a bound (fun ⟨p,m,inside⟩ => none' ⟨p,by simp [m],inside⟩),types a bound,if_neg]
      rintro ⟨above,below⟩
      exact none' ⟨_,List.mem_cons_self,above,by simp only; omega⟩

theorem fragsOfMem {ps : List Placed} {f : Move} : f ∈ fragsOf base ps ↔
    ∃ p ∈ ps, p.chunk.dataLen ≠ 0 ∧ f = ⟨base + p.start,p.chunk.data,p.stop - p.start⟩ := by
  simp only [fragsOf,List.mem_map,List.mem_filter,decide_eq_true_eq,and_assoc]
  exact ⟨fun ⟨p,m,some',eq⟩ => ⟨p,m,some',eq.symm⟩,fun ⟨p,m,some',eq⟩ => ⟨p,m,some',eq.symm⟩⟩

theorem mappedCovers {ps : List Placed} {stop : Nat} (base : Nat) (tiled : Tiled 0 ps stop) (a : Nat) :
    ((∃ f ∈ fragsOf base ps, f.inDst a) ∨ ZeroAt base ps a) ↔ base ≤ a ∧ a < base + stop := by
  constructor
  · rintro (⟨f,m,inside⟩ | ⟨p,m,inside⟩)
    · obtain ⟨p,mp,_,rfl⟩ := fragsOfMem.1 m
      have := tiledBounds tiled mp
      simp only [Move.inDst] at inside
      omega
    · have := tiledBounds tiled m
      omega
  · rintro ⟨above,below⟩
    obtain ⟨p,m,inside⟩ := tiledCovers tiled (show 0 ≤ a - base by omega) (by omega)
    by_cases data : a < base + p.start + p.chunk.dataLen
    · refine Or.inl ⟨_,fragsOfMem.2 ⟨p,m,by omega,rfl⟩,?_⟩
      simp only [Move.inDst]
      omega
    · exact Or.inr ⟨p,m,by omega,by omega⟩

theorem copiedData {ps : List Placed} {stop : Nat} {fraglist : List Move} (tiled : Tiled 0 ps stop)
    (good : ∀ p ∈ ps, Good p.chunk) (mem : Nat → UInt8) {p : Placed} (m : p ∈ ps) {i : Nat} (data : i < p.chunk.dataLen) :
    copyAll ((fragsOf base ps).reverse ++ fraglist) mem (base + p.start + i) = mem (p.chunk.data + i) := by
  have bounds := tiledBounds tiled m
  have le := (good p m).data
  rw [copyAll,wanted,List.find?_append]
  cases found : (fragsOf base ps).reverse.find? (fun f => f.inDst (base + p.start + i)) with
  | none =>
    have missed := List.find?_eq_none.mp found ⟨base + p.start,p.chunk.data,p.stop - p.start⟩
      (List.mem_reverse.mpr (fragsOfMem.2 ⟨p,m,by omega,rfl⟩))
    rw [decide_eq_true_eq] at missed
    refine absurd ⟨?_,?_⟩ missed
    · exact Nat.le_add_right _ _
    · simp only
      omega
  | some f =>
    have inside : f.inDst (base + p.start + i) := by simpa using List.find?_some found
    obtain ⟨q,mq,_,rfl⟩ := fragsOfMem.1 (List.mem_reverse.mp (List.mem_of_find?_eq_some found))
    have bounds' := tiledBounds tiled mq
    simp only [Move.inDst] at inside
    obtain rfl := tiledUnique tiled (a := p.start + i) mq m (by omega) (by omega)
    have back : base + q.start + i - (base + q.start) = i := by omega
    simp only [Option.some_or,Option.map_some,Option.getD_some,back]

def zeroFill (mmap : List Zone) (mem : Nat → UInt8) (a : Nat) : UInt8 := if typeAt mmap a = smtZero then 0 else mem a

/- map_initramfs puts each chunk where initramfs_size has counted it. -/
theorem initramfsMapped {mallocs : List Bool} {fraglist : List Move} {mmap : List Zone} {r : Mapped} (built : Built chain)
    (total : exactFrom 0 chain < 2^32) (aligned : initramfsMaxAlign ∣ base) (fits : base + exactFrom 0 chain ≤ 2^32)
    (wf : WellFormed mmap) (ran : mapInitramfs mallocs fraglist mmap chain base = r) (ok : r.rv = 0) :
    initramfsSize chain = exactFrom 0 chain ∧ (placedFrom 0 chain).map Placed.chunk = chain ∧
    Maps base (placedFrom 0 chain) fraglist mmap r ∧ (∀ p ∈ placedFrom 0 chain, p.chunk.align ∣ base + p.start) ∧
    (∀ a, ((∃ f ∈ fragsOf base (placedFrom 0 chain), f.inDst a) ∨ ZeroAt base (placedFrom 0 chain) a) ↔
      base ≤ a ∧ a < base + initramfsSize chain) ∧
    ((∀ a, base ≤ a → a < base + initramfsSize chain → typeAt mmap a ≠ smtZero) →
      ∀ mem, ∀ p ∈ placedFrom 0 chain, ∀ i, i < p.chunk.len →
        zeroFill r.mmap (copyAll r.fraglist mem) (base + p.start + i) =
          if i < p.chunk.dataLen then mem (p.chunk.data + i) else 0) := by
  have good := builtGood built
  obtain ⟨tiled,chunks,starts⟩ := placedTiled good total
  have first : nextStart 0 chain = 0 := by
    cases chain with
    | nil => rfl
    | cons c rest =>
      obtain ⟨up,_⟩ := exactCons good total
      rw [nextStart,up,roundUpSelf (goodAlign (good c (by simp))).1 (Nat.dvd_zero _)]
  rw [first] at tiled
  have goodPlaced : ∀ p ∈ placedFrom 0 chain, Good p.chunk := by
    intro p m
    exact good p.chunk (chunks ▸ List.mem_map_of_mem m)
  have size : initramfsSize chain = exactFrom 0 chain := sizeExact good total
  have maps : Maps base (placedFrom 0 chain) fraglist mmap r := by
    rw [← ran] at ok ⊢
    have placed := @mapPlaced chain 0 base mallocs fraglist mmap good aligned fits total wf
    rw [first] at placed
    exact placed ok
  have covers := mappedCovers base tiled
  rw [← size] at covers
  refine ⟨size,chunks,maps,?_,covers,?_⟩
  · intro p m
    exact Nat.dvd_add (Nat.dvd_trans (goodAlign (goodPlaced p m)).2 aligned) (starts p m)
  · intro clear mem p m i small
    have bounds := tiledBounds tiled m
    have inside : base + p.start + i < 2^32 := by omega
    unfold zeroFill
    by_cases data : i < p.chunk.dataLen
    · have notZero : ¬ ZeroAt base (placedFrom 0 chain) (base + p.start + i) := by
        rintro ⟨q,mq,above,below⟩
        have := tiledBounds tiled mq
        obtain rfl := tiledUnique tiled (a := p.start + i) mq m (by omega) (by omega)
        omega
      rw [maps.others _ inside notZero,if_neg (clear _ (by omega) (by omega)),if_pos data,maps.frags]
      exact copiedData tiled goodPlaced mem m data
    · have isZero : ZeroAt base (placedFrom 0 chain) (base + p.start + i) := ⟨p,m,by omega,by omega⟩
      rw [maps.zeroed _ inside isZero,if_pos rfl,if_neg data]

/- Two chunks, the second one aligned to 4096 bytes. -/
theorem initramfsMappedTwo :
    let chain : List Chunk := [⟨0x200000,1000,1024,4⟩,⟨0x300000,10,12,4096⟩]
    let r := mapInitramfs [] [] [⟨0,smtFree⟩,⟨0,smtEnd⟩] chain 0x1000000
    initramfsSize chain = 4108 ∧ Maps 0x1000000 (placedFrom 0 chain) [] [⟨0,smtFree⟩,⟨0,smtEnd⟩] r := by
  intro chain r
  have one : Built [⟨0x200000,1000,1024,4⟩] := @Built.add [] 0x200000 1000 1024 4 [] .init (by decide)
  have built : Built chain := @Built.add _ 0x300000 10 12 4096 [] one (by decide)
  have wf : WellFormed [⟨0,smtFree⟩,⟨0,smtEnd⟩] := ⟨rfl,by decide,Or.inl ⟨rfl,rfl⟩⟩
  obtain ⟨size,_,maps,_⟩ := initramfsMapped built (by decide) (by decide : initramfsMaxAlign ∣ 0x1000000) (by decide) wf
    (rfl : _ = r) (by decide)
  exact ⟨size,maps⟩

end
end Syslinux.Initramfs
