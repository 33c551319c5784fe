import Syslinux.CacheServes
import Syslinux.Ext2

/-! The end of ext2_fs_init: it takes an entry of the new cache for block zero, clears its
data and locks it. _get_cache_block leaves the number in the entry to its caller. -/
namespace Syslinux.Ext2Zero
open Cache Chain Runs
open Ext2 (SuperBlock)

def SuperBlock.blockShift (sb : SuperBlock) : Nat := sb.sLogBlockSize + 10

def memset (mem : Nat → UInt8) (buf : Option Nat) (c : UInt8) (count : Nat) : Nat → UInt8 :=
  match buf with
  | some p => store mem p (List.replicate count c)
  | none => mem

def forceBlockZero (sizeofCache : Nat) (dev : Device) (sb : SuperBlock) : Session :=
  let dev := cacheInit sizeofCache dev (SuperBlock.blockShift sb)
  let (dev,cs) := getCacheBlock dev 0
  let dev := { dev with mem := memset dev.mem (dev.data cs) 0 (2^SuperBlock.blockShift sb) }
  ⟨cacheLockBlock dev cs,[cs],[cs]⟩

/- get_cache(dev, 0) returns a block of zeros. -/
def ReadsZeros (disk : Nat → UInt8) (shift : Nat) (dev : Device) : Prop :=
  ∃ p, (getCache disk dev 0).2 = some p ∧ read (getCache disk dev 0).1.mem p (2^shift) = List.replicate (2^shift) 0

/- The cache has an entry besides the one that is locked, and the block size fits its field. -/
structure Usable (sizeofCache cacheSize shift : Nat) : Prop where
  room : 2^shift + 2*sizeofCache ≤ cacheSize
  size : shift ≤ 15
  entries : 2 ≤ (cacheSize - sizeofCache) / (2^shift + sizeofCache) % 2^16

section
variable {disk : Nat → UInt8} {sizeofCache shift n v : Nat} {lru : List Nat} {s : Session}

theorem keptTouch (h : Kept disk shift n lru s) (empty : ∀ e, isEntry n e → s.dev.block e = noBlock)
    (mem : Nat → UInt8) : ∃ lru', Kept disk shift n lru'
      { s with dev := { (getCacheBlock s.dev 0).1 with mem := mem }, used := s.used ++ [(getCacheBlock s.dev 0).2] } := by
  obtain ⟨lru',ring,members,sorted,locked⟩ := getRing h 0
  have first : (getCacheBlock s.dev 0).1 = { s.dev with links := (moveToEnd s.dev (getCacheBlock s.dev 0).2).links } :=
    moveOnlyLinks _ _
  refine ⟨lru',?_⟩
  rw [first]
  constructor
  case head => exact h.head
  case entries => exact h.entries
  case size => exact h.size
  case data => exact h.data
  case holds => exact fun e entry used => absurd (empty e entry) used
  case unique => exact h.unique
  case ring => exact ring
  case members => exact fun e => (members e).trans (h.members e)
  case sorted => exact sorted
  case unlocked =>
    obtain ⟨e,rest,eq⟩ := List.exists_cons_of_ne_nil h.unlocked
    exact List.ne_nil_of_mem ((members e).mpr (by simp [eq]))
  case locked => exact fun e m => ⟨(h.locked e m).1,locked e m⟩

theorem initBlocks {dev : Device} (room : 2^shift % 2^16 + 2*sizeofCache ≤ dev.cacheSize) {e : Nat}
    (entry : isEntry (cacheInit sizeofCache dev shift).cacheEntries e) :
    (cacheInit sizeofCache dev shift).block e = noBlock := by
  rw [cacheInit] at entry ⊢
  simp only at entry ⊢
  rw [if_neg (by omega),initEntriesEq] at entry ⊢
  exact if_pos entry

theorem keptForced {dev : Device} {sb : SuperBlock} (disk : Nat → UInt8)
    (usable : Usable sizeofCache dev.cacheSize (SuperBlock.blockShift sb)) :
    ∃ n lru, Kept disk (SuperBlock.blockShift sb) n lru (forceBlockZero sizeofCache dev sb) := by
  obtain ⟨room,size,entries⟩ := usable
  have small : 2^SuperBlock.blockShift sb % 2^16 = 2^SuperBlock.blockShift sb :=
    Nat.mod_eq_of_lt (Nat.pow_lt_pow_right (by omega) (by omega))
  obtain ⟨n,lru,kept⟩ := keptInit disk room ⟨size,by omega⟩
  have count : (cacheInit sizeofCache dev (SuperBlock.blockShift sb)).cacheEntries = n := kept.entries
  have two : 2 ≤ n := by
    rw [← count,cacheInit]
    simp only [small]
    rw [if_neg (by omega),initEntriesEq]
    exact entries
  have empty : ∀ e, isEntry n e → (cacheInit sizeofCache dev (SuperBlock.blockShift sb)).block e = noBlock := by
    intro e entry
    exact initBlocks (by omega) (count ▸ entry)
  have chosen := chosenEntry kept 0
  obtain ⟨lru',touched⟩ := keptTouch kept empty
    (memset (getCacheBlock (cacheInit sizeofCache dev (SuperBlock.blockShift sb)) 0).1.mem
      ((getCacheBlock (cacheInit sizeofCache dev (SuperBlock.blockShift sb)) 0).1.data
        (getCacheBlock (cacheInit sizeofCache dev (SuperBlock.blockShift sb)) 0).2) 0 (2^SuperBlock.blockShift sb))
  -- the other entry, first or second of the two that there are at least
  have other : ∃ e, isEntry n e ∧ e ≠ (getCacheBlock (cacheInit sizeofCache dev (SuperBlock.blockShift sb)) 0).2 := by
    by_cases first : (getCacheBlock (cacheInit sizeofCache dev (SuperBlock.blockShift sb)) 0).2 = Cache.head + 1
    · exact ⟨Cache.head + 2,⟨by omega,by omega⟩,by omega⟩
    · exact ⟨Cache.head + 1,⟨by omega,by omega⟩,fun same => first same.symm⟩
  obtain ⟨e,entry,ne⟩ := other
  obtain ⟨lru',locked⟩ := keptLock touched chosen (by simp [opened]) ⟨e,entry,ne,by simp [opened]⟩
  exact ⟨n,lru',locked⟩

theorem keptReadsZeros (h : Kept disk shift n lru s) :
    ReadsZeros disk shift s.dev ↔ read disk 0 (2^shift) = List.replicate (2^shift) 0 := by
  have data : (getCache disk s.dev 0).2 = some (place shift (getCacheBlock s.dev 0).2) := by
    rw [getCacheEq]
    exact h.data _ (chosenEntry h 0)
  have bytes := getHolds h (show 0 < noBlock by decide)
  rw [Nat.zero_mul] at bytes
  constructor
  · rintro ⟨p,eq,zeros⟩
    cases Option.some.inj (data.symm.trans eq)
    rw [← bytes,zeros]
  · intro zeros
    exact ⟨_,data,by rw [bytes,zeros]⟩

end

/- The lock keeps an entry of zeros that no lookup ever finds: get_cache(dev, 0) is the
block that the disk has there, in every run. -/
theorem blockZeroForced {sizeofCache : Nat} {dev : Device} {sb : SuperBlock} (disk : Nat → UInt8)
    (usable : Usable sizeofCache dev.cacheSize (SuperBlock.blockShift sb)) :
    (∀ events s, run (step disk) (forceBlockZero sizeofCache dev sb) events = some s →
      ReadsZeros disk (SuperBlock.blockShift sb) s.dev) ↔
    read disk 0 (2^SuperBlock.blockShift sb) = List.replicate (2^SuperBlock.blockShift sb) 0 := by
  obtain ⟨n,lru,kept⟩ := keptForced disk usable
  constructor
  · intro always
    exact (keptReadsZeros kept).mp (always [] _ rfl)
  · intro zeros events s ok
    obtain ⟨lru',later⟩ := keptRun kept ok
    exact (keptReadsZeros later).mpr zeros

/- Blocks of 1 KiB in the cache of device_init, with descriptors of 20 bytes. -/
def freshDevice : Device := ⟨0,0,0,128*1024,⟨id,id⟩,id,fun _ => none,fun _ => 0⟩
def smallBlocks : SuperBlock := ⟨8192,1,0,8192,2048,Ext2.ext2SuperMagic,128,32⟩

theorem smallUsable : Usable 20 freshDevice.cacheSize (SuperBlock.blockShift smallBlocks) :=
  ⟨by decide,by decide,by decide⟩

theorem blockZeroForcedSmall : Usable 20 freshDevice.cacheSize (SuperBlock.blockShift smallBlocks) ∧ ∀ events s,
    run (step fun _ => 0) (forceBlockZero 20 freshDevice smallBlocks) events = some s →
      ReadsZeros (fun _ => 0) (SuperBlock.blockShift smallBlocks) s.dev :=
  ⟨smallUsable,(blockZeroForced (fun _ => 0) smallUsable).mpr (by simp [read])⟩

/- A disk of ones. -/
theorem blockZeroRead : ¬ ∀ (sizeofCache : Nat) (dev : Device) (sb : SuperBlock) (disk : Nat → UInt8)
    (events : List Event) (s : Session), Usable sizeofCache dev.cacheSize (SuperBlock.blockShift sb) →
    run (step disk) (forceBlockZero sizeofCache dev sb) events = some s →
    ReadsZeros disk (SuperBlock.blockShift sb) s.dev := by
  intro claim
  obtain ⟨n,lru,kept⟩ := keptForced (fun _ => 1) smallUsable
  have zeros := (keptReadsZeros kept).mp (claim 20 freshDevice smallBlocks (fun _ => 1) [] _ smallUsable rfl)
  have one : (1 : UInt8) ∈ read (fun _ => 1) 0 (2^SuperBlock.blockShift smallBlocks) :=
    List.mem_map.mpr ⟨0,List.mem_range.mpr (Nat.two_pow_pos _),rfl⟩
  rw [zeros] at one
  exact absurd (List.eq_of_mem_replicate one) (by decide)

end Syslinux.Ext2Zero
