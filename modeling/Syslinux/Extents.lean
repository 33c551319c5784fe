import Syslinux.Machine

/-! The extents of ldlinux.sys: generate_extents of libinstaller/syslxmod.c writes them, load_rest of
core/diskstart.inc loads them one behind the other. -/
namespace Syslinux.Extents

def sectorSize : Nat := 512

/- struct syslinux_extent. -/
structure Extent where
  lba : UInt64
  len : Nat
  deriving DecidableEq, Repr

def extent (lba : UInt64) (len : Nat) : Extent := ⟨lba,len % 2^16⟩

/- ((addr ^ (base + xbytes - 1)) & 0xffff0000) == 0. -/
def samePage (addr base xbytes : Nat) : Prop := (addr ^^^ sub32 (add32 base xbytes) 1) &&& 0xffff0000 = 0
instance (addr base xbytes : Nat) : Decidable (samePage addr base xbytes) := by unfold samePage; infer_instance

/- The loop over the sectors; what comes out are the extents in the order they are written. -/
@[grind =] def generateLoop : List UInt64 → Nat → Nat → UInt64 → Nat → List Extent
  | [],_,_,lba,len => if len ≠ 0 then [extent lba len] else []
  | sect::sectp,addr,base,lba,len =>
      if len ≠ 0 then
        let xbytes := (len + 1)*sectorSize % 2^32
        if sect = lba + UInt64.ofNat len ∧ xbytes < 65536 ∧ samePage addr base xbytes then
          generateLoop sectp (add32 addr sectorSize) base lba ((len + 1) % 2^32)
        else extent lba len::generateLoop sectp (add32 addr sectorSize) addr sect 1
      else generateLoop sectp (add32 addr sectorSize) addr sect 1

/- ldlinux.sys starts loading here. -/
def loadAddress : Nat := 0x8000

def generateExtents (sectp : List UInt64) : List Extent := generateLoop sectp loadAddress loadAddress 0 0

/- Where load_rest puts them, from ebx on; cx counts down to 0 with the last of them. -/
def loadRest : Nat → List Extent → List (Nat × Extent)
  | _,[] => []
  | ebx,x::extents => (ebx,x)::loadRest (add32 ebx (x.len*sectorSize)) extents

def sectors (x : Extent) : List UInt64 := (List.range x.len).map fun i => x.lba + UInt64.ofNat i
def expand (extents : List Extent) : List UInt64 := extents.flatMap sectors

/- An extent that is loaded in one 64 KB page of memory. -/
def InPage (load : Nat × Extent) : Prop := load.1 % 65536 + load.2.len*sectorSize ≤ 65536
instance (load : Nat × Extent) : Decidable (InPage load) := by unfold InPage; infer_instance

/- The extents are the sectors, there is room for them in the table, each is less than 64 KB, and
load_rest, which goes on behind the first sector, does not cross a page with one. -/
structure Sound (sectp : List UInt64) (nptrs : Nat) (extents : List Extent) : Prop where
  expands : expand extents = sectp
  room : extents.length ≤ nptrs
  small : ∀ x ∈ extents, x.len*sectorSize < 65536
  inPage : ∀ load ∈ loadRest (loadAddress + sectorSize) extents, InPage load

def placesFrom : UInt64 → Nat → List UInt64 → List Nat
  | _,_,[] => []
  | last,k,sect::sectp =>
      let k := if sect = last + 1 then k + 1 else 0
      k::placesFrom sect k sectp

def places : List UInt64 → List Nat
  | [] => []
  | sect::sectp => 0::placesFrom sect 0 sectp

section
variable {addr base a k len n : Nat} {lba last sect : UInt64} {sectp : List UInt64}

theorem samePageSector (aligned : addr % sectorSize = 0) (low : addr < 2^32) (from' : add32 base (len*sectorSize) = addr)
    (small : len + 1 ≤ 127) : samePage addr base ((len + 1)*sectorSize % 2^32) := by
  have high : sub32 (add32 base ((len + 1)*sectorSize % 2^32)) 1 = addr + (sectorSize - 1) := by
    unfold add32 sectorSize at *
    unfold sub32
    split <;> omega
  have page : addr >>> 16 = (addr + (sectorSize - 1)) >>> 16 := by
    unfold sectorSize at *
    simp only [Nat.shiftRight_eq_div_pow]
    omega
  have below : addr ^^^ (addr + (sectorSize - 1)) < 2^16 := by
    have none' : (addr ^^^ (addr + (sectorSize - 1))) >>> 16 = 0 := by
      rw [Nat.shiftRight_xor_distrib,← page,Nat.xor_self]
    rw [Nat.shiftRight_eq_div_pow] at none'
    omega
  rw [samePage,high]
  refine Nat.eq_of_testBit_eq fun i => ?_
  rw [Nat.testBit_and,Nat.zero_testBit]
  by_cases bit : i < 16
  · have clear : Nat.testBit 0xffff0000 i = false := by
      revert i
      decide
    rw [clear,Bool.and_false]
  · rw [Nat.testBit_lt_two_pow (Nat.lt_of_lt_of_le below (Nat.pow_le_pow_right (by decide) (Nat.le_of_not_lt bit))),Bool.false_and]

/- The loop with an extent begun: last is its last sector so far, and k that sector's place. -/
structure Begun (addr base : Nat) (lba : UInt64) (len : Nat) (last : UInt64) (k : Nat) : Prop where
  aligned : addr % sectorSize = 0
  low : addr < 2^32
  from' : add32 base (len*sectorSize) = addr
  some' : 1 ≤ len
  small : len ≤ 127
  place : k % 127 = len - 1
  reaches : last = lba + UInt64.ofNat (len - 1)

theorem nextAddr (aligned : addr % sectorSize = 0) : add32 addr sectorSize % sectorSize = 0 ∧ add32 addr sectorSize < 2^32 := by
  unfold add32 sectorSize at *
  omega

theorem ofNatSucc (n : Nat) : UInt64.ofNat (n + 1) = UInt64.ofNat n + 1 := by
  rw [UInt64.ofNat_add]
  rfl

theorem begunMore (begun : Begun addr base lba len last k) (less : len + 1 ≤ 127) :
    Begun (add32 addr sectorSize) base lba (len + 1) (last + 1) (k + 1) where
  aligned := (nextAddr begun.aligned).1
  low := (nextAddr begun.aligned).2
  from' := by
    rw [← begun.from']
    unfold add32 sectorSize
    omega
  some' := Nat.le_add_left _ _
  small := less
  place := by
    have := begun.place
    have := begun.some'
    omega
  reaches := by
    have := begun.some'
    obtain ⟨n,rfl⟩ : ∃ n, len = n + 1 := ⟨len - 1,by omega⟩
    rw [begun.reaches,Nat.add_sub_cancel,Nat.add_sub_cancel,ofNatSucc,UInt64.add_assoc]

theorem begunNew (aligned : addr % sectorSize = 0) (starts : k % 127 = 0) :
    Begun (add32 addr sectorSize) addr sect 1 sect k where
  aligned := (nextAddr aligned).1
  low := (nextAddr aligned).2
  from' := by rw [Nat.one_mul]
  some' := Nat.le_refl _
  small := by decide
  place := starts
  reaches := by simp

theorem generateTurn (begun : Begun addr base lba len last k) : generateLoop (sect::sectp) addr base lba len =
    if sect = last + 1 ∧ len + 1 ≤ 127 then generateLoop sectp (add32 addr sectorSize) base lba (len + 1)
    else extent lba len::generateLoop sectp (add32 addr sectorSize) addr sect 1 := by
  have some' := begun.some'
  have small := begun.small
  have reaches : lba + UInt64.ofNat len = last + 1 := by
    obtain ⟨n,rfl⟩ : ∃ n, len = n + 1 := ⟨len - 1,by omega⟩
    rw [begun.reaches,Nat.add_sub_cancel,ofNatSucc,UInt64.add_assoc]
  have bytes : (len + 1)*sectorSize % 2^32 < 65536 ↔ len + 1 ≤ 127 := by
    unfold sectorSize
    omega
  rw [generateLoop,if_pos (by omega)]
  simp only [reaches,bytes]
  by_cases goes : sect = last + 1 ∧ len + 1 ≤ 127
  · rw [if_pos goes,if_pos ⟨goes.1,goes.2,samePageSector begun.aligned begun.low begun.from' goes.2⟩,Nat.mod_eq_of_lt (by omega)]
  · rw [if_neg goes,if_neg fun all => goes ⟨all.1,all.2.1⟩]

theorem placeTurn (sect : UInt64) (begun : Begun addr base lba len last k) :
    (sect = last + 1 ∧ len + 1 ≤ 127) ↔ ¬ 127 ∣ if sect = last + 1 then k + 1 else 0 := by
  have := begun.place
  have := begun.some'
  have := begun.small
  by_cases follows : sect = last + 1
  · rw [if_pos follows]
    simp only [follows,true_and]
    omega
  · simp [follows]

theorem expandLast (lba : UInt64) (n : Nat) (small : n + 1 < 2^16) :
    sectors (extent lba (n + 1)) = sectors (extent lba n) ++ [lba + UInt64.ofNat n] := by
  unfold sectors extent
  simp only
  rw [Nat.mod_eq_of_lt small,Nat.mod_eq_of_lt (by omega),List.range_succ,List.map_append]
  rfl

theorem generateExpands (begun : Begun addr base lba len last k) :
    expand (generateLoop sectp addr base lba len) = sectors (extent lba len) ++ sectp := by
  induction sectp generalizing addr base lba len last k with
  | nil =>
    have := begun.some'
    rw [generateLoop,if_pos (by omega)]
    simp [expand]
  | cons sect sectp ih =>
    rw [generateTurn begun]
    split
    case isTrue goes =>
      have := begun.some'
      obtain ⟨n,rfl⟩ : ∃ n, len = n + 1 := ⟨len - 1,by omega⟩
      have reaches : lba + UInt64.ofNat (n + 1) = sect := by
        rw [goes.1,begun.reaches,Nat.add_sub_cancel,ofNatSucc,UInt64.add_assoc]
      rw [ih (begunMore begun goes.2),expandLast lba (n + 1) (by omega),reaches,List.append_assoc]
      rfl
    case isFalse cut =>
      have starts : (0 : Nat) % 127 = 0 := rfl
      rw [expand,List.flatMap_cons]
      have rest := ih (begunNew begun.aligned starts : Begun _ _ sect 1 _ _)
      rw [expand] at rest
      rw [rest]
      simp [sectors,extent]

theorem generateSmall (begun : Begun addr base lba len last k) : ∀ x ∈ generateLoop sectp addr base lba len, x.len ≤ 127 := by
  induction sectp generalizing addr base lba len last k with
  | nil =>
    have := begun.some'
    rw [generateLoop,if_pos (by omega)]
    intro x mem
    rw [List.mem_singleton.mp mem]
    exact Nat.le_trans (Nat.mod_le _ _) begun.small
  | cons sect sectp ih =>
    rw [generateTurn begun]
    split
    case isTrue goes => exact ih (begunMore begun goes.2)
    case isFalse cut =>
      have starts : (0 : Nat) % 127 = 0 := rfl
      intro x mem
      rcases List.mem_cons.mp mem with rfl | mem
      · exact Nat.le_trans (Nat.mod_le _ _) begun.small
      · exact ih (begunNew begun.aligned starts : Begun _ _ sect 1 _ _) x mem

theorem generateLength (begun : Begun addr base lba len last k) :
    (generateLoop sectp addr base lba len).length = 1 + (placesFrom last k sectp).countP (127 ∣ ·) := by
  induction sectp generalizing addr base lba len last k with
  | nil =>
    have := begun.some'
    rw [generateLoop,if_pos (by omega)]
    rfl
  | cons sect sectp ih =>
    have turn := placeTurn sect begun
    rw [generateTurn begun,placesFrom]
    split
    case isTrue goes =>
      have on := turn.mp goes
      rw [List.countP_cons_of_neg (by simpa using on),if_pos goes.1]
      have next := ih (begunMore begun goes.2)
      rwa [← goes.1] at next
    case isFalse cut =>
      have new := Decidable.not_not.mp (mt turn.mpr cut)
      rw [List.countP_cons_of_pos (by simpa using new),List.length_cons,ih (begunNew begun.aligned (Nat.mod_eq_zero_of_dvd new))]
      omega

/- No extent crosses a page when the sector that is loaded at the start of each page begins one. -/
theorem generateInPage (begun : Begun addr base lba len last k) (aligned : a % sectorSize = 0) :
    (∀ load ∈ loadRest a (generateLoop sectp addr base lba len), InPage load) ↔ a % 65536 + len*sectorSize ≤ 65536 ∧
      ∀ m k', (placesFrom last k sectp)[m]? = some k' → (a + (len + m)*sectorSize) % 65536 = 0 → 127 ∣ k' := by
  have small := begun.small
  have some' := begun.some'
  have length : (extent lba len).len = len := Nat.mod_eq_of_lt (by omega)
  induction sectp generalizing addr base lba len last k a with
  | nil =>
    rw [generateLoop,if_pos (by omega)]
    simp [loadRest,InPage,placesFrom,length]
  | cons sect sectp ih =>
    have turn := placeTurn sect begun
    rw [generateTurn begun,placesFrom]
    -- The places of the list and those behind its first sector.
    have split' (P : Nat → Nat → Prop) (first : Nat) (rest : List Nat) :
        (∀ m k', (first::rest)[m]? = some k' → P m k') ↔ P 0 first ∧ ∀ m k', rest[m]? = some k' → P (m + 1) k' := by
      constructor
      · exact fun all => ⟨all 0 first rfl,fun m k' here => all (m + 1) k' here⟩
      · rintro ⟨here,later⟩ m k' got
        cases m with
        | zero => exact Option.some.inj got ▸ here
        | succ m => exact later m k' got
    simp only [split']
    split
    case isTrue goes =>
      have on := turn.mp goes
      have more := begunMore begun goes.2
      rw [← goes.1] at more
      refine (ih more aligned more.small more.some' (Nat.mod_eq_of_lt (by omega))).trans ?_
      rw [if_pos goes.1] at on ⊢
      simp only [Nat.add_zero,Nat.add_right_comm len 1,Nat.add_assoc len]
      have page : a % 65536 + (len + 1)*sectorSize ≤ 65536 ↔ a % 65536 + len*sectorSize ≤ 65536 ∧ ¬ (a + len*sectorSize) % 65536 = 0 := by
        unfold sectorSize at *
        omega
      rw [page]
      constructor
      · rintro ⟨⟨fits,inside⟩,later⟩
        exact ⟨fits,fun starts => absurd starts inside,later⟩
      · rintro ⟨fits,here,later⟩
        exact ⟨⟨fits,fun starts => on (here starts)⟩,later⟩
    case isFalse cut =>
      have new := Decidable.not_not.mp (mt turn.mpr cut)
      have begins : Begun (add32 addr sectorSize) addr sect 1 sect _ := begunNew begun.aligned (Nat.mod_eq_zero_of_dvd new)
      have aligned' : add32 a (len*sectorSize) % sectorSize = 0 := by
        unfold add32 sectorSize at *
        omega
      have next := ih begins aligned' (by decide) (Nat.le_refl _) rfl
      have first : add32 a (len*sectorSize) % 65536 + 1*sectorSize ≤ 65536 := by
        unfold add32 sectorSize at *
        omega
      have same (m : Nat) : (add32 a (len*sectorSize) + (1 + m)*sectorSize) % 65536 = (a + (len + (m + 1))*sectorSize) % 65536 := by
        unfold add32 sectorSize
        omega
      simp only [same] at next
      rw [loadRest,length]
      refine (List.forall_mem_cons.trans (and_congr_right fun _ => next)).trans ?_
      unfold InPage
      simp only [length]
      constructor
      · rintro ⟨fits,_,later⟩
        exact ⟨fits,fun _ => new,later⟩
      · rintro ⟨fits,_,later⟩
        exact ⟨fits,first,later⟩

theorem pageStart (i : Nat) : (loadAddress + sectorSize + i*sectorSize) % 65536 = 0 ↔ i % 128 = 63 := by
  unfold loadAddress sectorSize
  omega

theorem generateExtentsSound (sectp : List UInt64) (nptrs : Nat) : Sound sectp nptrs (generateExtents sectp) ↔
    (places sectp).countP (127 ∣ ·) ≤ nptrs ∧ ∀ i k, (places sectp)[i]? = some k → i % 128 = 63 → 127 ∣ k := by
  cases sectp with
  | nil => exact iff_of_true ⟨rfl,Nat.zero_le _,by simp [generateExtents,generateLoop],by simp [generateExtents,generateLoop,loadRest]⟩ (by simp [places])
  | cons sect sectp =>
    have begun : Begun (add32 loadAddress sectorSize) loadAddress sect 1 sect 0 := begunNew (by decide) rfl
    have start : generateExtents (sect::sectp) = generateLoop sectp (add32 loadAddress sectorSize) loadAddress sect 1 := by
      rw [generateExtents,generateLoop,if_neg (by simp)]
    have expands := @generateExpands _ _ _ _ _ _ sectp begun
    have length := @generateLength _ _ _ _ _ _ sectp begun
    have inPage := @generateInPage _ _ (loadAddress + sectorSize) _ _ _ _ sectp begun (by decide)
    have count : (places (sect::sectp)).countP (127 ∣ ·) = 1 + (placesFrom sect 0 sectp).countP (127 ∣ ·) := by
      rw [places,List.countP_cons_of_pos (by simp),Nat.add_comm]
    have pages : (∀ i k, (places (sect::sectp))[i]? = some k → i % 128 = 63 → 127 ∣ k) ↔
        ∀ m k, (placesFrom sect 0 sectp)[m]? = some k → (loadAddress + sectorSize + (1 + m)*sectorSize) % 65536 = 0 → 127 ∣ k := by
      simp only [pageStart]
      constructor
      · intro all m k here
        rw [Nat.add_comm 1 m]
        exact all (m + 1) k here
      · intro all i k here
        cases i with
        | zero => exact fun page => absurd page (by decide)
        | succ i =>
          rw [Nat.add_comm i 1]
          exact all i k here
    rw [start,count,← length,pages]
    constructor
    · exact fun sound => ⟨sound.room,(inPage.mp sound.inPage).2⟩
    · rintro ⟨room,starts⟩
      refine ⟨?_,room,fun x mem => ?_,inPage.mpr ⟨by decide,starts⟩⟩
      · rw [expands]
        simp [sectors,extent]
      · have := generateSmall begun x mem
        unfold sectorSize
        omega

/- 64 sectors in a row, behind the first one: the last of them is loaded at 10000h. -/
theorem generateExtentsCrosses : ¬ Sound ((List.range 64).map UInt64.ofNat) 192 (generateExtents ((List.range 64).map UInt64.ofNat)) := by
  intro sound
  have one : generateExtents ((List.range 64).map UInt64.ofNat) = [⟨0,64⟩] := by decide
  have inPage := sound.inPage
  rw [one] at inPage
  exact absurd (inPage _ (List.mem_singleton_self _)) (by decide)

end
end Syslinux.Extents
