import Syslinux.FatSlots
import Syslinux.Walk

/-! When the loops over a directory come to their end: the walk of vfat_find_entry along the
sectors, and the calls of vfat_readdir one after the other. -/
namespace Syslinux.FatDir
open Searchdir (Bytes slash dot)
open Scan (Turn Outcome scan turns Ahead)

def FatFs.sectorBehind (fs : FatFs) (sector : Nat) : Option Nat :=
  let next := getNextSector fs sector
  if next = 0 then none else some next

def FindReturns (fs : FatFs) (stack : Nat → Nat) (dname : Bytes) (start : Nat) : Prop :=
  ∃ fuel r, vfatFindEntry fs stack dname start fuel = some r ∧ r ≠ .fault

def EndMarked (fs : FatFs) (start : Nat) : Prop :=
  ∃ es k, Ahead fs.entry fs.advance (fs.sectorStart start) es (.ok k) ∧ (fs.entry k) 0 = 0

/- Calls one after the other, until one returns -1. -/
def listing (fs : FatFs) (stack : Nat → Nat → Nat) (fuel : Nat) : Nat → DirFile → Unicache → Option (List Dirent)
  | 0,_,_ => none
  | calls+1,file,unicache =>
      match vfatReaddir fs (stack calls) unicache file fuel with
      | some (.done none _ _) => some []
      | some (.done (some dirent) file unicache) => do
          let rest ← listing fs stack fuel calls file unicache
          some (dirent::rest)
      | _ => none

def ListingEnds (fs : FatFs) (stack : Nat → Nat → Nat) (unicache : Unicache) (file : DirFile) : Prop :=
  ∃ fuel calls dirents, listing fs stack fuel calls file unicache = some dirents

def openDir (start : Nat) : DirFile := ⟨start,0,start,0⟩

def FatFs.readOpened (fs : FatFs) (start : Nat) : Except ReadCursor ReadCursor :=
  .ok ⟨openDir start,0,fs.perSector - 1⟩

/- A directory that has its end in the first 2^32 bytes: at an end mark, or where the sectors
end behind an entry that is not listed. -/
inductive EndsAt (fs : FatFs) (es : List DirEntry) : Except ReadCursor ReadCursor → Prop where
  | mark (k : ReadCursor) (zero : (fs.readEntry k) 0 = 0) (inside : 32*es.length < 2^32) : EndsAt fs es (.ok k)
  | sectors (k : ReadCursor) (last : ∀ de ∈ es.getLast?, de.Unlisted) (inside : 32*es.length ≤ 2^32) : EndsAt fs es (.error k)

def DirectoryEnds (fs : FatFs) (start : Nat) : Prop :=
  ∃ es at', Ahead fs.readEntry fs.readAdvance (fs.readOpened start) es at' ∧ EndsAt fs es at' ∧ ∀ de ∈ es, ¬de.SlotZero

section
variable {fs : FatFs} {sector start de left : Nat}

theorem sectorAhead : ∃ es, Ahead fs.entry fs.advance (.ok ⟨sector,de,left⟩) es (fs.sectorStart (getNextSector fs sector)) := by
  induction left generalizing de with
  | zero =>
    have last : fs.advance ⟨sector,de,0⟩ = fs.sectorStart (getNextSector fs sector) := if_pos rfl
    refine ⟨[fs.entry ⟨sector,de,0⟩],.cons ?_⟩
    rw [last]
    exact .nil _
  | succ left ih =>
    obtain ⟨es,ahead⟩ := @ih (de + 32)
    have next : fs.advance ⟨sector,de,left + 1⟩ = .ok ⟨sector,de + 32,left⟩ := if_neg (by simp)
    refine ⟨fs.entry ⟨sector,de,left + 1⟩::es,.cons ?_⟩
    rw [next]
    exact ahead

theorem endsAhead (used : start ≠ 0) (ends : Walk.Ends fs.sectorBehind start) :
    ∃ es k, Ahead fs.entry fs.advance (fs.sectorStart start) es (.error k) := by
  obtain ⟨n,over'⟩ := ends
  induction n generalizing start with
  | zero => contradiction
  | succ n ih =>
    obtain ⟨es,ahead⟩ := @sectorAhead fs start 0 (fs.perSector - 1)
    have here : fs.sectorStart start = .ok ⟨start,0,fs.perSector - 1⟩ := if_neg used
    rw [here]
    by_cases last : getNextSector fs start = 0
    · have stop : fs.sectorStart (getNextSector fs start) = .error ⟨getNextSector fs start,0,fs.perSector - 1⟩ := if_pos last
      rw [stop] at ahead
      exact ⟨es,_,ahead⟩
    · have next : fs.sectorBehind start = some (getNextSector fs start) := if_neg last
      obtain ⟨es',k,ahead'⟩ := ih last (by rw [← Walk.stateNext next]; exact over')
      exact ⟨es ++ es',k,Scan.aheadAppend ahead ahead'⟩

theorem nextSectorSmall (fs : FatFs) (sector : Nat) : getNextSector fs sector < 2^32 := by
  unfold getNextSector
  simp only
  split
  · split
    · omega
    · exact Nat.mod_lt _ (by omega)
  · split
    · exact Nat.mod_lt _ (by omega)
    · split
      · omega
      · exact Nat.mod_lt _ (by omega)

/- Sectors behind the first have 32-bit numbers, so a walk that never comes back is over. -/
theorem distinctEnds (distinct : Walk.NoRepeat fs.sectorBehind start) : Walk.Ends fs.sectorBehind start := by
  have finite : (insert start {sector | sector < 2^32} : Set Nat).Finite := (Set.finite_lt_nat _).insert start
  refine Walk.noRepeatEnds finite (fun n sector here => ?_) distinct
  cases n with
  | zero =>
    cases here
    exact Set.mem_insert _ _
  | succ n =>
    obtain ⟨before,_,step⟩ := Option.bind_eq_some_iff.mp here
    refine Set.mem_insert_of_mem _ ?_
    unfold FatFs.sectorBehind at step
    simp only at step
    split at step
    · contradiction
    · cases step
      exact nextSectorSmall fs before

theorem findTurnMark (codepage : Codepage) (dname mangledName : Bytes) (vfatInit : Nat) (l : FindLocals) {de : DirEntry}
    (mark : de 0 = 0) : findTurn codepage dname mangledName vfatInit l de = .stop false := if_pos mark

theorem findReturns (nul : fs.codepage.NulIsNul) (stack : Nat → Nat) (dname : Bytes)
    (ends : Walk.NoRepeat fs.sectorBehind start ∨ EndMarked fs start) (slots : dname = [] → ¬FindReachesSlotZero fs start) :
    FindReturns fs stack dname start := by
  have right := ((chunksInside fs stack nul).1 dname start).mpr slots
  suffices stops : ∃ fuel, vfatFindEntry fs stack dname start fuel ≠ none by
    obtain ⟨fuel,some'⟩ := stops
    obtain ⟨r,result⟩ := Option.ne_none_iff_exists'.mp some'
    exact ⟨fuel,r,result,fun fault => right fuel (fault ▸ result)⟩
  unfold vfatFindEntry
  by_cases tooLong : 20 < (dname.length + 12) / 13
  · exact ⟨0,by simp [tooLong]⟩
  simp only [if_neg tooLong,ne_eq,Option.map_eq_none_iff]
  by_cases used : start = 0
  · exact ⟨0,by simp [FatFs.sectorStart,used,scan]⟩
  rcases ends with distinct | ⟨es,k,ahead,mark⟩
  · obtain ⟨es,k,ahead⟩ := endsAhead used (distinctEnds distinct)
    exact ⟨es.length,Scan.scanToEnd ahead _⟩
  · exact ⟨es.length + 1,Scan.scanToStop ahead (fun l => ⟨false,findTurnMark _ _ _ _ l mark⟩) _⟩

end

/- A cursor of vfat_readdir that is where the offset of the directory says. -/
structure Placed (fs : FatFs) (k : ReadCursor) : Prop where
  small : k.file.offset < 2^32
  sector : k.file.pvtOffset = k.file.offset / 2^fs.vol.sectorShift
  de : k.de = k.file.offset % 2^fs.vol.sectorShift
  left : k.de + 32*(k.left + 1) = 2^fs.vol.sectorShift

section
variable {fs : FatFs} (large : 9 ≤ fs.vol.sectorShift)
include large

theorem perSectorEq : 32*fs.perSector = 2^fs.vol.sectorShift := by
  unfold FatFs.perSector
  rw [show (32 : Nat) = 2^5 by rfl,← Nat.pow_add]
  congr 1
  omega

omit large in
theorem rightSectorSame {file : DirFile} (small : file.pvtOffset < 2^32)
    (same : file.offset / 2^fs.vol.sectorShift = file.pvtOffset) : getTheRightSector fs file = file := by
  unfold getTheRightSector
  simp only [same,Nat.lt_irrefl,if_false,Nat.mod_eq_of_lt small,Nat.sub_self,seekSector]

omit large in
theorem rightSectorNext {file : DirFile} (small : file.pvtOffset < 2^32)
    (next : file.offset / 2^fs.vol.sectorShift = file.pvtOffset + 1) : getTheRightSector fs file = nextSector fs file := by
  have behind : ¬file.pvtOffset + 1 < file.pvtOffset := by omega
  unfold getTheRightSector nextSector
  simp only [next,behind,if_false,Nat.mod_eq_of_lt small,Nat.add_sub_cancel_left,seekSector,
    Nat.mod_eq_of_lt (show file.pvtOffset + 1 < 2^64 by omega)]

omit large in
theorem readStartEq {file : DirFile} {n : Nat}
    (entries : (2^fs.vol.sectorShift - file.offset % 2^fs.vol.sectorShift) / 32 = n + 1) :
    fs.readStart file = .ok ⟨getTheRightSector fs file,file.offset % 2^fs.vol.sectorShift,n⟩ := by
  unfold FatFs.readStart
  simp only [entries,Nat.succ_ne_zero,if_false,Nat.add_sub_cancel]

/- A call starts where the cursor of the one before would have gone on, as long as there
is a sector to go on in. -/
theorem placedAdvance {k k' : ReadCursor} (placed : Placed fs k) (next : fs.readAdvance k = .ok k')
    (room : k.file.offset + 32 < 2^32) :
    Placed fs k' ∧ k'.file.offset = k.file.offset + 32 ∧
      fs.readStart { k.file with offset := add32 k.file.offset 32 } = .ok k' := by
  obtain ⟨⟨start,pvtOffset,here,offset⟩,de,left⟩ := k
  obtain ⟨small,sector,deEq,leftEq⟩ := placed
  have per := perSectorEq large
  have positive : 0 < 2^fs.vol.sectorShift := Nat.two_pow_pos _
  have whole : 2^fs.vol.sectorShift*(offset / 2^fs.vol.sectorShift) + offset % 2^fs.vol.sectorShift = offset :=
    Nat.div_add_mod offset _
  simp only at small sector deEq leftEq room
  have less : pvtOffset ≤ offset := sector ▸ Nat.div_le_self _ _
  rw [← sector,← deEq] at whole
  unfold FatFs.readAdvance at next
  simp only [add32Eq room] at next ⊢
  by_cases last : left = 0
  · -- The entry was the last of its sector.
    have offset' : offset + 32 = 2^fs.vol.sectorShift*(pvtOffset + 1) := by
      rw [Nat.mul_add,← whole]
      omega
    have pos' : (offset + 32) / 2^fs.vol.sectorShift = pvtOffset + 1 := by rw [offset',Nat.mul_div_cancel_left _ positive]
    have de' : (offset + 32) % 2^fs.vol.sectorShift = 0 := by rw [offset',Nat.mul_mod_right]
    rw [if_pos last] at next
    unfold FatFs.readSector at next
    simp only at next
    split at next
    · contradiction
    · cases next
      refine ⟨⟨room,?_,de'.symm,by simp only; omega⟩,rfl,?_⟩
      · simp only [nextSector,pos']
        omega
      · rw [readStartEq (n := fs.perSector - 1) (by simp only [de']; omega),rightSectorNext (by simp only; omega) pos',de']
  · have bound : de + 32 < 2^fs.vol.sectorShift := by omega
    have offset' : offset + 32 = 2^fs.vol.sectorShift*pvtOffset + (de + 32) := by omega
    have pos' : (offset + 32) / 2^fs.vol.sectorShift = pvtOffset := by
      rw [offset',Nat.mul_add_div positive,Nat.div_eq_of_lt bound,Nat.add_zero]
    have de' : (offset + 32) % 2^fs.vol.sectorShift = de + 32 := by rw [offset',Nat.mul_add_mod,Nat.mod_eq_of_lt bound]
    rw [if_neg last] at next
    cases next
    refine ⟨⟨room,pos'.symm,de'.symm,by simp only; omega⟩,rfl,?_⟩
    rw [readStartEq (n := left - 1) (by simp only [de']; omega),rightSectorSame (by simp only; omega) pos',de']

theorem placedOpened (start : Nat) :
    fs.readStart (openDir start) = fs.readOpened start ∧ Placed fs ⟨openDir start,0,fs.perSector - 1⟩ := by
  have per := perSectorEq large
  have positive : 0 < 2^fs.vol.sectorShift := Nat.two_pow_pos _
  have none' : (openDir start).offset % 2^fs.vol.sectorShift = 0 := Nat.zero_mod _
  have first : (openDir start).offset / 2^fs.vol.sectorShift = 0 := Nat.zero_div _
  constructor
  · rw [readStartEq (n := fs.perSector - 1) (by rw [none']; omega),rightSectorSame (by simp [openDir]) first,none']
    rfl
  · exact ⟨by simp [openDir],first.symm,none'.symm,by simp only; omega⟩

theorem placedAhead {k k' : ReadCursor} {es : List DirEntry} (placed : Placed fs k)
    (ahead : Ahead fs.readEntry fs.readAdvance (.ok k) es (.ok k')) (room : k.file.offset + 32*es.length < 2^32) :
    Placed fs k' ∧ k'.file.offset = k.file.offset + 32*es.length := by
  induction es generalizing k with
  | nil =>
    cases ahead
    exact ⟨placed,rfl⟩
  | cons e es ih =>
    cases ahead with
    | cons tail =>
      rw [List.length_cons] at room
      cases next : fs.readAdvance k with
      | error c =>
        rw [next] at tail
        cases tail
      | ok c =>
        rw [next] at tail
        obtain ⟨placed',offset,_⟩ := placedAdvance large placed next (by omega)
        obtain ⟨last,offset'⟩ := ih placed' tail (by omega)
        exact ⟨last,by rw [offset',offset,List.length_cons]; omega⟩

end

structure Remaining (fs : FatFs) (file : DirFile) (es : List DirEntry) (at' : Except ReadCursor ReadCursor) where
  cursor : ReadCursor
  start : fs.readStart file = .ok cursor
  placed : Placed fs cursor
  ahead : Ahead fs.readEntry fs.readAdvance (.ok cursor) es at'
  room : cursor.file.offset + 32*es.length ≤ 2^32
  inside : ∀ k, at' = .ok k → cursor.file.offset + 32*es.length < 2^32

def GoesOn (es : List DirEntry) (at' : Except ReadCursor ReadCursor) : Prop := es ≠ [] ∨ ∃ k, at' = .ok k

section
variable {fs : FatFs} {file : DirFile} {es before behind : List DirEntry} {e : DirEntry}
variable {at' : Except ReadCursor ReadCursor} {stack : Nat → Nat} {unicache : Unicache} {l l' : ReadLocals}

theorem remainingCut (remaining : Remaining fs file (before ++ e::behind) at') :
    ∃ c, fs.readEntry c = e ∧ Ahead fs.readEntry fs.readAdvance (fs.readAdvance c) behind at' ∧
      Nonempty (Remaining fs file before (.ok c)) := by
  obtain ⟨k,start,placed,ahead,room,_⟩ := remaining
  obtain ⟨at₁,first,second⟩ := Scan.aheadCut ahead
  rw [List.length_append,List.length_cons] at room
  cases second with
  | @cons c _ _ tail => exact ⟨c,rfl,tail,⟨k,start,placed,first,by omega,fun _ _ => by omega⟩⟩

/- A call that returns an entry, and where it leaves the directory. -/
theorem callListed (large : 9 ≤ fs.vol.sectorShift) (remaining : Remaining fs file (before ++ e::behind) at')
    (through : turns (readTurn fs.codepage) (readLocals stack unicache) before = .next l)
    (stop : readTurn fs.codepage l e = .stop (l',true)) :
    ∃ offset file', (∀ fuel, before.length < fuel →
        vfatReaddir fs stack unicache file fuel = some (.done (some (direntOf l' offset e)) file' l'.unicache)) ∧
      (GoesOn behind at' → Nonempty (Remaining fs file' behind at')) := by
  obtain ⟨c,rfl,tail,⟨k,start,placed,first,short,_⟩⟩ := remainingCut remaining
  obtain ⟨k',start',_,_,room,inside⟩ := remaining
  cases start.symm.trans start'
  rw [List.length_append,List.length_cons] at room inside
  refine ⟨c.file.offset,{ c.file with offset := add32 c.file.offset 32 },?_,?_⟩
  · intro fuel enough
    obtain ⟨more,rfl⟩ : ∃ m, fuel = before.length + (m + 1) := ⟨fuel - before.length - 1,by omega⟩
    unfold vfatReaddir
    rw [start,Scan.scanStop first through stop more]
    rfl
  · intro goesOn
    obtain ⟨placed',offset⟩ := placedAhead large placed first (by omega)
    cases next : fs.readAdvance c with
    | error c' =>
      rw [next] at tail
      cases tail
      rcases goesOn with some' | ⟨k',ok⟩
      · contradiction
      · contradiction
    | ok c' =>
      rw [next] at tail
      have room' : c.file.offset + 32 < 2^32 := by
        cases behind with
        | nil =>
          cases tail
          have := inside c' rfl
          simp only [List.length_nil] at this
          omega
        | cons =>
          rw [List.length_cons] at room
          omega
      obtain ⟨placed'',offset',start'⟩ := placedAdvance large placed' next room'
      refine ⟨c',start',placed'',tail,by omega,fun k' ok => ?_⟩
      have := inside k' ok
      omega

theorem callEnded (remaining : Remaining fs file es at')
    (through : turns (readTurn fs.codepage) (readLocals stack unicache) es = .next l)
    (end' : ∀ k, at' = .ok k → (fs.readEntry k) 0 = 0) {fuel : Nat} (enough : es.length < fuel) :
    ∃ file', vfatReaddir fs stack unicache file fuel = some (.done none file' l.unicache) := by
  obtain ⟨k,start,_,ahead,_,_⟩ := remaining
  obtain ⟨more,rfl⟩ : ∃ m, fuel = es.length + (m + 1) := ⟨fuel - es.length - 1,by omega⟩
  unfold vfatReaddir
  rw [start]
  cases at' with
  | error c =>
    rw [Scan.scanEnd ahead through]
    exact ⟨c.file,rfl⟩
  | ok c =>
    have stop : readTurn fs.codepage l (fs.readEntry c) = .stop (l,false) := if_pos (end' c rfl)
    rw [Scan.scanStop ahead through stop]
    exact ⟨c.file,rfl⟩

theorem readTurnListed (codepage : Codepage) (l : ReadLocals) (used : e 0 ≠ 0) (listed : ¬e.Unlisted) :
    ∃ l', readTurn codepage l e = .stop (l',true) := by
  have kept : e 0 ≠ deleted := fun gone => listed ⟨used,.inl gone⟩
  have short : e.isLong ≠ true := fun long => listed ⟨used,.inr (.inl long)⟩
  have file : e.isVolume ≠ true := fun volume => listed ⟨used,.inr (.inr volume)⟩
  unfold readTurn
  rw [if_neg used,if_neg kept,if_neg short,if_neg file]
  split
  · exact ⟨_,rfl⟩
  · exact ⟨_,rfl⟩

theorem readTurnPasses (codepage : Codepage) (l : ReadLocals) (e : DirEntry) (inv : ReadSlots l)
    (passed : e.Unlisted ∧ ¬e.SlotZero) : ∃ l', readTurn codepage l e = .next l' ∧ ReadSlots l' :=
  (readTurnInside inv passed.2).1 passed.1

/- The calls from some place in a directory on, by induction on the entries ahead. -/
theorem callsEnd (large : 9 ≤ fs.vol.sectorShift) (stack : Nat → Nat → Nat) (fuel calls : Nat) (unicache : Unicache)
    (remaining : Remaining fs file es at') (mark : ∀ k, at' = .ok k → (fs.readEntry k) 0 = 0)
    (last : ∀ k, at' = .error k → ∀ de ∈ es.getLast?, de.Unlisted) (right : ∀ de ∈ es, ¬de.SlotZero)
    (turns' : es.length < fuel) (enough : es.length < calls) :
    ∃ dirents, listing fs stack fuel calls file unicache = some dirents := by
  induction calls generalizing es file unicache with
  | zero => omega
  | succ calls ih =>
    have start : ReadSlots (readLocals (stack calls) unicache) := ⟨rfl,.inl rfl⟩
    unfold listing
    rcases Scan.firstNotPassed DirEntry.Unlisted es with all | ⟨before,e,behind,rfl,all,stop⟩
    · obtain ⟨l,through,_⟩ := Scan.turnsPass (readTurnPasses fs.codepage) start fun de mem => ⟨all de mem,right de mem⟩
      obtain ⟨file',call⟩ := callEnded remaining through mark turns'
      rw [call]
      exact ⟨[],rfl⟩
    obtain ⟨l,through,_⟩ := Scan.turnsPass (readTurnPasses fs.codepage) start fun de mem =>
      ⟨all de mem,right de (List.mem_append_left _ mem)⟩
    rw [List.length_append,List.length_cons] at turns' enough
    by_cases used : e 0 = 0
    · obtain ⟨c,here,_,⟨remaining'⟩⟩ := remainingCut remaining
      have mark' : ∀ k, (Except.ok c : Except ReadCursor ReadCursor) = .ok k → (fs.readEntry k) 0 = 0 := by
        intro k same
        cases same
        rw [here]
        exact used
      obtain ⟨file',call⟩ := callEnded remaining' through mark' (show before.length < fuel by omega)
      rw [call]
      exact ⟨[],rfl⟩
    obtain ⟨l',stop'⟩ := readTurnListed fs.codepage l used stop
    obtain ⟨offset,file',call,leaves⟩ := callListed large remaining through stop'
    have goesOn : GoesOn behind at' := by
      cases behind with
      | cons => exact .inl (by simp)
      | nil =>
        cases at' with
        | ok k => exact .inr ⟨k,rfl⟩
        | error k => exact absurd (last k rfl e (by simp)) stop
    obtain ⟨remaining'⟩ := leaves goesOn
    have last' : ∀ k, at' = .error k → ∀ de ∈ behind.getLast?, de.Unlisted := by
      intro k over' de mem
      refine last k over' de ?_
      cases behind with
      | nil => simp at mem
      | cons => simpa using mem
    have right' : ∀ de ∈ behind, ¬de.SlotZero := fun de mem => right de (by simp [mem])
    obtain ⟨dirents,rest⟩ := ih l'.unicache remaining' last' right' (by omega) (by omega)
    rw [call fuel (by omega)]
    simp only [rest,bind,Option.bind]
    exact ⟨_,rfl⟩

theorem listingEnds (large : 9 ≤ fs.vol.sectorShift) (stack : Nat → Nat → Nat) (unicache : Unicache) {start : Nat}
    (ends : DirectoryEnds fs start) : ListingEnds fs stack unicache (openDir start) := by
  obtain ⟨es,at',ahead,ends,right⟩ := ends
  obtain ⟨opened,placed⟩ := placedOpened large start
  have zero : (openDir start).offset = 0 := rfl
  cases ends with
  | mark k mark inside =>
    have remaining : Remaining fs (openDir start) es (.ok k) :=
      ⟨_,opened,placed,ahead,by rw [zero]; omega,fun _ _ => by rw [zero]; omega⟩
    refine ⟨es.length + 1,es.length + 1,callsEnd large stack _ _ unicache remaining ?_ ?_ right (by omega) (by omega)⟩
    · intro k' same
      cases same
      exact mark
    · intro k' same
      contradiction
  | sectors k last inside =>
    have remaining : Remaining fs (openDir start) es (.error k) :=
      ⟨_,opened,placed,ahead,by rw [zero]; omega,fun _ same => by contradiction⟩
    refine ⟨es.length + 1,es.length + 1,callsEnd large stack _ _ unicache remaining ?_ ?_ right (by omega) (by omega)⟩
    · intro k' same
      contradiction
    · intro k' _
      exact last

end

/- Search and listing, for every contents of the disk and every directory on it. -/
theorem directoriesEnd (fs : FatFs) (large : 9 ≤ fs.vol.sectorShift) (nul : fs.codepage.NulIsNul) (start : Nat) :
    (Walk.NoRepeat fs.sectorBehind start ∨ EndMarked fs start → ∀ stack dname,
      (dname = [] → ¬FindReachesSlotZero fs start) → FindReturns fs stack dname start) ∧
    (DirectoryEnds fs start → ∀ stack unicache, ListingEnds fs stack unicache (openDir start)) :=
  ⟨fun ends stack dname slots => findReturns nul stack dname ends slots,
    fun ends stack unicache => listingEnds large stack unicache ends⟩

/- A root directory with one file, ABCDEFGH.IJK. -/
def smallEntry (i : Nat) : UInt8 := ([65,66,67,68,69,70,71,72,73,74,75,0x20] : List UInt8).getD i 0
def smallDisk (sector i : Nat) : UInt8 := if sector = 2 then smallEntry i else 0
def smallFs : FatFs := ⟨⟨9,1,2,3,10,1,0,.fat12,smallDisk⟩,0,0,plainCodepage⟩

theorem directoriesEndSmall : FindReturns smallFs (fun _ => 0) [97] 2 ∧
    ListingEnds smallFs (fun _ _ => 0) (fun _ => (0,0)) (openDir 2) := by
  have both := directoriesEnd smallFs (by decide) plainNul 2
  refine ⟨both.1 (.inr ⟨[smallFs.entry ⟨2,0,15⟩],⟨2,32,14⟩,.cons (.nil _),by decide⟩) _ _ (by simp),both.2 ?_ _ _⟩
  refine ⟨[smallFs.readEntry ⟨openDir 2,0,15⟩],_,.cons (.nil _),.mark ⟨⟨2,0,2,32⟩,32,14⟩ (by decide) (by decide),?_⟩
  intro de mem
  cases List.mem_singleton.mp mem
  rintro ⟨long,_⟩
  contradiction

/- A volume with ten clusters of one sector, of which the first is followed by itself, and
nothing but deleted entries. -/
def loopBpb : Fat.Bpb := ⟨1,1,1,16,13,1,0,0,0,0⟩

def loopDisk (sector i : Nat) : UInt8 := if sector = 1 then if i = 3 then 2 else 0 else deleted

def loopVolume : Fat.Volume := ⟨9,1,2,3,10,1,0,.fat12,loopDisk⟩

def looped : FatFs := ⟨loopVolume,0,0,plainCodepage⟩

theorem loopBack : getNextSector looped 3 = 3 := by decide

theorem loopAdvance (c : Cursor) (here : c.sector = 3) : ∃ c', looped.advance c = .ok c' ∧ c'.sector = 3 := by
  unfold FatFs.advance
  split
  · rw [here,loopBack]
    exact ⟨_,rfl,rfl⟩
  · exact ⟨_,rfl,here⟩

theorem loopForever (fuel : Nat) (c : Cursor) (here : c.sector = 3) (l : FindLocals) (none' : l.longMatch = false) :
    scan looped.entry looped.advance (findTurn plainCodepage [97] (mangleDosName plainCodepage [97]) 0x41) fuel (.ok c) l =
      none := by
  induction fuel generalizing c l with
  | zero => rfl
  | succ fuel ih =>
    have entry : looped.entry c = fun _ => deleted := by
      funext k
      unfold FatFs.entry FatFs.entryAt
      rw [here]
      rfl
    have turn : findTurn plainCodepage [97] (mangleDosName plainCodepage [97]) 0x41 l (fun _ => deleted) =
        .next (l.notMatch 0x41) := by
      unfold findTurn
      rw [if_neg (by decide),if_neg (by decide),if_neg (by decide),none',if_neg (by decide),if_neg (by decide)]
    obtain ⟨c',next,here'⟩ := loopAdvance c here
    simp only [scan,entry,turn,next]
    exact ih c' here' _ rfl

theorem directoriesLoop : Fat.vfatFsInit 9 loopDisk loopBpb = some loopVolume ∧
    ¬((∀ stack dname start, FindReturns looped stack dname start) ∧
      ∀ stack unicache start, ListingEnds looped stack unicache (openDir start)) := by
  refine ⟨rfl,?_⟩
  rintro ⟨returns,_⟩
  obtain ⟨fuel,r,found,_⟩ := returns (fun _ => 0) [97] 3
  have forever : vfatFindEntry looped (fun _ => 0) [97] 3 fuel = none := by
    unfold vfatFindEntry
    simp only
    rw [if_neg (by decide),Option.map_eq_none_iff]
    exact loopForever fuel ⟨3,0,15⟩ rfl (findLocals (fun _ => 0) 0x41) rfl
  rw [forever] at found
  contradiction

end Syslinux.FatDir
