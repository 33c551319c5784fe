import Syslinux.FatDir

/-! The buffers for long names in vfat_find_entry and vfat_readdir: which numbers of slots
get as far as copy_long_chunk, and when one is copied to a place outside. -/
namespace Syslinux.FatDir
open Searchdir (Bytes slash dot)
open Scan (Turn Outcome scan Ahead)

/- In the tables that the build makes, NUL stands for NUL in both rows. -/
structure Codepage.NulIsNul (codepage : Codepage) : Prop where
  first : codepage.uni 0 = 0
  second : codepage.uni 256 = 0

/- A first slot with the number 0. -/
def DirEntry.SlotZero (de : DirEntry) : Prop := de.isLong = true ∧ de.id / 0x40 % 2 = 1 ∧ de.id % 0x40 = 0

/- What vfat_readdir passes over: all but the end of the directory and what it returns. -/
def DirEntry.Unlisted (de : DirEntry) : Prop :=
  de 0 ≠ 0 ∧ (de 0 = deleted ∨ de.isLong = true ∨ de.isVolume = true)

/- What vfat_find_entry passes over when it looks for the empty name. -/
def DirEntry.Named (de : DirEntry) : Prop :=
  de 0 ≠ 0 ∧ (de.isLong = true ∨ de.isVolume = true ∨ de.name ≠ List.replicate 11 space)

def ReaddirReachesSlotZero (fs : FatFs) (file : DirFile) : Prop :=
  ∃ es k, Ahead fs.readEntry fs.readAdvance (fs.readStart file) es (.ok k) ∧
    (∀ de ∈ es, de.Unlisted ∧ ¬de.SlotZero) ∧ (fs.readEntry k).SlotZero

def FindReachesSlotZero (fs : FatFs) (start : Nat) : Prop :=
  ∃ es k, Ahead fs.entry fs.advance (fs.sectorStart start) es (.ok k) ∧
    (∀ de ∈ es, de.Named ∧ ¬(de.isLong = true ∧ de.id = 0x40)) ∧
    (fs.entry k).isLong = true ∧ (fs.entry k).id = 0x40

section
variable {codepage : Codepage} {buf buf' : Units} {i len id : Nat} {de : DirEntry}

theorem copyInside (room : i + 13 ≤ buf.size) :
    ∃ buf', copyLongChunk buf i de = some buf' ∧ buf'.size = buf.size ∧
      ∀ k, k < i ∨ i + 13 ≤ k → buf'.unit k = buf.unit k := by
  unfold copyLongChunk
  rw [if_pos room]
  refine ⟨_,rfl,rfl,?_⟩
  intro k apart
  simp only
  rw [if_neg (by omega)]

theorem copyOutside (over' : buf.size < i + 13) : copyLongChunk buf i de = none := by
  unfold copyLongChunk
  rw [if_neg (by omega)]

theorem paddingReads (inside : i + len ≤ buf.size) : padding buf i len ≠ none := by
  induction len generalizing i with
  | zero => simp [padding]
  | succ len ih =>
    have here : buf.read i = some (buf.unit i) := if_pos (by omega)
    simp only [padding,here,bind,Option.bind]
    split
    · simp
    · exact ih (by omega)

theorem matchEndReads (inside : i + len ≤ buf.size) (str : Bytes) : matchEnd buf i len (str ++ [0]) ≠ none := by
  cases str with
  | nil => simpa [matchEnd] using paddingReads inside
  | cons c str =>
    simp only [List.cons_append,matchEnd]
    split
    · simp
    · exact paddingReads inside

theorem matchReads (nul : codepage.NulIsNul) (inside : i + len ≤ buf.size) (str : Bytes) :
    matchLoop codepage buf i len (str ++ [0]) ≠ none := by
  induction len generalizing i str with
  | zero => exact matchEndReads inside str
  | succ len ih =>
    have here : buf.read i = some (buf.unit i) := if_pos (by omega)
    simp only [matchLoop,here,bind,Option.bind]
    split
    · exact matchEndReads (by omega) str
    · rename_i unit
      cases str with
      | nil =>
        have other : buf.unit i ≠ codepage.uni 0 ∧ buf.unit i ≠ codepage.uni 256 := by
          rw [nul.first,nul.second]
          exact ⟨unit,unit⟩
        simp [other]
      | cons c str =>
        simp only [List.cons_append]
        split
        · simp
        · exact ih (by omega) str

theorem cvtReads (units : List Nat) (nul : 0 ∈ units) (unicache : Unicache) (p : Bytes) :
    cvtLoop codepage units unicache p ≠ none := by
  induction units generalizing unicache p with
  | nil => contradiction
  | cons cp units ih =>
    simp only [cvtLoop]
    split
    · simp
    · split
      · simp
      · rename_i other
        exact ih ((List.mem_cons.mp nul).resolve_left (Ne.symm other)) _ _

end

/- Lookup, with the slots of a name that is not empty: the slot expected is the first of the
name, or it has a number below that of the one before. -/
structure FindSlots (vfatInit : Nat) (l : FindLocals) : Prop where
  size : l.longName.size = 260
  expected : l.vfatNext = vfatInit ∨ l.vfatNext < 20 ∧ l.longLen ≤ 260

/- Listing: the first slot of a name has been read, and behind its slots the buffer is zero;
or no slot but a first one is admitted. -/
structure ReadSlots (l : ReadLocals) : Prop where
  size : l.longName.size = 261
  expected : l.vfatNext = 0xff ∨ l.vfatNext < 19 ∧ l.longName.unit 260 = 0

section
variable {codepage : Codepage} {dname mangledName : Bytes} {vfatInit id : Nat} {de : DirEntry}

theorem idNotZero (used : de 0 ≠ 0) : de.id ≠ 0 := by
  intro zero
  exact used (UInt8.toNat_inj.mp zero)

theorem findNotMatch {l : FindLocals} (slots : FindSlots vfatInit l) : FindSlots vfatInit (l.notMatch vfatInit) :=
  ⟨slots.size,.inl rfl⟩

theorem findSlotInside (nul : codepage.NulIsNul) {l : FindLocals} (size : l.longName.size = 260) (len : l.longLen ≤ 260)
    (number : 0 < id ∧ id ≤ 20) : ∃ l', findSlot codepage dname vfatInit l id de = .next l' ∧ FindSlots vfatInit l' := by
  have less : (id + 255) % 256 = id - 1 := by omega
  obtain ⟨buf,copied,same,_⟩ := @copyInside l.longName ((id - 1)*13) de (by omega)
  have size' : buf.size = 260 := same.trans size
  have reads := matchReads nul (show 0 + l.longLen ≤ buf.size by omega) dname
  unfold findSlot
  simp only [less,copied]
  by_cases last : id - 1 = 0
  · rw [if_neg (by omega)]
    cases matched : vfatMatchLongname codepage dname buf l.longLen with
    | none => exact absurd matched reads
    | some found =>
      cases found with
      | false => exact ⟨_,rfl,size',.inl rfl⟩
      | true => exact ⟨_,rfl,size',.inr ⟨by simp only; omega,len⟩⟩
  · rw [if_pos last]
    exact ⟨_,rfl,size',.inr ⟨by simp only; omega,len⟩⟩

theorem findSlotOutside {l : FindLocals} (size : l.longName.size = 260) (zero : id = 0) :
    findSlot codepage dname vfatInit l id de = .fault := by
  unfold findSlot
  simp only [zero]
  rw [copyOutside]
  omega

theorem findTurnInside (nul : codepage.NulIsNul) {slots : Nat} (some' : 0 < slots ∧ slots ≤ 20) {l : FindLocals}
    (inv : FindSlots (slots + 0x40) l) :
    (∃ r, findTurn codepage dname mangledName (slots + 0x40) l de = .stop r) ∨
      ∃ l', findTurn codepage dname mangledName (slots + 0x40) l de = .next l' ∧ FindSlots (slots + 0x40) l' := by
  unfold findTurn
  by_cases used : de 0 = 0
  · exact .inl ⟨false,if_pos used⟩
  rw [if_neg used]
  by_cases long : de.isLong = true
  · rw [if_pos long]
    have positive := idNotZero used
    by_cases next : de.id = l.vfatNext
    · simp only [next,ne_eq,not_true_eq_false,if_false]
      by_cases first : l.vfatNext / 0x40 % 2 = 1
      · have number : l.vfatNext = slots + 0x40 := by
          rcases inv.expected with same | ⟨less,_⟩
          · exact same
          · omega
        rw [if_pos first]
        exact .inr (findSlotInside nul inv.size (by simp only; omega) (by omega))
      · rw [if_neg first]
        have less : l.vfatNext < 20 ∧ l.longLen ≤ 260 := by
          rcases inv.expected with same | less
          · omega
          · exact less
        split
        · exact .inr ⟨_,rfl,findNotMatch inv⟩
        · exact .inr (findSlotInside nul inv.size less.2 (by omega))
    · simp only [ne_eq,next,not_false_eq_true,if_true]
      exact .inr ⟨_,rfl,findNotMatch inv⟩
  rw [if_neg long]
  by_cases volume : de.isVolume = true
  · rw [if_pos volume]
    exact .inr ⟨_,rfl,findNotMatch inv⟩
  rw [if_neg volume]
  by_cases matched : l.longMatch = true
  · rw [if_pos matched]
    split
    · exact .inl ⟨_,rfl⟩
    · exact .inr ⟨_,rfl,findNotMatch inv⟩
  · rw [if_neg matched]
    split
    · exact .inl ⟨_,rfl⟩
    · exact .inr ⟨_,rfl,findNotMatch inv⟩

theorem readSlotInside {l : ReadLocals} (size : l.longName.size = 261) (zero : l.longName.unit 260 = 0)
    (number : 0 < id ∧ id < 20) : ∃ l', readSlot codepage l id de = .next l' ∧ ReadSlots l' := by
  have less : (id + 255) % 256 = id - 1 := by omega
  obtain ⟨buf,copied,same,rest⟩ := @copyInside l.longName ((id - 1)*13) de (by omega)
  have size' : buf.size = 261 := same.trans size
  have zero' : buf.unit 260 = 0 := (rest 260 (.inr (by omega))).trans zero
  have reads : vfatCvtLongname codepage l.unicache buf ≠ none := by
    apply cvtReads
    rw [List.mem_map]
    exact ⟨260,by rw [List.mem_range,size']; omega,zero'⟩
  unfold readSlot
  simp only [less,copied]
  by_cases last : id - 1 = 0
  · rw [if_neg (by omega)]
    obtain ⟨⟨nameLen,filename,unicache⟩,converted⟩ := Option.ne_none_iff_exists'.mp reads
    simp only [converted]
    exact ⟨_,rfl,size',.inr ⟨by simp only; omega,zero'⟩⟩
  · rw [if_pos last]
    exact ⟨_,rfl,size',.inr ⟨by simp only; omega,zero'⟩⟩

/- A turn of the listing, at an entry that is not a first slot with the number 0. -/
theorem readTurnInside {l : ReadLocals} (inv : ReadSlots l) (right : ¬de.SlotZero) :
    (de.Unlisted → ∃ l', readTurn codepage l de = .next l' ∧ ReadSlots l') ∧
      (¬de.Unlisted → ∃ r, readTurn codepage l de = .stop r) := by
  have invalid : ReadSlots l.invalid := ⟨inv.size,inv.expected⟩
  unfold readTurn
  by_cases used : de 0 = 0
  · exact ⟨fun passed => absurd used passed.1,fun _ => ⟨_,if_pos used⟩⟩
  rw [if_neg used]
  by_cases gone : de 0 = deleted
  · rw [if_pos gone]
    exact ⟨fun _ => ⟨_,rfl,invalid⟩,fun listed => absurd ⟨used,.inl gone⟩ listed⟩
  rw [if_neg gone]
  by_cases long : de.isLong = true
  · rw [if_pos long]
    refine ⟨fun _ => ?_,fun listed => absurd ⟨used,.inr (.inl long)⟩ listed⟩
    have positive := idNotZero used
    simp only
    by_cases first : de.id / 0x40 % 2 = 1
    · have number : de.id % 0x40 ≠ 0 := fun zero => right ⟨long,first,zero⟩
      rw [if_pos first]
      by_cases tooLong : 20 ≤ de.id % 0x40
      · rw [if_pos tooLong]
        exact ⟨_,rfl,inv.size,inv.expected⟩
      · rw [if_neg tooLong]
        exact readSlotInside inv.size rfl (by omega)
    · rw [if_neg first]
      by_cases other : de.checksum ≠ l.vfatCsum ∨ de.id ≠ l.vfatNext
      · rw [if_pos other]
        exact ⟨_,rfl,invalid⟩
      · rw [if_neg other]
        have next : de.id = l.vfatNext := by
          by_contra differs
          exact other (.inr differs)
        rcases inv.expected with none' | ⟨less,zero⟩
        · omega
        · exact readSlotInside inv.size zero (by omega)
  rw [if_neg long]
  by_cases volume : de.isVolume = true
  · rw [if_pos volume]
    exact ⟨fun _ => ⟨_,rfl,invalid⟩,fun listed => absurd ⟨used,.inr (.inr volume)⟩ listed⟩
  rw [if_neg volume]
  refine ⟨fun passed => ?_,fun _ => ?_⟩
  · rcases passed.2 with gone' | long' | volume'
    · exact absurd gone' gone
    · exact absurd long' long
    · exact absurd volume' volume
  · split
    · exact ⟨_,rfl⟩
    · exact ⟨_,rfl⟩

theorem readTurnOutside {l : ReadLocals} (inv : ReadSlots l) (zero : de.SlotZero) : readTurn codepage l de = .fault := by
  obtain ⟨long,first,number⟩ := zero
  have used : de 0 ≠ 0 := by
    intro none'
    have id : de.id = 0 := congrArg UInt8.toNat none'
    omega
  have kept : de 0 ≠ deleted := by
    intro gone
    have id : de.id = 0xe5 := congrArg UInt8.toNat gone
    omega
  unfold readTurn
  rw [if_neg used,if_neg kept,if_pos long]
  simp only [if_pos first]
  rw [if_neg (by omega)]
  unfold readSlot
  simp only [number]
  rw [copyOutside]
  simp only [Units.zero]
  have := inv.size
  omega

/- The empty name: its first slot would be one with the number 0. -/
theorem findEmptyTurn {l : FindLocals} (inv : l.longName.size = 260 ∧ l.vfatNext = 0x40 ∧ l.longMatch = false)
    (mangled : mangledName = List.replicate 11 space) :
    (de.isLong = true ∧ de.id = 0x40 → findTurn codepage dname mangledName 0x40 l de = .fault) ∧
      (¬(de.isLong = true ∧ de.id = 0x40) → de.Named → ∃ l', findTurn codepage dname mangledName 0x40 l de = .next l' ∧
        l'.longName.size = 260 ∧ l'.vfatNext = 0x40 ∧ l'.longMatch = false) ∧
      (¬(de.isLong = true ∧ de.id = 0x40) → ¬de.Named → ∃ r, findTurn codepage dname mangledName 0x40 l de = .stop r) := by
  obtain ⟨size,next,none'⟩ := inv
  have notMatch : (l.notMatch 0x40).longName.size = 260 ∧ (l.notMatch 0x40).vfatNext = 0x40 ∧
      (l.notMatch 0x40).longMatch = false := ⟨size,rfl,rfl⟩
  unfold findTurn
  refine ⟨?_,?_,?_⟩
  · rintro ⟨long,number⟩
    have used : de 0 ≠ 0 := by
      intro zero
      have id : de.id = 0 := congrArg UInt8.toNat zero
      omega
    rw [if_neg used,if_pos long]
    simp only [number,next,ne_eq,not_true_eq_false,if_false]
    exact findSlotOutside size rfl
  · rintro right ⟨used,passed⟩
    rw [if_neg used]
    by_cases long : de.isLong = true
    · have other : de.id ≠ 0x40 := fun same => right ⟨long,same⟩
      rw [if_pos long]
      simp only [next,if_pos other]
      exact ⟨_,rfl,notMatch⟩
    rw [if_neg long]
    by_cases volume : de.isVolume = true
    · rw [if_pos volume]
      exact ⟨_,rfl,notMatch⟩
    have named : mangledName ≠ de.name := by
      rw [mangled]
      rcases passed with long' | volume' | named
      · exact absurd long' long
      · exact absurd volume' volume
      · exact Ne.symm named
    rw [if_neg volume,none',if_neg (by simp),if_neg named]
    exact ⟨_,rfl,notMatch⟩
  · intro right stops
    by_cases used : de 0 = 0
    · exact ⟨_,if_pos used⟩
    have long : de.isLong ≠ true := fun long => stops ⟨used,.inl long⟩
    have volume : de.isVolume ≠ true := fun volume => stops ⟨used,.inr (.inl volume)⟩
    have named : mangledName = de.name := by
      by_contra named
      exact stops ⟨used,.inr (.inr fun same => named (mangled.trans same.symm))⟩
    rw [if_neg used,if_neg long,if_neg volume,none',if_neg (by simp),if_pos named]
    exact ⟨_,rfl⟩

end

section
variable (fs : FatFs) (stack : Nat → Nat)

theorem slotsOr {slots : Nat} (few : slots ≤ 20) : slots ||| 0x40 = slots + 0x40 := by
  have all : ∀ n < 21, n ||| 0x40 = n + 0x40 := by decide
  exact all slots (by omega)

theorem mapFault {κ σ ρ ω : Type} {run : Option (Outcome κ σ ρ)} {f : Outcome κ σ ρ → ω} {bad : ω}
    (only : ∀ o, f o = bad ↔ o = .fault) : run.map f = some bad ↔ run = some .fault := by
  rw [Option.map_eq_some_iff]
  constructor
  · rintro ⟨o,run',same⟩
    rw [run',(only o).mp same]
  · intro run'
    exact ⟨.fault,run',(only .fault).mpr rfl⟩

theorem lookupFault (o : Outcome Cursor FindLocals Bool) : lookupOf fs o = .fault ↔ o = .fault := by
  rcases o with ⟨_,_ | _⟩ | _ | _ <;> simp [lookupOf]

theorem readdirFault (o : Outcome ReadCursor ReadLocals (ReadLocals × Bool)) : readdirOf fs o = .fault ↔ o = .fault := by
  rcases o with ⟨_,_,_ | _⟩ | _ | _ <;> simp [readdirOf]

/- A call of vfat_find_entry goes wrong for the empty name alone, and a call of vfat_readdir
and that one just where they get to a first slot with the number 0. -/
theorem chunksOutside (nul : fs.codepage.NulIsNul) :
    (∀ dname start, (∃ fuel, vfatFindEntry fs stack dname start fuel = some .fault) ↔
      dname = [] ∧ FindReachesSlotZero fs start) ∧
    ∀ unicache file, (∃ fuel, vfatReaddir fs stack unicache file fuel = some .fault) ↔ ReaddirReachesSlotZero fs file := by
  constructor
  · intro dname start
    unfold vfatFindEntry
    by_cases tooLong : 20 < (dname.length + 12) / 13
    · simp only [if_pos tooLong]
      constructor
      · rintro ⟨_,null⟩
        contradiction
      · rintro ⟨rfl,_⟩
        contradiction
    simp only [if_neg tooLong,slotsOr (Nat.le_of_not_lt tooLong),mapFault (lookupFault fs)]
    cases dname with
    | nil =>
      have mangled : mangleDosName fs.codepage [] = List.replicate 11 space := rfl
      simp only [true_and]
      exact Scan.faultsIff (fun l de inv => (findEmptyTurn inv mangled).1) (fun l de inv => (findEmptyTurn inv mangled).2.1)
        (fun l de inv => (findEmptyTurn inv mangled).2.2) ⟨rfl,rfl,rfl⟩
    | cons c dname =>
      simp only [reduceCtorEq,false_and,iff_false]
      rintro ⟨fuel,fault⟩
      obtain ⟨es,k,l,_,through,here⟩ := Scan.scanFault fault
      have some' : 0 < ((c::dname).length + 12) / 13 ∧ ((c::dname).length + 12) / 13 ≤ 20 := by
        rw [List.length_cons] at tooLong ⊢
        omega
      have keep : FindSlots _ l := Scan.turnsKeep (fun l de l' inv one => by
        rcases findTurnInside nul some' inv with ⟨r,stop⟩ | ⟨next,one',inv'⟩
        · rw [one] at stop
          contradiction
        · rw [one] at one'
          cases one'
          exact inv') ⟨rfl,.inl rfl⟩ through
      rcases findTurnInside nul some' keep with ⟨r,stop⟩ | ⟨next,one',_⟩
      · rw [here] at stop
        contradiction
      · rw [here] at one'
        contradiction
  · intro unicache file
    unfold vfatReaddir
    simp only [mapFault (readdirFault fs)]
    exact Scan.faultsIff (fun l de inv => readTurnOutside inv) (fun l de inv right => (readTurnInside inv right).1)
      (fun l de inv right => (readTurnInside inv right).2) ⟨rfl,.inl rfl⟩

/- All chunks of the calls go inside the buffers, and nothing is read behind the end of one. -/
def FindInside (dname : Bytes) (start : Nat) : Prop := ∀ fuel, vfatFindEntry fs stack dname start fuel ≠ some .fault

def ReaddirInside (unicache : Unicache) (file : DirFile) : Prop :=
  ∀ fuel, vfatReaddir fs stack unicache file fuel ≠ some .fault

theorem chunksInside (nul : fs.codepage.NulIsNul) :
    (∀ dname start, FindInside fs stack dname start ↔ (dname = [] → ¬FindReachesSlotZero fs start)) ∧
      ∀ unicache file, ReaddirInside fs stack unicache file ↔ ¬ReaddirReachesSlotZero fs file := by
  obtain ⟨find,readdir⟩ := chunksOutside fs stack nul
  constructor
  · intro dname start
    rw [← not_and,← find dname start,not_exists]
    rfl
  · intro unicache file
    rw [← readdir unicache file,not_exists]
    rfl

end

/- A directory in sector 1 whose first entry is a first slot with the number 0. -/
def slotZeroDisk : Nat → Nat → UInt8
  | 1,0 => 0x40
  | 1,11 => 0x0f
  | _,_ => 0

def plainCodepage : Codepage := ⟨id,id,fun c => c % 256⟩

def slotZero : FatFs := ⟨⟨9,1,1,2,0,1,0,.fat12,slotZeroDisk⟩,0,0,plainCodepage⟩

theorem plainNul : plainCodepage.NulIsNul := ⟨rfl,rfl⟩

theorem chunksInsideSlotZero :
    (∀ dname start, FindInside slotZero (fun _ => 0) dname start ↔ (dname = [] → ¬FindReachesSlotZero slotZero start)) ∧
      ∀ unicache file, ReaddirInside slotZero (fun _ => 0) unicache file ↔ ¬ReaddirReachesSlotZero slotZero file :=
  chunksInside slotZero (fun _ => 0) plainNul

theorem slotZeroCopied : slotZero.codepage.NulIsNul ∧
    ¬((∀ stack dname start, FindInside slotZero stack dname start) ∧
      ∀ stack unicache file, ReaddirInside slotZero stack unicache file) := by
  refine ⟨plainNul,?_⟩
  rintro ⟨_,inside⟩
  exact inside (fun _ => 0) (fun _ => (0,0)) ⟨1,0,1,0⟩ 1 rfl

end Syslinux.FatDir
