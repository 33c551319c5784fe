import Syslinux.FatNames
import Syslinux.FatDirEnds

/-! Well-formed FAT directories: what vfat_find_entry finds in one for a name, and what the
calls of vfat_readdir list, next to each other. -/
namespace Syslinux.FatDir
open Searchdir (Bytes slash dot)
open Scan (Turn Outcome scan turns Ahead)

/- A file in a directory: its short entry, and the units and the slots of its long name. -/
structure FileItem where
  units : List Nat
  slots : List DirEntry
  de : DirEntry

/- What a directory consists of; a slot or an entry that was deleted stands alone. -/
inductive Item where
  | unused (de : DirEntry)
  | file (f : FileItem)

def Item.entries : Item → List DirEntry
  | .unused de => [de]
  | .file f => f.slots ++ [f.de]

def Item.file? : Item → Option FileItem
  | .unused _ => none
  | .file f => some f

def files (items : List Item) : List FileItem := items.filterMap Item.file?

structure FileItem.WellFormed (codepage : Codepage) (f : FileItem) : Prop where
  used : f.de 0 ≠ 0
  kept : f.de 0 ≠ deleted
  short : f.de.isLong = false
  noVolume : f.de.isVolume = false
  form : ShortForm codepage f.de.name
  units : ∀ u ∈ f.units, u ≠ 0
  length : f.units.length ≤ 255
  slots : Slots (getChecksum f.de.name) f.units (slotCount f.units) f.slots

def Item.WellFormed (codepage : Codepage) : Item → Prop
  | .unused de => de 0 ≠ 0 ∧ (de 0 = deleted ∨ de.isLong = false ∧ de.isVolume = true)
  | .file f => f.WellFormed codepage

/- A directory from its first sector on, up to an end mark or to the end of its sectors. -/
structure Directory (fs : FatFs) (start : Nat) (items : List Item) (end' : Except Cursor Cursor) : Prop where
  used : start ≠ 0
  ahead : Ahead fs.entry fs.advance (fs.sectorStart start) (items.flatMap Item.entries) end'
  mark : ∀ k, end' = .ok k → (fs.entry k) 0 = 0
  wellFormed : ∀ item ∈ items, item.WellFormed fs.codepage
  small : 32*(items.flatMap Item.entries).length < 2^32

/- A file answers to its long name up to case, and to all that is mangled to its short name. -/
def FileItem.answersLong (codepage : Codepage) (dname : Bytes) (f : FileItem) : Bool :=
  !f.units.isEmpty && matchesName codepage f.units dname

def FileItem.answers (codepage : Codepage) (dname : Bytes) (f : FileItem) : Bool :=
  f.answersLong codepage dname || mangleDosName codepage dname == f.de.name

def FileItem.longShown (codepage : Codepage) (f : FileItem) : Option Bytes :=
  if 0 < slotCount f.units ∧ slotCount f.units < 20 then convertName codepage f.units else none

def FileItem.displayName (codepage : Codepage) (f : FileItem) : Bytes :=
  (f.longShown codepage).getD (shortName codepage f.de)

def readdirs (fs : FatFs) (stack : Nat → Nat → Nat) (fuel : Nat) :
    Nat → DirFile → Unicache → Option (List Dirent × DirFile × Unicache)
  | 0,file,unicache => some ([],file,unicache)
  | calls+1,file,unicache =>
      match vfatReaddir fs (stack calls) unicache file fuel with
      | some (.done (some dirent) file unicache) => do
          let (rest,last) ← readdirs fs stack fuel calls file unicache
          some (dirent::rest,last)
      | _ => none

structure FindAt (vfatInit : Nat) (l : FindLocals) : Prop where
  size : l.longName.size = 260
  next : l.vfatNext = vfatInit
  noMatch : l.longMatch = false

structure FindFilled (csum : UInt8) (units : List Nat) (number : Nat) (l : FindLocals) : Prop where
  size : l.longName.size = 260
  filled : Filled units number l.longName
  csum : l.vfatCsum = csum
  len : l.longLen = slotCount units*13
  noMatch : l.longMatch = false

inductive FindRead (vfatInit : Nat) (csum : UInt8) (l : FindLocals) : Bool → Prop where
  | matched (yes : l.longMatch = true) (same : l.vfatCsum = csum) : FindRead vfatInit csum l true
  | other (at' : FindAt vfatInit l) : FindRead vfatInit csum l false

section
variable {codepage : Codepage} {dname mangledName : Bytes} {vfatInit number : Nat} {l : FindLocals} {de : DirEntry}
variable {csum : UInt8} {units : List Nat} {f : FileItem}

theorem notMatchAt (size : l.longName.size = 260) : FindAt vfatInit (l.notMatch vfatInit) := ⟨size,rfl,rfl⟩

theorem mangleLoopHead (src buf : Bytes) (first : ∀ c ∈ buf.head?, c ≠ deleted) :
    ∀ c ∈ (mangleLoop codepage src buf).head?, c ≠ deleted := by
  induction src generalizing buf with
  | nil => exact first
  | cons c src ih =>
    rw [mangleLoop]
    split
    · exact first
    split
    · exact first
    split
    · apply ih
      cases buf with
      | nil =>
        intro c mem
        cases mem
        decide
      | cons b buf => simpa using first
    · apply ih
      cases buf with
      | nil =>
        simp only [List.length_nil,true_and,List.nil_append,List.head?_cons,Option.mem_some_iff]
        rintro c rfl
        split
        · decide
        · assumption
      | cons b buf => simpa using first

theorem mangleNotDeleted (gone : de 0 = deleted) : mangleDosName codepage dname ≠ de.name := by
  intro same
  have head : de.name.head? = some deleted := by rw [← gone]; rfl
  rw [← same] at head
  unfold mangleDosName at head
  simp only at head
  split at head
  · rename_i dots
    rcases dots with rfl | rfl <;> exact absurd head (by decide)
  · have first := @mangleLoopHead codepage dname [] (by simp)
    cases loop : mangleLoop codepage dname [] with
    | nil =>
      rw [loop] at head
      exact absurd head (by decide)
    | cons b buf =>
      rw [loop] at head first
      exact first deleted head rfl

theorem slotUsed (slot : SlotOk csum units (number + 1) de) : de 0 ≠ 0 := by
  intro zero
  have id := slot.id
  rw [show de.id = 0 from congrArg UInt8.toNat zero] at id
  split at id <;> omega

theorem findSlotFilled (nul : codepage.NulIsNul) (some' : ∀ u ∈ units, u ≠ 0) (noNul : 0 ∉ dname)
    (filled : FindFilled csum units (number + 1) l) (slot : SlotOk csum units (number + 1) de)
    (below : number < slotCount units) (few : slotCount units ≤ 20) :
    ∃ l', findSlot codepage dname vfatInit l (number + 1) de = .next l' ∧
      if number = 0 then FindRead vfatInit csum l' (matchesName codepage units dname)
      else l'.vfatNext = number ∧ FindFilled csum units number l' := by
  have less : (number + 1 + 255) % 256 = number := by omega
  obtain ⟨buf,copied,same,filled'⟩ := copyFilled filled.filled slot below (by rw [filled.size]; omega)
  have size : buf.size = 260 := same.trans filled.size
  unfold findSlot
  simp only [less,copied]
  by_cases last : number = 0
  · subst last
    have matched := matchFilled nul filled' some' (by omega) noNul
    simp only [ne_eq,not_true_eq_false,if_false,filled.len,matched,if_true]
    cases matchesName codepage units dname with
    | true => exact ⟨_,rfl,.matched rfl filled.csum⟩
    | false => exact ⟨_,rfl,.other (notMatchAt size)⟩
  · simp only [ne_eq,last,not_false_eq_true,if_true,if_false]
    exact ⟨_,rfl,rfl,size,filled',filled.csum,filled.len,filled.noMatch⟩

/- Lookup that expects a slot: the first one of the long name, or one below it. -/
def FindExpects (csum : UInt8) (units : List Nat) (number : Nat) (l : FindLocals) : Prop :=
  if number = slotCount units then FindAt (slotCount units + 0x40) l
  else l.vfatNext = number ∧ FindFilled csum units number l

theorem findTurnSlot (nul : codepage.NulIsNul) (some' : ∀ u ∈ units, u ≠ 0) (noNul : 0 ∉ dname) (few : slotCount units ≤ 20)
    (slot : SlotOk csum units (number + 1) de) (below : number < slotCount units) (expects : FindExpects csum units (number + 1) l) :
    ∃ l', findTurn codepage dname mangledName (slotCount units + 0x40) l de = .next l' ∧
      if number = 0 then FindRead (slotCount units + 0x40) csum l' (matchesName codepage units dname)
      else FindExpects csum units number l' := by
  have id := slot.id
  unfold findTurn
  rw [if_neg (slotUsed slot),if_pos slot.long]
  unfold FindExpects at expects ⊢
  simp only [show number ≠ slotCount units by omega,if_false]
  by_cases first : number + 1 = slotCount units
  · rw [if_pos first] at id expects
    simp only [id,expects.next,first,ne_eq,not_true_eq_false,if_false]
    rw [if_pos (by omega),show (slotCount units + 0x40) % 0x40 = number + 1 by omega]
    refine findSlotFilled nul some' noNul ⟨expects.size,?_,slot.checksum,?_,expects.noMatch⟩ slot below few
    · rw [first]
      exact filledZero l.longName
    · rw [first]
  · rw [if_neg first] at id expects
    simp only [id,expects.1,slot.checksum,expects.2.csum,ne_eq,not_true_eq_false,if_false]
    rw [if_neg (by omega)]
    exact findSlotFilled nul some' noNul expects.2 slot below few

theorem findSlotsAccepted (nul : codepage.NulIsNul) (some' : ∀ u ∈ units, u ≠ 0) (noNul : 0 ∉ dname)
    (few : slotCount units ≤ 20) (positive : 0 < slotCount units) {slots : List DirEntry}
    (all : Slots csum units (slotCount units) slots) (at' : FindAt (slotCount units + 0x40) l) :
    ∃ l', turns (findTurn codepage dname mangledName (slotCount units + 0x40)) l slots = .next l' ∧
      FindRead (slotCount units + 0x40) csum l' (matchesName codepage units dname) := by
  obtain ⟨number,count⟩ : ∃ number, slotCount units = number + 1 := ⟨slotCount units - 1,by omega⟩
  have start : FindExpects csum units (number + 1) l := by
    rw [FindExpects,if_pos count.symm]
    exact at'
  exact slotsThrough (fun n l de slot below expects => findTurnSlot nul some' noNul few slot below expects) (count ▸ all)
    (by omega) start

theorem findSlotsRejected {slots : List DirEntry} (all : Slots csum units (slotCount units) slots) (few : slotCount units ≤ 20)
    {count : Nat} (other : count ≠ slotCount units) (at' : FindAt (count + 0x40) l) :
    ∃ l', turns (findTurn codepage dname mangledName (count + 0x40)) l slots = .next l' ∧ FindAt (count + 0x40) l' := by
  refine Scan.turnsPass ?_ at' (slotsMem all (Nat.le_refl _))
  rintro l de at' ⟨number,slot,below⟩
  have id : de.id ≠ l.vfatNext := by
    rw [slot.id,at'.next]
    split <;> omega
  refine ⟨_,?_,notMatchAt at'.size⟩
  unfold findTurn
  rw [if_neg (slotUsed slot),if_pos slot.long]
  simp only [id,ne_eq,not_false_eq_true,if_true]

theorem findUnused (unused : (Item.unused de).WellFormed codepage) {count : Nat} (few : count ≤ 20)
    (at' : FindAt (count + 0x40) l) :
    ∃ l', findTurn codepage dname (mangleDosName codepage dname) (count + 0x40) l de = .next l' ∧ FindAt (count + 0x40) l' := by
  obtain ⟨used,what⟩ := unused
  have notMatch := @notMatchAt (count + 0x40) l at'.size
  unfold findTurn
  rw [if_neg used]
  by_cases long : de.isLong = true
  · have gone : de 0 = deleted := what.resolve_right (by simp [long])
    have id : de.id ≠ l.vfatNext := by
      rw [show de.id = 0xe5 from congrArg UInt8.toNat gone,at'.next]
      omega
    rw [if_pos long]
    simp only [id,ne_eq,not_false_eq_true,if_true]
    exact ⟨_,rfl,notMatch⟩
  rw [if_neg long]
  by_cases volume : de.isVolume = true
  · rw [if_pos volume]
    exact ⟨_,rfl,notMatch⟩
  have gone : de 0 = deleted := what.resolve_right (by simp [volume])
  rw [if_neg volume,at'.noMatch,if_neg (by simp),if_neg (mangleNotDeleted gone)]
  exact ⟨_,rfl,notMatch⟩

theorem slotCountZero (none' : slotCount units = 0) : units = [] := by
  unfold slotCount at none'
  exact List.eq_nil_of_length_eq_zero (by omega)

theorem findFileSlots (nul : codepage.NulIsNul) (ok : f.WellFormed codepage) (noNul : 0 ∉ dname)
    (at' : FindAt ((dname.length + 12) / 13 + 0x40) l) :
    ∃ l', turns (findTurn codepage dname mangledName ((dname.length + 12) / 13 + 0x40)) l f.slots = .next l' ∧
      FindRead ((dname.length + 12) / 13 + 0x40) (getChecksum f.de.name) l' (f.answersLong codepage dname) := by
  have few : slotCount f.units ≤ 20 := by
    have := ok.length
    unfold slotCount
    omega
  by_cases same : (dname.length + 12) / 13 = slotCount f.units
  · by_cases none' : slotCount f.units = 0
    · have empty := slotCountZero none'
      have slots := none' ▸ ok.slots
      have long : f.answersLong codepage dname = false := by simp [FileItem.answersLong,empty]
      cases eq : f.slots with
      | cons =>
        rw [eq] at slots
        cases slots
      | nil =>
        rw [long]
        exact ⟨l,rfl,.other at'⟩
    · have long : f.answersLong codepage dname = matchesName codepage f.units dname := by
        have some' : f.units ≠ [] := fun empty => none' (by rw [empty]; rfl)
        simp [FileItem.answersLong,some']
      rw [long,same]
      rw [same] at at'
      exact findSlotsAccepted nul ok.units noNul few (by omega) ok.slots at'
  · have long : f.answersLong codepage dname = false := by
      rw [FileItem.answersLong,Bool.and_eq_false_iff]
      right
      by_contra matched
      refine same ?_
      rw [slotCount,matchesLength (Bool.not_eq_false _ ▸ matched)]
    obtain ⟨l',through,last⟩ := findSlotsRejected ok.slots few same at'
    exact ⟨l',through,long ▸ .other last⟩

theorem findFileEntry (ok : f.WellFormed codepage)
    (read : FindRead vfatInit (getChecksum f.de.name) l (f.answersLong codepage dname)) :
    if f.answers codepage dname = true then
      findTurn codepage dname (mangleDosName codepage dname) vfatInit l f.de = .stop true
    else ∃ l', findTurn codepage dname (mangleDosName codepage dname) vfatInit l f.de = .next l' ∧ FindAt vfatInit l' := by
  have turned : findTurn codepage dname (mangleDosName codepage dname) vfatInit l f.de =
      if l.longMatch then
        if getChecksum f.de.name = l.vfatCsum then .stop true else .next (l.notMatch vfatInit)
      else if mangleDosName codepage dname = f.de.name then .stop true
      else .next (l.notMatch vfatInit) := by
    unfold findTurn
    rw [if_neg ok.used,if_neg (by simp [ok.short]),if_neg (by simp [ok.noVolume])]
  rw [turned]
  unfold FileItem.answers
  generalize f.answersLong codepage dname = long at read ⊢
  cases read with
  | matched yes same => simp only [Bool.true_or,if_true,yes,same]
  | other at' =>
    simp only [Bool.false_or,at'.noMatch,Bool.false_eq_true,if_false,beq_iff_eq]
    split
    · rfl
    · exact ⟨_,rfl,notMatchAt at'.size⟩

/- A search over entries goes on behind them, or it stops at the entry of that file. -/
def StopsAt (turn : FindLocals → DirEntry → Turn FindLocals Bool) (l : FindLocals) (es : List DirEntry) : Option FileItem → Prop
  | none => ∃ l', turns turn l es = .next l'
  | some f => ∃ before behind l', es = before ++ f.de::behind ∧ turns turn l before = .next l' ∧ turn l' f.de = .stop true

theorem stopsBehind {turn : FindLocals → DirEntry → Turn FindLocals Bool} {l₁ : FindLocals} {es es' : List DirEntry}
    {found : Option FileItem} (through : turns turn l es = .next l₁) (stops : StopsAt turn l₁ es' found) :
    StopsAt turn l (es ++ es') found := by
  cases found with
  | none =>
    obtain ⟨l',more⟩ := stops
    exact ⟨l',by rw [Scan.turnsAppend through,more]⟩
  | some f =>
    obtain ⟨before,behind,l',rfl,more,stop⟩ := stops
    exact ⟨es ++ before,behind,l',(List.append_assoc _ _ _).symm,by rw [Scan.turnsAppend through,more],stop⟩

/- The search for a name over a list of items stops at the first file that answers. -/
theorem findItems (nul : codepage.NulIsNul) (noNul : 0 ∉ dname) (few : (dname.length + 12) / 13 ≤ 20) (items : List Item)
    (ok : ∀ item ∈ items, item.WellFormed codepage) (at' : FindAt ((dname.length + 12) / 13 + 0x40) l) :
    StopsAt (findTurn codepage dname (mangleDosName codepage dname) ((dname.length + 12) / 13 + 0x40)) l
      (items.flatMap Item.entries) ((files items).find? (FileItem.answers codepage dname)) := by
  induction items generalizing l with
  | nil => exact ⟨l,rfl⟩
  | cons item items ih =>
    obtain ⟨first,others⟩ := List.forall_mem_cons.mp ok
    rw [List.flatMap_cons]
    cases item with
    | unused de =>
      obtain ⟨l₁,turned,at₁⟩ := findUnused first few at'
      exact stopsBehind (by rw [Item.entries,Scan.turnsOne,turned]) (ih others at₁)
    | file f =>
      obtain ⟨l₁,through,read⟩ := findFileSlots nul first noNul at'
      have entry := findFileEntry first read
      cases answers : f.answers codepage dname with
      | true =>
        rw [if_pos answers] at entry
        have found : (files (.file f::items)).find? (FileItem.answers codepage dname) = some f :=
          List.find?_cons_of_pos answers
        rw [found]
        refine ⟨f.slots,items.flatMap Item.entries,l₁,?_,through,entry⟩
        rw [Item.entries,List.append_assoc,List.singleton_append]
      | false =>
        rw [if_neg (by simp [answers])] at entry
        obtain ⟨l₂,turned,at₂⟩ := entry
        have found : (files (.file f::items)).find? (FileItem.answers codepage dname) =
            (files items).find? (FileItem.answers codepage dname) := List.find?_cons_of_neg (by simp [answers])
        rw [found]
        exact stopsBehind (by rw [Item.entries,Scan.turnsAppend through,Scan.turnsOne,turned]) (ih others at₂)

end

theorem findInDirectory {fs : FatFs} {start : Nat} {items : List Item} {end' : Except Cursor Cursor}
    (nul : fs.codepage.NulIsNul) (dir : Directory fs start items end') (stack : Nat → Nat) {dname : Bytes} (noNul : 0 ∉ dname)
    (short : dname.length ≤ 260) :
    ∃ fuel, vfatFindEntry fs stack dname start fuel =
      some (match (files items).find? (FileItem.answers fs.codepage dname) with
        | some f => .found (foundInode fs f.de)
        | none => .null) := by
  have few : (dname.length + 12) / 13 ≤ 20 := by omega
  have search := findItems nul noNul few items dir.wellFormed (l := findLocals stack ((dname.length + 12) / 13 + 0x40)) ⟨rfl,rfl,rfl⟩
  unfold vfatFindEntry
  simp only [show ¬20 < (dname.length + 12) / 13 by omega,if_false,slotsOr few]
  cases found : (files items).find? (FileItem.answers fs.codepage dname) with
  | none =>
    rw [found] at search
    obtain ⟨l,through⟩ := search
    cases end' with
    | error k =>
      refine ⟨(items.flatMap Item.entries).length + 0,?_⟩
      rw [Scan.scanEnd dir.ahead through]
      rfl
    | ok k =>
      refine ⟨(items.flatMap Item.entries).length + (0 + 1),?_⟩
      rw [Scan.scanStop dir.ahead through (findTurnMark _ _ _ _ l (dir.mark k rfl))]
      rfl
  | some f =>
    rw [found] at search
    obtain ⟨before,behind,l,split',through,stop⟩ := search
    have ahead := dir.ahead
    rw [split'] at ahead
    obtain ⟨at₁,first,second⟩ := Scan.aheadCut ahead
    generalize here : f.de = de at second stop ⊢
    cases second with
    | @cons k _ _ _ =>
      refine ⟨before.length + (0 + 1),?_⟩
      rw [Scan.scanStop first through stop]
      simp only [Option.map_some,lookupOf,here]

structure ReadAt (codepage : Codepage) (l : ReadLocals) : Prop where
  size : l.longName.size = 261
  next : l.vfatNext = 0xff
  noEntry : l.longEntry = false
  sound : l.unicache.Sound codepage

structure ReadFilled (codepage : Codepage) (csum : UInt8) (units : List Nat) (number : Nat) (l : ReadLocals) : Prop where
  size : l.longName.size = 261
  filled : Filled units number l.longName
  csum : l.vfatCsum = csum
  noEntry : l.longEntry = false
  sound : l.unicache.Sound codepage

/- Listing behind the slots of a file, with its long name if that is shown. -/
structure ReadBehind (codepage : Codepage) (csum : UInt8) (l : ReadLocals) (long : Option Bytes) : Prop where
  sound : l.unicache.Sound codepage
  none' : long = none → l.longEntry = false
  some' : ∀ name, long = some name → l.longEntry = true ∧ l.vfatCsum = csum ∧ l.filename = name ++ [0] ∧ l.nameLen = name.length

section
variable {codepage : Codepage} {number : Nat} {l : ReadLocals} {de : DirEntry}
variable {csum : UInt8} {units : List Nat} {f : FileItem}

theorem readUnused (l : ReadLocals) (de : DirEntry) (at' : ReadAt codepage l) (unused : (Item.unused de).WellFormed codepage) :
    ∃ l', readTurn codepage l de = .next l' ∧ ReadAt codepage l' := by
  obtain ⟨used,what⟩ := unused
  have invalid : ReadAt codepage l.invalid := ⟨at'.size,at'.next,rfl,at'.sound⟩
  refine ⟨l.invalid,?_,invalid⟩
  unfold readTurn
  rw [if_neg used]
  by_cases gone : de 0 = deleted
  · rw [if_pos gone]
  · obtain ⟨short,volume⟩ := what.resolve_left gone
    rw [if_neg gone,if_neg (by simp [short]),if_pos volume]

/- A slot that is the next one: the buffer has one more, and the last one is converted. -/
theorem readSlotFilled (nul : codepage.NulIsNul) (some' : ∀ u ∈ units, u ≠ 0)
    (filled : ReadFilled codepage csum units (number + 1) l) (slot : SlotOk csum units (number + 1) de)
    (below : number < slotCount units) (few : slotCount units < 20) :
    ∃ l', readSlot codepage l (number + 1) de = .next l' ∧
      if number = 0 then ReadBehind codepage csum l' (convertName codepage units)
      else l'.vfatNext = number ∧ ReadFilled codepage csum units number l' := by
  have less : (number + 1 + 255) % 256 = number := by omega
  obtain ⟨buf,copied,same,filled'⟩ := copyFilled filled.filled slot below (by rw [filled.size]; omega)
  have size : buf.size = 261 := same.trans filled.size
  unfold readSlot
  simp only [less,copied]
  by_cases last : number = 0
  · subst last
    have length : units.length < 256 ∧ 0 < units.length := by
      unfold slotCount at few below
      omega
    obtain ⟨rest,read⟩ := filledUnits filled' (by omega)
    obtain ⟨nameLen,filename,unicache,converted,none',some''⟩ := cvtConverts nul filled.sound some' rest []
    have whole : vfatCvtLongname codepage l.unicache buf = some (nameLen,filename,unicache) := by
      rw [vfatCvtLongname,read]
      exact converted
    simp only [ne_eq,not_true_eq_false,if_false,whole,if_true]
    refine ⟨_,rfl,cvtSound filled.sound converted,?_,?_⟩
    · intro failed
      simp [none' failed,filled.noEntry]
    · intro name long
      have matched := matchesLength (convertMatches nul some' long).1
      obtain ⟨len,rfl⟩ := some'' name long
      rw [List.length_nil] at len
      refine ⟨?_,filled.csum,rfl,by simp only; omega⟩
      rw [Bool.or_eq_true,decide_eq_true_eq]
      unfold sizeofName
      omega
  · simp only [ne_eq,last,not_false_eq_true,if_true,if_false]
    exact ⟨_,rfl,rfl,size,filled',filled.csum,filled.noEntry,filled.sound⟩

theorem slotKept (slot : SlotOk csum units (number + 1) de) (below : number < slotCount units) (few : slotCount units ≤ 20) :
    de 0 ≠ deleted := by
  intro gone
  have id := slot.id
  rw [show de.id = 0xe5 from congrArg UInt8.toNat gone] at id
  split at id <;> omega

def ReadExpects (codepage : Codepage) (csum : UInt8) (units : List Nat) (number : Nat) (l : ReadLocals) : Prop :=
  if number = slotCount units then ReadAt codepage l else l.vfatNext = number ∧ ReadFilled codepage csum units number l

theorem readTurnSlot (nul : codepage.NulIsNul) (some' : ∀ u ∈ units, u ≠ 0) (few : slotCount units < 20)
    (slot : SlotOk csum units (number + 1) de) (below : number < slotCount units)
    (expects : ReadExpects codepage csum units (number + 1) l) :
    ∃ l', readTurn codepage l de = .next l' ∧
      if number = 0 then ReadBehind codepage csum l' (convertName codepage units) else ReadExpects codepage csum units number l' := by
  have id := slot.id
  unfold readTurn
  rw [if_neg (slotUsed slot),if_neg (slotKept slot below (by omega)),if_pos slot.long]
  unfold ReadExpects at expects ⊢
  simp only [show number ≠ slotCount units by omega,if_false]
  by_cases first : number + 1 = slotCount units
  · rw [if_pos first] at id expects
    simp only [id,first]
    rw [if_pos (by omega),show (slotCount units + 0x40) % 0x40 = number + 1 by omega,if_neg (by omega)]
    refine readSlotFilled nul some' ⟨expects.size,?_,slot.checksum,expects.noEntry,expects.sound⟩ slot below few
    rw [first]
    exact filledZero l.longName
  · rw [if_neg first] at id expects
    simp only [id,expects.1,slot.checksum,expects.2.csum,ne_eq,not_true_eq_false,or_self,if_false]
    rw [if_neg (by omega)]
    exact readSlotFilled nul some' expects.2 slot below few

theorem readSlotsAccepted (nul : codepage.NulIsNul) (some' : ∀ u ∈ units, u ≠ 0) (few : slotCount units < 20)
    (positive : 0 < slotCount units) {slots : List DirEntry} (all : Slots csum units (slotCount units) slots)
    (at' : ReadAt codepage l) :
    ∃ l', turns (readTurn codepage) l slots = .next l' ∧ ReadBehind codepage csum l' (convertName codepage units) := by
  obtain ⟨number,count⟩ : ∃ number, slotCount units = number + 1 := ⟨slotCount units - 1,by omega⟩
  have start : ReadExpects codepage csum units (number + 1) l := by
    rw [ReadExpects,if_pos count.symm]
    exact at'
  exact slotsThrough (fun n l de slot below expects => readTurnSlot nul some' few slot below expects) (count ▸ all) (by omega)
    start

theorem readSlotsRejected {slots : List DirEntry} (all : Slots csum units (slotCount units) slots) (many : slotCount units = 20)
    (at' : ReadAt codepage l) : ∃ l', turns (readTurn codepage) l slots = .next l' ∧ ReadAt codepage l' := by
  refine Scan.turnsPass ?_ at' (slotsMem all (Nat.le_refl _))
  rintro l de at' ⟨number,slot,below⟩
  have id := slot.id
  unfold readTurn
  rw [if_neg (slotUsed slot),if_neg (slotKept slot below (by omega)),if_pos slot.long]
  simp only
  by_cases first : number + 1 = slotCount units
  · rw [if_pos first,first,many] at id
    rw [id,if_pos (by omega),if_pos (by omega)]
    exact ⟨_,rfl,at'.size,at'.next,rfl,at'.sound⟩
  · rw [if_neg first] at id
    rw [id,if_neg (by omega),if_pos (.inr (by rw [at'.next]; omega))]
    exact ⟨_,rfl,at'.size,at'.next,rfl,at'.sound⟩

theorem readFileSlots (nul : codepage.NulIsNul) (ok : f.WellFormed codepage) (at' : ReadAt codepage l) :
    ∃ l', turns (readTurn codepage) l f.slots = .next l' ∧
      ReadBehind codepage (getChecksum f.de.name) l' (f.longShown codepage) := by
  have few : slotCount f.units ≤ 20 := by
    have := ok.length
    unfold slotCount
    omega
  by_cases shown : 0 < slotCount f.units ∧ slotCount f.units < 20
  · rw [FileItem.longShown,if_pos shown]
    exact readSlotsAccepted nul ok.units shown.2 shown.1 ok.slots at'
  · have behind : ∃ l', turns (readTurn codepage) l f.slots = .next l' ∧ ReadAt codepage l' := by
      by_cases none' : slotCount f.units = 0
      · have slots := none' ▸ ok.slots
        cases eq : f.slots with
        | nil => exact ⟨l,rfl,at'⟩
        | cons =>
          rw [eq] at slots
          cases slots
      · exact readSlotsRejected ok.slots (by omega) at'
    obtain ⟨l',through,last⟩ := behind
    rw [FileItem.longShown,if_neg shown]
    exact ⟨l',through,last.sound,fun _ => last.noEntry,by simp⟩

theorem readFileEntry (ok : f.WellFormed codepage)
    (behind : ReadBehind codepage (getChecksum f.de.name) l (f.longShown codepage)) :
    ∃ l', readTurn codepage l f.de = .stop (l',true) ∧ l'.unicache.Sound codepage ∧
      ∀ offset de, (direntOf l' offset de).dName = f.displayName codepage ++ [0] := by
  have whole : ∀ (l' : ReadLocals) (name : Bytes), l'.filename = name ++ [0] → l'.nameLen = name.length →
      ∀ offset de, (direntOf l' offset de).dName = name ++ [0] := by
    intro l' name filename len offset de
    simp only [direntOf,filename,len]
    apply List.take_of_length_le
    simp
  unfold readTurn FileItem.displayName
  rw [if_neg ok.used,if_neg ok.kept,if_neg (by simp [ok.short]),if_neg (by simp [ok.noVolume])]
  cases long : f.longShown codepage with
  | some name =>
    obtain ⟨entry,csum,filename,len⟩ := behind.some' name long
    rw [if_pos ⟨entry,csum.symm⟩]
    exact ⟨l,rfl,behind.sound,whole l name filename len⟩
  | none =>
    rw [if_neg (by simp [behind.none' long])]
    exact ⟨_,rfl,behind.sound,whole _ (shortName codepage f.de) rfl rfl⟩

end

def EndSeen {κ : Type} (items : List Item) (end' : Except κ κ) : Prop :=
  (∃ k, end' = .ok k) ∨ ∀ item ∈ items.getLast?, item.file? = none

section
variable {fs : FatFs} {file : DirFile} {items : List Item} {at' : Except ReadCursor ReadCursor} {unicache : Unicache}

theorem unusedEntries (none' : ∀ item ∈ items, item.file? = none) (ok : ∀ item ∈ items, item.WellFormed fs.codepage) :
    files items = [] ∧ ∀ e ∈ items.flatMap Item.entries, (Item.unused e).WellFormed fs.codepage := by
  constructor
  · exact List.filterMap_eq_nil_iff.mpr none'
  · intro e mem
    obtain ⟨item,inside,entry⟩ := List.mem_flatMap.mp mem
    cases item with
    | unused de =>
      cases List.mem_singleton.mp entry
      exact ok _ inside
    | file f => exact absurd (none' _ inside) (by simp [Item.file?])

/- Calls from some place between two items on, by induction on the files ahead. -/
theorem readdirsFiles (large : 9 ≤ fs.vol.sectorShift) (nul : fs.codepage.NulIsNul) (stack : Nat → Nat → Nat) (fuel calls : Nat)
    (count : (files items).length = calls) (ok : ∀ item ∈ items, item.WellFormed fs.codepage)
    (remaining : Nonempty (Remaining fs file (items.flatMap Item.entries) at')) (sound : unicache.Sound fs.codepage)
    (enough : (items.flatMap Item.entries).length < fuel) :
    ∃ dirents file' unicache', readdirs fs stack fuel calls file unicache = some (dirents,file',unicache') ∧
      dirents.map Dirent.dName = (files items).map (fun f => f.displayName fs.codepage ++ [0]) ∧
      unicache'.Sound fs.codepage ∧
      (EndSeen items at' → ∃ rest : List Item, (∀ item ∈ rest, item.file? = none ∧ item.WellFormed fs.codepage) ∧
        Nonempty (Remaining fs file' (rest.flatMap Item.entries) at')) := by
  induction calls generalizing items file unicache with
  | zero =>
    have none' := List.eq_nil_of_length_eq_zero count
    refine ⟨[],file,unicache,rfl,by rw [none']; rfl,sound,fun _ => ⟨items,?_,remaining⟩⟩
    exact fun item mem => ⟨List.filterMap_eq_nil_iff.mp none' item mem,ok item mem⟩
  | succ calls ih =>
    rcases Scan.firstNotPassed (fun item : Item => item.file? = none) items with all | ⟨before,item,behind,rfl,all,stop⟩
    · rw [(unusedEntries all ok).1] at count
      contradiction
    cases item with
    | unused de => exact absurd rfl stop
    | file f =>
      have okBefore : ∀ item ∈ before, item.WellFormed fs.codepage := fun item mem => ok item (by simp [mem])
      have okBehind : ∀ item ∈ behind, item.WellFormed fs.codepage := fun item mem => ok item (by simp [mem])
      have okFile : f.WellFormed fs.codepage := ok (.file f) (by simp)
      obtain ⟨noFile,unused⟩ := unusedEntries all okBefore
      have files' : files (before ++ .file f::behind) = f::files behind := by
        rw [files,List.filterMap_append]
        exact congrArg (· ++ f::files behind) noFile
      have entries : (before ++ .file f::behind).flatMap Item.entries =
          (before.flatMap Item.entries ++ f.slots) ++ f.de::behind.flatMap Item.entries := by
        simp [Item.entries]
      rw [files',List.length_cons] at count
      rw [entries] at remaining enough
      -- One call passes over what is not used and stops at the file.
      have start : ReadAt fs.codepage (readLocals (stack calls) unicache) := ⟨rfl,rfl,rfl,sound⟩
      obtain ⟨l₁,passed,at₁⟩ := Scan.turnsPass readUnused start unused
      obtain ⟨l₂,slots,shown⟩ := readFileSlots nul okFile at₁
      obtain ⟨l₃,stop',sound',name⟩ := readFileEntry okFile shown
      obtain ⟨remaining⟩ := remaining
      obtain ⟨offset,file',call,leaves⟩ := callListed large remaining (by rw [Scan.turnsAppend passed,slots]) stop'
      rw [List.length_append,List.length_cons] at enough
      unfold readdirs
      rw [call fuel (by omega),files']
      by_cases goesOn : GoesOn (behind.flatMap Item.entries) at'
      · obtain ⟨dirents,last,cache,rest,names,sound'',end'⟩ :=
          ih (by omega) okBehind (leaves goesOn) sound' (by omega)
        simp only [rest,bind,Option.bind]
        refine ⟨_,_,_,rfl,by rw [List.map_cons,List.map_cons,name,names],sound'',fun seen => end' ?_⟩
        rcases seen with ok' | last'
        · exact .inl ok'
        · refine .inr fun item mem => last' item ?_
          cases behind with
          | nil => simp at mem
          | cons => simpa using mem
      · rw [GoesOn,not_or,not_not] at goesOn
        have none' : behind = [] := by
          cases behind with
          | nil => rfl
          | cons item behind =>
            have empty := (List.append_eq_nil_iff.mp goesOn.1).1
            cases item with
            | unused => contradiction
            | file => simp [Item.entries] at empty
        subst none'
        have zero : calls = 0 := by simpa [files] using count.symm
        subst zero
        refine ⟨_,_,_,rfl,by simp [name,files],sound',fun seen => ?_⟩
        rcases seen with ok' | last'
        · exact absurd ok' goesOn.2
        · exact absurd (last' (.file f) (by simp)) (by simp [Item.file?])

end

/- The cursor of vfat_find_entry at the place of one of vfat_readdir. -/
def ReadCursor.cursor (k : ReadCursor) : Cursor := ⟨k.file.here,k.de,k.left⟩

theorem cursorAdvance (fs : FatFs) (k : ReadCursor) : fs.advance k.cursor = Scan.both ReadCursor.cursor (fs.readAdvance k) := by
  unfold FatFs.advance FatFs.readAdvance FatFs.sectorStart FatFs.readSector ReadCursor.cursor nextSector
  simp only
  split
  · split
    · rfl
    · rfl
  · rfl

/- The static cache as it can be: empty at first, then as a call leaves it. -/
inductive Reached (codepage : Codepage) : Unicache → Prop where
  | boot : Reached codepage fun _ => (0,0)
  | call {fs : FatFs} {stack : Nat → Nat} {unicache unicache' : Unicache} {file file' : DirFile} {fuel : Nat}
      {dirent : Option Dirent} (same : fs.codepage = codepage) (before : Reached codepage unicache)
      (done : vfatReaddir fs stack unicache file fuel = some (.done dirent file' unicache')) : Reached codepage unicache'

def TurnSound (codepage : Codepage) : Turn ReadLocals (ReadLocals × Bool) → Prop
  | .next l => l.unicache.Sound codepage
  | .stop (l,_) => l.unicache.Sound codepage
  | .fault => True

theorem readSlotSound {codepage : Codepage} {l : ReadLocals} (sound : l.unicache.Sound codepage) (id : Nat) (de : DirEntry) :
    TurnSound codepage (readSlot codepage l id de) := by
  unfold readSlot
  simp only
  split
  · trivial
  split
  · exact sound
  split
  · trivial
  · rename_i converted
    exact cvtSound sound converted

theorem readTurnSound {codepage : Codepage} {l : ReadLocals} (sound : l.unicache.Sound codepage) (de : DirEntry) :
    TurnSound codepage (readTurn codepage l de) := by
  have slot : ∀ (l₁ : ReadLocals) (id : Nat), l₁.unicache = l.unicache → TurnSound codepage (readSlot codepage l₁ id de) :=
    fun l₁ id same => readSlotSound (same ▸ sound) id de
  unfold readTurn
  split
  · exact sound
  split
  · exact sound
  split
  · simp only
    split
    · split
      · exact sound
      · exact slot _ _ rfl
    · split
      · exact sound
      · exact slot l _ rfl
  split
  · exact sound
  split
  · exact sound
  · exact sound

theorem reachedSound {codepage : Codepage} (nul : codepage.NulIsNul) {unicache : Unicache} (reached : Reached codepage unicache) :
    unicache.Sound codepage := by
  induction reached with
  | boot => exact zeroSound nul
  | @call fs stack before after _ _ _ _ same _ done ih =>
    subst same
    unfold vfatReaddir at done
    obtain ⟨outcome,ends,result⟩ := Option.map_eq_some_iff.mp done
    have start : (readLocals stack before).unicache.Sound fs.codepage := ih
    have keep : ∀ (l : ReadLocals) de l', l.unicache.Sound fs.codepage → readTurn fs.codepage l de = .next l' →
        l'.unicache.Sound fs.codepage := by
      intro l de l' inv next
      have turned := readTurnSound inv de
      rw [next] at turned
      exact turned
    have last : ∀ (l : ReadLocals) de r, l.unicache.Sound fs.codepage → readTurn fs.codepage l de = .stop r →
        r.1.unicache.Sound fs.codepage := by
      intro l de r inv stop
      have turned := readTurnSound inv de
      rw [stop] at turned
      exact turned
    have kept := Scan.scanKeeps keep last start ends
    cases outcome with
    | stopped k r =>
      obtain ⟨l,got⟩ := r
      have last := kept.1 k (l,got) rfl
      cases got with
      | false => cases result; exact last
      | true => cases result; exact last
    | ended k l =>
      cases result
      exact kept.2 k l rfl
    | fault => contradiction

section
variable {codepage : Codepage} {f : FileItem}

theorem displayAnswers (generated : codepage.Generated) (ok : f.WellFormed codepage) :
    0 ∉ f.displayName codepage ∧ (f.displayName codepage).length ≤ 260 ∧
      f.answers codepage (f.displayName codepage) = true := by
  unfold FileItem.displayName FileItem.answers FileItem.answersLong
  cases long : f.longShown codepage with
  | none =>
    obtain ⟨noNul,short⟩ := shortNameFits generated ok.form
    rw [Option.getD_none,mangleShortName generated ok.form ok.kept]
    exact ⟨noNul,by omega,by simp⟩
  | some name =>
    rw [Option.getD_some]
    unfold FileItem.longShown at long
    split at long
    · rename_i shown
      obtain ⟨matched,noNul⟩ := convertMatches generated.toNulIsNul ok.units long
      have length := matchesLength matched
      have few := ok.length
      have some' : f.units ≠ [] := by
        intro empty
        rw [empty] at shown
        exact absurd shown.1 (by decide)
      exact ⟨noNul,by omega,by simp [matched,some']⟩
    · contradiction

end

theorem listInDirectory {fs : FatFs} {start : Nat} {items : List Item} {end' : Except Cursor Cursor}
    (large : 9 ≤ fs.vol.sectorShift) (nul : fs.codepage.NulIsNul) (dir : Directory fs start items end')
    (stack : Nat → Nat → Nat) {unicache : Unicache} (sound : unicache.Sound fs.codepage) :
    ∃ fuel dirents file unicache',
      readdirs fs stack fuel (files items).length (openDir start) unicache = some (dirents,file,unicache') ∧
      dirents.map Dirent.dName = (files items).map (fun f => f.displayName fs.codepage ++ [0]) ∧
      (EndSeen items end' → ∀ stack', ∃ fuel file' unicache'',
        vfatReaddir fs stack' unicache' file fuel = some (.done none file' unicache'')) := by
  obtain ⟨opened,placed⟩ := placedOpened large start
  have ahead : Ahead fs.entry fs.advance (Scan.both ReadCursor.cursor (fs.readOpened start))
      (items.flatMap Item.entries) end' := by
    have first : fs.sectorStart start = Scan.both ReadCursor.cursor (fs.readOpened start) := if_neg dir.used
    exact first ▸ dir.ahead
  obtain ⟨at',lifted,same⟩ := Scan.aheadLift (fun _ => rfl) (cursorAdvance fs) ahead
  have zero : (openDir start).offset = 0 := rfl
  have small := dir.small
  have remaining : Nonempty (Remaining fs (openDir start) (items.flatMap Item.entries) at') :=
    ⟨⟨_,opened,placed,lifted,by rw [zero]; omega,fun _ _ => by rw [zero]; omega⟩⟩
  obtain ⟨dirents,file,unicache',calls,names,sound',last⟩ := readdirsFiles large nul stack
    ((items.flatMap Item.entries).length + 1) _ rfl dir.wellFormed remaining sound (by omega)
  refine ⟨_,dirents,file,unicache',calls,names,fun seen stack' => ?_⟩
  have seen' : EndSeen items at' := by
    rcases seen with ⟨k,ok⟩ | none'
    · cases at' with
      | ok k' => exact .inl ⟨k',rfl⟩
      | error k' =>
        rw [ok] at same
        contradiction
    · exact .inr none'
  -- The call behind the last file.
  obtain ⟨rest,unused,⟨remaining'⟩⟩ := last seen'
  have passed := (unusedEntries (fun item mem => (unused item mem).1) fun item mem => (unused item mem).2).2
  have start' : ReadAt fs.codepage (readLocals stack' unicache') := ⟨rfl,rfl,rfl,sound'⟩
  obtain ⟨l,through,_⟩ := Scan.turnsPass readUnused start' passed
  have mark : ∀ k, at' = .ok k → (fs.readEntry k) 0 = 0 := by
    rintro k rfl
    exact dir.mark k.cursor same.symm
  obtain ⟨file',call⟩ := callEnded remaining' through mark (Nat.lt_succ_self _)
  exact ⟨_,file',_,call⟩

theorem fileWellFormed {codepage : Codepage} {items : List Item} {f : FileItem}
    (ok : ∀ item ∈ items, item.WellFormed codepage) (mem : f ∈ files items) : f.WellFormed codepage := by
  obtain ⟨item,inside,eq⟩ := List.mem_filterMap.mp mem
  cases item with
  | unused => contradiction
  | file f' =>
    cases eq
    exact ok _ inside

/- Lookup and listing of a well-formed directory. Lookup gives the first file that answers to
a name; the calls give the files in their order, each by a name that it answers to. -/
theorem directoriesAgree (fs : FatFs) (large : 9 ≤ fs.vol.sectorShift) (generated : fs.codepage.Generated) (start : Nat)
    (items : List Item) (end' : Except Cursor Cursor) (dir : Directory fs start items end') :
    (∀ stack dname, 0 ∉ dname → dname.length ≤ 260 → ∃ fuel, vfatFindEntry fs stack dname start fuel =
      some (match (files items).find? (FileItem.answers fs.codepage dname) with
        | some f => .found (foundInode fs f.de)
        | none => .null)) ∧
    (∀ stack unicache, Reached fs.codepage unicache → ∃ fuel dirents file unicache',
      readdirs fs stack fuel (files items).length (openDir start) unicache = some (dirents,file,unicache') ∧
      dirents.map Dirent.dName = (files items).map (fun f => f.displayName fs.codepage ++ [0]) ∧
      (EndSeen items end' → ∀ stack', ∃ fuel file' unicache'',
        vfatReaddir fs stack' unicache' file fuel = some (.done none file' unicache''))) ∧
    ∀ f ∈ files items, f.answers fs.codepage (f.displayName fs.codepage) = true ∧ ∀ stack, ∃ fuel first,
      (files items).find? (FileItem.answers fs.codepage (f.displayName fs.codepage)) = some first ∧
      vfatFindEntry fs stack (f.displayName fs.codepage) start fuel = some (.found (foundInode fs first.de)) := by
  have nul := generated.toNulIsNul
  refine ⟨fun stack dname noNul short => findInDirectory nul dir stack noNul short,?_,?_⟩
  · intro stack unicache reached
    exact listInDirectory large nul dir stack (reachedSound nul reached)
  · intro f mem
    obtain ⟨noNul,short,answers⟩ := displayAnswers generated (fileWellFormed dir.wellFormed mem)
    refine ⟨answers,fun stack => ?_⟩
    obtain ⟨fuel,found⟩ := findInDirectory nul dir stack noNul short
    cases first : (files items).find? (FileItem.answers fs.codepage (f.displayName fs.codepage)) with
    | none => exact absurd answers (by simpa using List.find?_eq_none.mp first f mem)
    | some g =>
      simp only [first] at found
      exact ⟨fuel,g,rfl,found⟩

theorem plainGenerated : plainCodepage.Generated := ⟨plainNul,fun _ _ => rfl,rfl,fun _ _ => rfl⟩

/- The file ABCDEFGH.IJK, without a long name. -/
def smallFile : FileItem := ⟨[],[],smallFs.entry ⟨2,0,15⟩⟩

theorem plainForm {base ext : Bytes} (some' : base ≠ []) (eight : base.length ≤ 8) (three : ext.length ≤ 3)
    (chars : (base ++ ext).all fun c => ¬c ≤ space ∧ c ≠ dot ∧ c ≠ slash) : ShortForm plainCodepage (padTo 8 base ++ padTo 3 ext) := by
  have plain : ∀ c ∈ base ++ ext, plainCodepage.Plain c := by
    intro c mem
    obtain ⟨visible,noDot,noSlash⟩ := of_decide_eq_true (List.all_eq_true.mp chars c mem)
    exact ⟨visible,noDot,noSlash,rfl⟩
  exact .plain _ _ some' eight three (fun c mem => plain c (List.mem_append_left _ mem)) fun c mem => plain c (List.mem_append_right _ mem)

theorem smallDirectory : Directory smallFs 2 [.file smallFile] (.ok ⟨2,32,14⟩) := by
  refine ⟨by decide,.cons (.nil _),fun k same => ?_,fun item mem => ?_,by decide⟩
  · cases same
    decide
  · cases List.mem_singleton.mp mem
    refine ⟨by decide,by decide,by decide,by decide,?_,by simp [smallFile],by decide,.nil⟩
    rw [show smallFile.de.name = padTo 8 [65,66,67,68,69,70,71,72] ++ padTo 3 [73,74,75] by decide]
    exact plainForm (by simp) (by decide) (by decide) (by decide)

/- A root directory with the file "a longer name.txt", whose name takes two slots, a deleted entry and
the file ABCDEFGH.IJK. -/
def longSector : List UInt8 :=
  [0x42,46,0,116,0,120,0,116,0,0,0,0x0f,0,10] ++ List.replicate 12 0xff ++ [0,0] ++ List.replicate 4 0xff ++
  [1,97,0,32,0,108,0,111,0,110,0,0x0f,0,10,103,0,101,0,114,0,32,0,110,0,97,0,0,0,109,0,101,0] ++
  [65,76,79,78,71,69,126,49,84,88,84,0x20] ++ List.replicate 20 0 ++ [0xe5] ++ List.replicate 31 0 ++
  [65,66,67,68,69,70,71,72,73,74,75,0x20]
def longFs : FatFs := ⟨⟨9,1,2,3,10,1,0,.fat12,fun sector i => if sector = 2 then longSector.getD i 0 else 0⟩,0,0,plainCodepage⟩
def longName : List Nat := [97,32,108,111,110,103,101,114,32,110,97,109,101,46,116,120,116]
def longFile : FileItem := ⟨longName,[longFs.entry ⟨2,0,15⟩,longFs.entry ⟨2,32,14⟩],longFs.entry ⟨2,64,13⟩⟩
def plainFile : FileItem := ⟨[],[],longFs.entry ⟨2,128,11⟩⟩
def longItems : List Item := [.file longFile,.unused (longFs.entry ⟨2,96,12⟩),.file plainFile]

theorem longDirectory : Directory longFs 2 longItems (.ok ⟨2,160,10⟩) := by
  have long : longFile.de.name = padTo 8 [65,76,79,78,71,69,126,49] ++ padTo 3 [84,88,84] := by decide
  have plain : plainFile.de.name = padTo 8 [65,66,67,68,69,70,71,72] ++ padTo 3 [73,74,75] := by decide
  refine ⟨by decide,.cons (.cons (.cons (.cons (.cons (.nil _))))),fun k same => ?_,fun item mem => ?_,by decide⟩
  · cases same
    decide
  simp only [longItems,List.mem_cons,List.not_mem_nil,or_false] at mem
  rcases mem with rfl | rfl | rfl
  · refine ⟨by decide,by decide,by decide,by decide,?_,by decide,by decide,?_⟩
    · rw [long]
      exact plainForm (by simp) (by decide) (by decide) (by decide)
    · exact .cons ⟨by decide,by decide,by decide,by decide⟩ (.cons ⟨by decide,by decide,by decide,by decide⟩ .nil)
  · exact ⟨by decide,Or.inl (by decide)⟩
  · refine ⟨by decide,by decide,by decide,by decide,?_,by simp [plainFile],by decide,.nil⟩
    rw [plain]
    exact plainForm (by simp) (by decide) (by decide) (by decide)

set_option maxRecDepth 4000 in
theorem directoriesAgreeLong :
    (∃ fuel dirents file unicache', readdirs longFs (fun _ _ => 0) fuel 2 (openDir 2) (fun _ => (0,0)) =
        some (dirents,file,unicache') ∧ dirents.map Dirent.dName =
          [[97,32,108,111,110,103,101,114,32,110,97,109,101,46,116,120,116,0],[65,66,67,68,69,70,71,72,46,73,74,75,0]]) ∧
      ∃ fuel, vfatFindEntry longFs (fun _ => 0) [97,32,108,111,110,103,101,114,32,110,97,109,101,46,116,120,116] 2 fuel =
        some (.found (foundInode longFs longFile.de)) := by
  have both := directoriesAgree longFs (by decide) plainGenerated 2 _ _ longDirectory
  constructor
  · obtain ⟨fuel,dirents,file,unicache',calls,names,_⟩ := both.2.1 (fun _ _ => 0) _ .boot
    exact ⟨fuel,dirents,file,unicache',calls,names⟩
  · exact both.1 (fun _ => 0) [97,32,108,111,110,103,101,114,32,110,97,109,101,46,116,120,116] (by decide) (by decide)

/- What a search finds has that name, up to case, as its long name or as the short name that
is shown. -/
def FoundByName (fs : FatFs) (start : Nat) (items : List Item) : Prop :=
  ∀ stack dname fuel inode, 0 ∉ dname → vfatFindEntry fs stack dname start fuel = some (.found inode) →
    ∃ f ∈ files items, inode = foundInode fs f.de ∧ (f.answersLong fs.codepage dname = true ∨
      dname.map fs.codepage.upper = (shortName fs.codepage f.de).map fs.codepage.upper)

/- The file is found by ABCDEFGHIJK as well. -/
theorem foundWithoutDot : smallFs.codepage.Generated ∧ Directory smallFs 2 [.file smallFile] (.ok ⟨2,32,14⟩) ∧
    ¬FoundByName smallFs 2 [.file smallFile] := by
  refine ⟨plainGenerated,smallDirectory,fun claim => ?_⟩
  obtain ⟨f,mem,_,long | short⟩ := claim (fun _ => 0) [65,66,67,68,69,70,71,72,73,74,75] 1 _ (by decide) rfl
  · cases List.mem_singleton.mp mem
    contradiction
  · cases List.mem_singleton.mp mem
    revert short
    decide

end Syslinux.FatDir
