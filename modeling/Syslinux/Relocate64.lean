import Syslinux.ElfRelocate

/-! perform_relocation and resolve_symbols of com32/lib/sys/module/x86_64/elf_module.c, with what the
psABI asks for. The entries are viewed as Elf64_Rel; what lies behind is the addend of a table with
addends. What enforce_dependency records is left out. -/
namespace Syslinux.Elf.X64
open WordMemory

def rOffset (mem : Memory) (rel : Nat) : Nat := readWord 64 8 mem rel
def rInfo (mem : Memory) (rel : Nat) : Nat := readWord 64 8 mem (rel+8)
def rAddend (mem : Memory) (rel : Nat) : Nat := readWord 64 8 mem (rel+16)

/- ELF64_R_SYM, and ELF64_R_TYPE in an unsigned char. -/
def rSym (mem : Memory) (rel : Nat) : Nat := rInfo mem rel / 2^32
def rType (mem : Memory) (rel : Nat) : Nat := rInfo mem rel % 2^8

def rNone : Nat := 0
def r64 : Nat := 1
def rPc32 : Nat := 2
def rCopy : Nat := 5
def rGlobDat : Nat := 6
def rJumpSlot : Nat := 7
def rRelative : Nat := 8

section
variable (fuel : Nat) (modules : List Image) (m : Image)

def destOf (mem : Memory) (rel : Nat) : Nat := moduleGetAbsolute 64 (rOffset mem rel) m

def performRelocation : Effect := fun mem rel => do
  let dest := destOf m mem rel
  let type := rType mem rel
  match ← symbolOf 64 fuel modules m mem (rSym mem rel) with
  | none => some none
  | some (symAddr,size) =>
    if type = rNone then some (some mem)
    else if type = r64 then some (some (writeWord 64 8 mem dest (readWord 64 8 mem dest + symAddr)))
    else if type = rPc32 then
      some (some (writeWord 64 8 mem dest (readWord 64 8 mem dest + symAddr + (2^64 - dest % 2^32))))
    else if type = rCopy then some (some (if 0 < symAddr then copyBytes 64 size mem dest symAddr else mem))
    else if type = rGlobDat ∨ type = rJumpSlot then some (some (writeWord 64 8 mem dest symAddr))
    else if type = rRelative then some (some (writeWord 64 8 mem dest (readWord 64 8 mem dest + m.baseAddr)))
    else some none

/- The same entry by the psABI, for the symbol that the loader selects. -/
def psabiRelocation : Effect := fun mem rel => do
  let place := destOf m mem rel
  let type := rType mem rel
  let addend := rAddend mem rel
  match ← symbolOf 64 fuel modules m mem (rSym mem rel) with
  | none => some none
  | some (symAddr,size) =>
    if type = rNone then some (some mem)
    else if type = r64 then some (some (writeWord 64 8 mem place (symAddr + addend)))
    else if type = rPc32 then some (some (writeWord 64 4 mem place (symAddr + addend + (2^64 - place))))
    else if type = rCopy then some (some (if 0 < symAddr then copyBytes 64 size mem place symAddr else mem))
    else if type = rGlobDat ∨ type = rJumpSlot then some (some (writeWord 64 8 mem place symAddr))
    else if type = rRelative then some (some (writeWord 64 8 mem place (m.baseAddr + addend)))
    else some none

/- The types of the psABI that are known. -/
def known (mem : Memory) (rel : Nat) : Bool :=
  rType mem rel ∈ [rNone,r64,rPc32,rCopy,rGlobDat,rJumpSlot,rRelative]

def SymbolFound (mem : Memory) (rel : Nat) : Prop :=
  ∃ found, symbolOf 64 fuel modules m mem (rSym mem rel) = some (some found)

/- The locals of resolve_symbols. -/
structure Tables where
  pltRelSize : Nat
  pltRel : Nat
  rel : Nat
  relSize : Nat
  relEntry : Nat
  relaSize : Nat
  relaEntry : Nat
  symEnt : Nat

def noTables : Tables := ⟨0,0,0,0,0,0,0,0⟩

/- The switch; there is no break behind DT_PLTREL. -/
def setTable (t : Tables) (e : Nat × Nat) : Tables where
  pltRelSize := if e.1 = dtPltrelsz then e.2 % 2^32 else t.pltRelSize
  pltRel := if e.1 = dtPltrel ∨ e.1 = dtJmprel then moduleGetAbsolute 64 e.2 m else t.pltRel
  rel := if e.1 = dtRel ∨ e.1 = dtRela then moduleGetAbsolute 64 e.2 m else t.rel
  relSize := if e.1 = dtRelsz then e.2 % 2^32 else t.relSize
  relEntry := if e.1 = dtRelent then e.2 % 2^32 else t.relEntry
  relaSize := if e.1 = dtRelasz then e.2 else t.relaSize
  relaEntry := if e.1 = dtRelaent then e.2 else t.relaEntry
  symEnt := if e.1 = dtSyment then e.2 else t.symEnt

def refuses (e : Nat × Nat) : Bool := e.1 = dtPltrel && e.2 ≠ dtRel && e.2 ≠ dtRela

def scanDynamic : Dynamic → Tables → Option Tables
  | [],t => some t
  | e::rest,t => if refuses e then none else scanDynamic rest (setTable m t e)

def resolveSymbols (dyn : Dynamic) (mem : Memory) : Ending × History :=
  let perform := performRelocation fuel modules m
  match scanDynamic m dyn noTables with
  | none => (.refused,[])
  | some t =>
    let stride := if t.relaEntry = 0 then t.symEnt else t.relaEntry
    walk perform (entriesOf 64 t.relSize t.relEntry t.rel) mem fun mem =>
    walk perform (entriesOf 64 t.relaSize t.relaEntry t.rel) mem fun mem =>
    walk perform (entriesOf 64 t.pltRelSize stride t.pltRel) mem fun _ => (.done,[])

end

def sizeofRela : Nat := 24

/- The tags that resolve_symbols looks at. -/
def relevant : List Nat :=
  [dtPltrelsz,dtRela,dtRelasz,dtRelaent,dtSyment,dtRel,dtRelsz,dtRelent,dtPltrel,dtJmprel]

/- The tables of a module as its dynamic section announces them, in any order: both, one or none, at
an offset and of a size. DT_SYMENT is always there where there are symbols. No table reaches around
the end of the address space. -/
structure RelaTables (dyn : Dynamic) (rela plt : Option (Nat × Nat)) : Prop where
  lists : (dyn.filter (·.1 ∈ relevant)).Perm
    ((rela.elim [] fun (at1,size) => [(dtRela,at1),(dtRelasz,size),(dtRelaent,sizeofRela)]) ++
     (plt.elim [] fun (at1,size) => [(dtJmprel,at1),(dtPltrelsz,size),(dtPltrel,dtRela)]) ++ [(dtSyment,24)])
  relaSmall : ∀ t, rela = some t → t.2 < 2^32
  pltSmall : ∀ t, plt = some t → t.2 < 2^32
  pltInside : ∀ t, plt = some t → t.1 + t.2 ≤ 2^64

def tableEntries (m : Image) (table : Option (Nat × Nat)) : List Nat :=
  table.elim [] fun (at1,size) =>
    (List.range (size / sizeofRela)).map fun i => (moduleGetAbsolute 64 at1 m + i*sizeofRela) % 2^64

/- The word at the place is the addend, and the sum of a 32-bit field stays in its half. -/
def InPlace (fuel : Nat) (modules : List Image) (m : Image) (mem : Memory) (rel : Nat) : Prop :=
  ∀ symAddr size, symbolOf 64 fuel modules m mem (rSym mem rel) = some (some (symAddr,size)) →
    let word := readWord 64 8 mem (destOf m mem rel)
    (rType mem rel = r64 ∨ rType mem rel = rRelative → word = rAddend mem rel) ∧
    (rType mem rel = rPc32 → word % 2^32 = rAddend mem rel % 2^32 ∧
      (word % 2^32 + symAddr + (2^64 - destOf m mem rel % 2^32)) % 2^64 < 2^32)

/- The last of DT_PLTREL and DT_JMPREL gives the address, unless the value of DT_PLTREL is the offset. -/
def Located (dyn : Dynamic) (plt : Option (Nat × Nat)) : Prop :=
  ∀ at1 size, plt = some (at1,size) → sizeofRela ≤ size →
    lastOf [dtPltrel,dtJmprel] dyn = some (dtJmprel,at1) ∨ at1 % 2^64 = dtRela

/- The second table asks for nothing, and what is taken for its first entry is refused. -/
def Idle (fuel : Nat) (modules : List Image) (m : Image) (plt : Option (Nat × Nat)) (mem : Memory) : Prop :=
  (∀ rel ∈ tableEntries m plt, known mem rel = false) ∧
    let taken := moduleGetAbsolute 64 dtRela m
    ¬ (known mem taken = true ∧ SymbolFound fuel modules m mem taken)

section
variable {fuel : Nat} {modules : List Image} {m : Image} {mem : Memory} {rel : Nat}

theorem pc32Half {word symAddr place addend : Nat} (inside : place < 2^64) :
    (word + symAddr + (2^64 - place % 2^32)) % 2^64 =
        ((symAddr + addend + (2^64 - place)) % 2^32 + 2^32*(word / 2^32)) % 2^64 ↔
      word % 2^32 = addend % 2^32 ∧ (word % 2^32 + symAddr + (2^64 - place % 2^32)) % 2^64 < 2^32 := by
  have low : (word % 2^32 + symAddr + (2^64 - place % 2^32)) % 2^64 % 2^32 =
      (word % 2^32 + symAddr + (2^32 - place % 2^32)) % 2^32 := by omega
  have high : (symAddr + addend + (2^64 - place)) % 2^32 = (addend % 2^32 + symAddr + (2^32 - place % 2^32)) % 2^32 := by
    omega
  constructor
  · intro same
    have cancel : (word % 2^32 + symAddr + (2^64 - place % 2^32)) % 2^64 =
        (symAddr + addend + (2^64 - place)) % 2^32 := by omega
    omega
  · rintro ⟨addends,small⟩
    have cancel : (word % 2^32 + symAddr + (2^64 - place % 2^32)) % 2^64 =
        (symAddr + addend + (2^64 - place)) % 2^32 := by omega
    omega

theorem destSmall : destOf m mem rel < 2^64 := Nat.mod_lt _ (by norm_num)

theorem wordSmall (mem : Memory) (a : Nat) : readWord 64 8 mem a < 2^64 := readSmall

theorem addIff {place extra : Nat} {word addend : Nat} (small : word < 2^64) (small1 : addend < 2^64) :
    writeWord 64 8 mem place (word + extra) = writeWord 64 8 mem place (extra + addend) ↔ word = addend := by
  rw [writeIff (by norm_num)]
  omega

theorem pc32Iff (symAddr addend : Nat) {place : Nat} (inside : place < 2^64) :
    writeWord 64 8 mem place (readWord 64 8 mem place + symAddr + (2^64 - place % 2^32)) =
        writeWord 64 4 mem place (symAddr + addend + (2^64 - place)) ↔
      readWord 64 8 mem place % 2^32 = addend % 2^32 ∧
        (readWord 64 8 mem place % 2^32 + symAddr + (2^64 - place % 2^32)) % 2^64 < 2^32 := by
  rw [writeNarrow (show 4 ≤ 8 by norm_num),writeIff (by norm_num)]
  exact pc32Half inside

theorem performIff (mem : Memory) (rel : Nat) :
    performRelocation fuel modules m mem rel = psabiRelocation fuel modules m mem rel ↔
      InPlace fuel modules m mem rel := by
  unfold performRelocation psabiRelocation InPlace
  cases selected : symbolOf 64 fuel modules m mem (rSym mem rel) with
  | none => simp
  | some found =>
    rcases found with _ | ⟨symAddr,size⟩
    · simp
    · simp only [Option.some.injEq,Prod.mk.injEq,bind,Option.bind]
      by_cases is64 : rType mem rel = r64
      · simp [is64,rNone,r64,rRelative,rPc32,addIff (wordSmall mem _) (wordSmall mem _),rAddend]
      by_cases isPc : rType mem rel = rPc32
      · simp only [isPc,rNone,r64,rRelative,rPc32]
        simp only [OfNat.ofNat_ne_zero,OfNat.ofNat_ne_one,if_false,if_true,Option.some.injEq]
        simpa using pc32Iff symAddr (rAddend mem rel) destSmall
      by_cases isRelative : rType mem rel = rRelative
      · simp [isRelative,rNone,r64,rRelative,rPc32,rCopy,rGlobDat,rJumpSlot,
          addIff (wordSmall mem _) (wordSmall mem _),rAddend]
      · simp [is64,isPc,isRelative]

theorem performDone (mem : Memory) (rel : Nat) :
    (∃ mem', performRelocation fuel modules m mem rel = some (some mem')) ↔
      known mem rel = true ∧ SymbolFound fuel modules m mem rel := by
  unfold performRelocation known SymbolFound
  cases symbolOf 64 fuel modules m mem (rSym mem rel) with
  | none => simp
  | some found =>
    rcases found with _ | ⟨symAddr,size⟩
    · simp
    · simp only [bind,Option.bind]
      generalize rType mem rel = type
      split_ifs <;> simp_all [← or_assoc]

theorem psabiDone (mem : Memory) (rel : Nat) :
    (∃ mem', psabiRelocation fuel modules m mem rel = some (some mem')) ↔
      known mem rel = true ∧ SymbolFound fuel modules m mem rel := by
  unfold psabiRelocation known SymbolFound
  cases symbolOf 64 fuel modules m mem (rSym mem rel) with
  | none => simp
  | some found =>
    rcases found with _ | ⟨symAddr,size⟩
    · simp
    · simp only [bind,Option.bind]
      generalize rType mem rel = type
      split_ifs <;> simp_all [← or_assoc]

theorem performFails (mem : Memory) (rel : Nat) (unknown : known mem rel = false) (mem' : Memory) :
    performRelocation fuel modules m mem rel ≠ some (some mem') := by
  intro called
  have knows := ((performDone mem rel).mp ⟨mem',called⟩).1
  rw [unknown] at knows
  cases knows

theorem psabiFails (mem : Memory) (rel : Nat) (unknown : known mem rel = false) (mem' : Memory) :
    psabiRelocation fuel modules m mem rel ≠ some (some mem') := by
  intro called
  have knows := ((psabiDone mem rel).mp ⟨mem',called⟩).1
  rw [unknown] at knows
  cases knows

theorem scanFolds {dyn : Dynamic} {t : Tables} (accepts : ∀ e ∈ dyn, refuses e = false) :
    scanDynamic m dyn t = some (dyn.foldl (setTable m) t) := by
  induction dyn generalizing t with
  | nil => rfl
  | cons e rest ih =>
    rw [scanDynamic,accepts e List.mem_cons_self,if_neg (by simp)]
    exact ih fun e inside => accepts e (List.mem_cons_of_mem _ inside)

variable {dyn : Dynamic} {rela plt : Option (Nat × Nat)}

theorem accepted (announced : RelaTables dyn rela plt) : ∀ e ∈ dyn, refuses e = false := by
  rintro ⟨tag,val⟩ inside
  by_cases tagged : tag = dtPltrel
  · subst tagged
    have listed := announced.lists.subset (List.mem_filter.mpr ⟨inside,by simp [relevant]⟩)
    rcases rela with _ | ⟨at1,size1⟩ <;> rcases plt with _ | ⟨at2,size2⟩ <;>
      simp [dtPltrel,dtSyment,dtRela,dtRelasz,dtRelaent,dtJmprel,dtPltrelsz] at listed
    all_goals simp [refuses,dtRela,listed]
  · simp [refuses,tagged]

/- The PLT's entries where the code looks for them. -/
def pltEntries (m : Image) (dyn : Dynamic) (plt : Option (Nat × Nat)) : List Nat :=
  plt.elim [] fun (_,size) => (List.range (size / sizeofRela)).map fun i =>
    (((lastOf [dtPltrel,dtJmprel] dyn).map fun e => moduleGetAbsolute 64 e.2 m).getD 0 + i*sizeofRela) % 2^64

structure Scanned (m : Image) (dyn : Dynamic) (rela plt : Option (Nat × Nat)) (t : Tables) : Prop where
  relSize : t.relSize = 0
  relaSize : t.relaSize = (rela.map Prod.snd).getD 0
  relaEntry : t.relaEntry = (rela.map fun _ => sizeofRela).getD 0
  symEnt : t.symEnt = 24
  rel : t.rel = (rela.map fun r => moduleGetAbsolute 64 r.1 m).getD 0
  pltRelSize : t.pltRelSize = (plt.map fun p => p.2 % 2^32).getD 0
  pltRel : t.pltRel = ((lastOf [dtPltrel,dtJmprel] dyn).map fun e => moduleGetAbsolute 64 e.2 m).getD 0

theorem scanned (m : Image) (announced : RelaTables dyn rela plt) :
    Scanned m dyn rela plt (dyn.foldl (setTable m) noTables) := by
  have perm := announced.lists
  constructor
  · exact lastIsSet (· % 2^32) [dtRelsz] none (fun _ _ => by simp [setTable]) perm (by decide)
      (by rcases rela with _ | _ <;> rcases plt with _ | _ <;> rfl) rfl
  · exact lastIsSet id [dtRelasz] (rela.map fun r => (dtRelasz,r.2)) (fun _ _ => by simp [setTable]) perm (by decide)
      (by rcases rela with _ | _ <;> rcases plt with _ | _ <;> rfl) (by cases rela <;> rfl)
  · exact lastIsSet id [dtRelaent] (rela.map fun _ => (dtRelaent,sizeofRela)) (fun _ _ => by simp [setTable]) perm
      (by decide) (by rcases rela with _ | _ <;> rcases plt with _ | _ <;> rfl) (by cases rela <;> rfl)
  · exact lastIsSet id [dtSyment] (some (dtSyment,24)) (fun _ _ => by simp [setTable]) perm (by decide)
      (by rcases rela with _ | _ <;> rcases plt with _ | _ <;> rfl) rfl
  · exact lastIsSet (moduleGetAbsolute 64 · m) [dtRel,dtRela] (rela.map fun r => (dtRela,r.1))
      (fun _ _ => by simp [setTable]) perm (by decide)
      (by rcases rela with _ | _ <;> rcases plt with _ | _ <;> rfl) (by cases rela <;> rfl)
  · exact lastIsSet (· % 2^32) [dtPltrelsz] (plt.map fun p => (dtPltrelsz,p.2)) (fun _ _ => by simp [setTable]) perm
      (by decide) (by rcases rela with _ | _ <;> rcases plt with _ | _ <;> rfl) (by cases plt <;> rfl)
  · exact lastSets (setTable m) Tables.pltRel (moduleGetAbsolute 64 · m) [dtPltrel,dtJmprel]
      (fun _ _ => by simp [setTable]) dyn noTables

theorem resolves (announced : RelaTables dyn rela plt) : resolveSymbols fuel modules m dyn mem =
    relocate (performRelocation fuel modules m) (tableEntries m rela ++ pltEntries m dyn plt) mem := by
  have found := scanned m announced
  rw [resolveSymbols,scanFolds (accepted announced)]
  generalize dyn.foldl (setTable m) noTables = t at found
  have first : entriesOf 64 t.relSize t.relEntry t.rel = some [] := by rw [found.relSize]; rfl
  have second : entriesOf 64 t.relaSize t.relaEntry t.rel = some (tableEntries m rela) := by
    rw [found.relaSize,found.relaEntry,found.rel]
    cases rela with
    | none => rfl
    | some r => exact countable (announced.relaSmall r rfl) (show 0 < sizeofRela by decide)
  have stride : (if t.relaEntry = 0 then t.symEnt else t.relaEntry) = sizeofRela := by
    rw [found.relaEntry,found.symEnt]
    cases rela <;> rfl
  have third : entriesOf 64 t.pltRelSize sizeofRela t.pltRel = some (pltEntries m dyn plt) := by
    rw [found.pltRelSize,found.pltRel]
    cases plt with
    | none => rfl
    | some p =>
      have small := announced.pltSmall p rfl
      simp only [Option.map_some,Option.getD_some,Nat.mod_eq_of_lt small]
      exact countable small (show 0 < sizeofRela by decide)
  simp only [first,second,stride,third,walkDone,walkRelocate,List.nil_append]

theorem pltLast (announced : RelaTables dyn rela plt) {at1 size : Nat} (there : plt = some (at1,size)) :
    lastOf [dtPltrel,dtJmprel] dyn = some (dtJmprel,at1) ∨ lastOf [dtPltrel,dtJmprel] dyn = some (dtPltrel,dtRela) := by
  subst there
  exact lastTwo _ announced.lists (by decide) (by rcases rela with _ | _ <;> rfl)

theorem pltPlaced (announced : RelaTables dyn rela plt) (located : Located dyn plt) :
    pltEntries m dyn plt = tableEntries m plt := by
  rcases plt with _ | ⟨at1,size⟩
  · rfl
  by_cases some1 : sizeofRela ≤ size
  · rcases located at1 size rfl some1 with last | same
    · simp [pltEntries,tableEntries,last]
    · rcases pltLast announced rfl with last | last
      · simp [pltEntries,tableEntries,last]
      · have base : moduleGetAbsolute 64 dtRela m = moduleGetAbsolute 64 at1 m := by
          unfold moduleGetAbsolute dtRela at *
          omega
        simp [pltEntries,tableEntries,last,base]
  · have none1 : size / sizeofRela = 0 := Nat.div_eq_of_lt (by omega)
    simp [pltEntries,tableEntries,none1]

theorem pltElsewhere (m : Image) (announced : RelaTables dyn rela plt) (missed : ¬ Located dyn plt) :
    ∃ rest, pltEntries m dyn plt = moduleGetAbsolute 64 dtRela m::rest ∧
      ∀ rel ∈ tableEntries m plt, rel ≠ moduleGetAbsolute 64 dtRela m := by
  simp only [Located,not_forall,not_or] at missed
  obtain ⟨at1,size,there,some1,other,offset⟩ := missed
  have last := (pltLast announced there).resolve_left other
  have inside := announced.pltInside _ there
  subst there
  obtain ⟨n,more⟩ : ∃ n, size / sizeofRela = n + 1 := ⟨size / sizeofRela - 1,by unfold sizeofRela at some1 ⊢; omega⟩
  refine ⟨(pltEntries m dyn (some (at1,size))).tail,?_,?_⟩
  · simp [pltEntries,last,more,List.range_succ_eq_map,moduleGetAbsolute]
  · intro rel listed same
    obtain ⟨i,counted,rfl⟩ := List.mem_map.mp listed
    have few := List.mem_range.mp counted
    have address : moduleGetAbsolute 64 (at1 + i*sizeofRela) m % 2^64 = moduleGetAbsolute 64 dtRela m % 2^64 := by
      unfold moduleGetAbsolute at same ⊢
      omega
    have offsets := absoluteSame.1 address
    have below : at1 + i*sizeofRela < 2^64 := by
      unfold sizeofRela at *
      dsimp only at inside
      omega
    rw [Nat.mod_eq_of_lt below] at offsets
    unfold sizeofRela dtRela at *
    omega

theorem pltAsked (announced : RelaTables dyn rela plt) (mem : Memory) :
    asked (psabiRelocation fuel modules m) known (tableEntries m plt) mem =
        some (relocate (performRelocation fuel modules m) (pltEntries m dyn plt) mem).2 ↔
      Ready (psabiRelocation fuel modules m) known (InPlace fuel modules m) (tableEntries m plt) mem ∧
        (Located dyn plt ∨ Idle fuel modules m plt mem) := by
  by_cases located : Located dyn plt
  · rw [pltPlaced announced located]
    simpa [located] using askedIff performIff performFails psabiFails
  obtain ⟨rest,entries,apart⟩ := pltElsewhere m announced located
  rw [entries]
  constructor
  · intro same
    cases history : (relocate (performRelocation fuel modules m) (moduleGetAbsolute 64 dtRela m::rest) mem).2 with
    | nil =>
      rw [history] at same
      have unknown := askedNone.1 same
      refine ⟨readyIdle unknown,.inr ⟨unknown,fun served => ?_⟩⟩
      obtain ⟨mem',called⟩ := (performDone mem _).mpr served
      simp [relocate,called] at history
    | cons call calls =>
      rw [history] at same
      exact absurd (relocateFirst history) (apart _ (askedMem same call List.mem_cons_self))
  · rintro ⟨-,found | idle⟩
    · exact absurd found located
    · have refused (mem' : Memory) :
          performRelocation fuel modules m mem (moduleGetAbsolute 64 dtRela m) ≠ some (some mem') :=
        fun called => idle.2 ((performDone mem _).mp ⟨mem',called⟩)
      rw [(relocateFails refused).1]
      exact askedNone.2 idle.1

/- Every entry of a known type has been relocated in order as the psABI says, and nothing else is done. -/
def Relocated (fuel : Nat) (modules : List Image) (m : Image) (dyn : Dynamic) (rela plt : Option (Nat × Nat))
    (mem : Memory) : Prop :=
  asked (psabiRelocation fuel modules m) known (tableEntries m rela ++ tableEntries m plt) mem =
    some (resolveSymbols fuel modules m dyn mem).2

/- When their turns come in the psABI's run, the entries of known types have their symbols and their
addends are in place, and behind an entry of another type there are no more of them. The address of
the second table, where it comes to that, is the last one set. -/
structure Prepared (fuel : Nat) (modules : List Image) (m : Image) (dyn : Dynamic) (rela plt : Option (Nat × Nat))
    (mem : Memory) : Prop where
  addends : Ready (psabiRelocation fuel modules m) known (InPlace fuel modules m)
    (tableEntries m rela ++ tableEntries m plt) mem
  located : let first := relocate (psabiRelocation fuel modules m) (tableEntries m rela) mem
    first.1 = .done → Located dyn plt ∨ Idle fuel modules m plt (lastMem mem first.2)

theorem relocatedIff (fuel : Nat) (modules : List Image) (m : Image) (dyn : Dynamic) (rela plt : Option (Nat × Nat))
    (mem : Memory) (announced : RelaTables dyn rela plt) :
    Relocated fuel modules m dyn rela plt mem ↔ Prepared fuel modules m dyn rela plt mem := by
  rw [Relocated,resolves announced,askedPrefix performIff performFails psabiFails (pltAsked announced)]
  exact ⟨fun h => ⟨h.1,h.2⟩,fun h => ⟨h.addends,h.located⟩⟩

end

/- A module at 1 MiB with one entry, R_X86_64_RELATIVE with addend 16 for the word at 0x200, and
what that word holds. -/
def oneImage : Image := ⟨0x100000,0,0,0,0,0,0⟩

def oneTable : Dynamic := [(dtRela,0x100),(dtRelasz,24),(dtRelaent,24),(dtSyment,24)]

def oneEntry (word : UInt8) : Memory := fun q =>
  if q = 0x100101 then 2 else if q = 0x100108 then 8 else if q = 0x100110 then 0x10
  else if q = 0x100200 then word else 0

theorem oneAnnounced : RelaTables oneTable (some (0x100,24)) none :=
  ⟨by decide,by rintro _ ⟨⟩; decide,by rintro _ ⟨⟩,by rintro _ ⟨⟩⟩

theorem oneReady (word : UInt8) (typed : rType (oneEntry word) 0x100100 = rRelative)
    (nameless : rSym (oneEntry word) 0x100100 = 0) :
    Ready (psabiRelocation 1 [] oneImage) known (InPlace 1 [] oneImage)
        (tableEntries oneImage (some (0x100,24)) ++ tableEntries oneImage none) (oneEntry word) ↔
      InPlace 1 [] oneImage (oneEntry word) 0x100100 := by
  have entries : tableEntries oneImage (some (0x100,24)) ++ tableEntries oneImage none = [0x100100] := by decide
  have knows : known (oneEntry word) 0x100100 = true := by simp [known,typed]
  have found : SymbolFound 1 [] oneImage (oneEntry word) 0x100100 := ⟨(0,0),by rw [nameless]; rfl⟩
  have served := (psabiDone (oneEntry word) 0x100100).mpr ⟨knows,found⟩
  rw [entries,Ready,if_pos knows]
  simpa [Ready] using fun _ => served

/- Linkers leave nothing at the place; there the addend is lost. -/
theorem addendLost : ¬ ∀ fuel modules m dyn rela plt mem, RelaTables dyn rela plt →
    Relocated fuel modules m dyn rela plt mem := by
  intro all
  have same := all 1 [] oneImage oneTable (some (0x100,24)) none (oneEntry 0) oneAnnounced
  rw [Relocated,resolves oneAnnounced,show pltEntries oneImage oneTable none = tableEntries oneImage none by rfl,
    askedIff performIff performFails psabiFails,oneReady 0 (by decide) (by decide)] at same
  exact absurd ((same 0 0 rfl).1 (.inr (by decide))) (by decide)

theorem addendKept : Relocated 1 [] oneImage oneTable (some (0x100,24)) none (oneEntry 0x10) := by
  rw [relocatedIff _ _ _ _ _ _ _ oneAnnounced]
  constructor
  · rw [oneReady 0x10 (by decide) (by decide)]
    rintro symAddr size -
    exact ⟨fun _ => by decide,fun pc32 => absurd pc32 (by decide)⟩
  · rintro first -
    exact .inl (by rintro at1 size ⟨⟩)

end Syslinux.Elf.X64
