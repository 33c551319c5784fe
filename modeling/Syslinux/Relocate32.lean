import Syslinux.ElfRelocate

/-! perform_relocation and resolve_symbols of com32/lib/sys/module/i386/elf_module.c and the part of
module_load that calls it, with what the psABI asks for. What enforce_dependency records and what
the constructors do is left out. -/
namespace Syslinux.Elf.X86
open WordMemory

def rOffset (mem : Memory) (rel : Nat) : Nat := readWord 32 4 mem rel
def rInfo (mem : Memory) (rel : Nat) : Nat := readWord 32 4 mem (rel+4)

/- ELF32_R_SYM and ELF32_R_TYPE. -/
def rSym (mem : Memory) (rel : Nat) : Nat := rInfo mem rel / 2^8
def rType (mem : Memory) (rel : Nat) : Nat := rInfo mem rel % 2^8

def rNone : Nat := 0
def r32 : Nat := 1
def rPc32 : Nat := 2
def rCopy : Nat := 5
def rGlobDat : Nat := 6
def rJmpSlot : Nat := 7
def rRelative : Nat := 8

section
variable (fuel : Nat) (modules : List Image) (m : Image)

def destOf (mem : Memory) (rel : Nat) : Nat := moduleGetAbsolute 32 (rOffset mem rel) m

def performRelocation : Effect := fun mem rel => do
  let dest := destOf m mem rel
  let type := rType mem rel
  let word := readWord 32 4 mem dest
  match ← symbolOf 32 fuel modules m mem (rSym mem rel) with
  | none => some none
  | some (symAddr,size) =>
    if type = rNone then some (some mem)
    else if type = r32 then some (some (writeWord 32 4 mem dest (word + symAddr)))
    else if type = rPc32 then some (some (writeWord 32 4 mem dest (word + (symAddr + (2^32 - dest)) % 2^32)))
    else if type = rCopy then some (some (if 0 < symAddr then copyBytes 32 size mem dest symAddr else mem))
    else if type = rGlobDat ∨ type = rJmpSlot then some (some (writeWord 32 4 mem dest symAddr))
    else if type = rRelative then some (some (writeWord 32 4 mem dest (word + m.baseAddr)))
    else some none

/- The types of the psABI that are known; the addend is the word at the place. -/
inductive Kind
  | none | abs32 | pc32 | copy | globDat | jmpSlot | relative

def kindOf : Nat → Option Kind
  | 0 => some .none
  | 1 => some .abs32
  | 2 => some .pc32
  | 5 => some .copy
  | 6 => some .globDat
  | 7 => some .jmpSlot
  | 8 => some .relative
  | _ => none

/- The value for the symbol's address s, the addend a, the place p and the base b. -/
def fieldValue (s a p b : Int) : Kind → Option Int
  | .none => none
  | .abs32 => some (s + a)
  | .pc32 => some (s + a - p)
  | .copy => none
  | .globDat => some s
  | .jmpSlot => some s
  | .relative => some (b + a)

/- The entry by the psABI, for the symbol that the loader selects. -/
def psabiRelocation : Effect := fun mem rel => do
  let place := destOf m mem rel
  match ← symbolOf 32 fuel modules m mem (rSym mem rel),kindOf (rType mem rel) with
  | some (symAddr,size),some kind =>
    match fieldValue symAddr (readWord 32 4 mem place) place m.baseAddr kind with
    | some value => some (some (writeWord 32 4 mem place (value % 2^32).toNat))
    | none =>
      match kind with
      | .copy => some (some (if 0 < symAddr then copyBytes 32 size mem place symAddr else mem))
      | _ => some (some mem)
  | _,_ => some none

def Supported (mem : Memory) (rel : Nat) : Prop :=
  (∃ found, symbolOf 32 fuel modules m mem (rSym mem rel) = some (some found)) ∧ kindOf (rType mem rel) ≠ none

/- The locals of resolve_symbols. -/
structure Tables where
  pltRelSize : Nat
  pltRel : Nat
  rel : Nat
  relSize : Nat
  relEntry : Nat

def noTables : Tables := ⟨0,0,0,0,0⟩

/- The switch; there is no break behind DT_PLTREL. -/
def setTable (t : Tables) (e : Nat × Nat) : Tables where
  pltRelSize := if e.1 = dtPltrelsz then e.2 else t.pltRelSize
  pltRel := if e.1 = dtPltrel ∨ e.1 = dtJmprel then moduleGetAbsolute 32 e.2 m else t.pltRel
  rel := if e.1 = dtRel then moduleGetAbsolute 32 e.2 m else t.rel
  relSize := if e.1 = dtRelsz then e.2 else t.relSize
  relEntry := if e.1 = dtRelent then e.2 else t.relEntry

def refuses (e : Nat × Nat) : Bool := e.1 = dtPltrel && e.2 ≠ dtRel

def scanDynamic : Dynamic → Tables → Option Tables
  | [],t => some t
  | e::rest,t => if refuses e then none else scanDynamic rest (setTable m t e)

def sizeofRel : Nat := 8

def resolveSymbols (dyn : Dynamic) (mem : Memory) : Ending × History :=
  let perform := performRelocation fuel modules m
  match scanDynamic m dyn noTables with
  | none => (.refused,[])
  | some t =>
    walk perform (entriesOf 32 t.relSize t.relEntry t.rel) mem fun mem =>
    walk perform (entriesOf 32 t.pltRelSize sizeofRel t.pltRel) mem fun _ => (.done,[])

def countDefinitions (mem : Memory) (name : Name) : List Image → Option (Nat × Nat)
  | [] => some (0,0)
  | crtModule::rest => do
    let found ← moduleFindSymbol 32 (symbolsOf 32 fuel mem crtModule) name fuel
    let (strong,weak) ← countDefinitions mem name rest
    match found with
    | none => some (strong,weak)
    | some i =>
      let refSym := readSym 32 fuel mem crtModule i
      if refSym.shndx = 0 then some (strong,weak)
      else if stBind refSym.info = stbGlobal then some (strong+1,weak)
      else if stBind refSym.info = stbWeak then some (strong,weak+1)
      else some (strong,weak)

/- check_symbols from its i-th symbol on; false for -1. -/
def checkFrom (mem : Memory) : List Nat → Option Bool
  | [] => some true
  | i::rest => do
    let crtSym := readSym 32 fuel mem m i
    if fuel ≤ crtSym.name.length then none else
    let (strong,weak) ← countDefinitions fuel mem crtSym.name modules
    if crtSym.shndx = 0 ∧ strong = 0 ∧ weak + (if stBind crtSym.info = stbWeak then 1 else 0) = 0 then some false
    else checkFrom mem rest

def checkSymbols (mem : Memory) : Option Bool :=
  if m.symentSize = 0 then none
  else checkFrom fuel modules m mem (List.range' 1 (m.symtableSize / m.symentSize - 1))

/- "__ctors_start", "__ctors_end", "__dtors_start", "__dtors_end" -/
def ctorsStart : Name := [0x5f,0x5f,0x63,0x74,0x6f,0x72,0x73,0x5f,0x73,0x74,0x61,0x72,0x74]
def ctorsEnd : Name := [0x5f,0x5f,0x63,0x74,0x6f,0x72,0x73,0x5f,0x65,0x6e,0x64]
def dtorsStart : Name := [0x5f,0x5f,0x64,0x74,0x6f,0x72,0x73,0x5f,0x73,0x74,0x61,0x72,0x74]
def dtorsEnd : Name := [0x5f,0x5f,0x64,0x74,0x6f,0x72,0x73,0x5f,0x65,0x6e,0x64]

/- A table of extract_operations, where both its symbols are there; whether malloc gives room for it. -/
def extractTable (mem : Memory) (start stop : Name) (allocated : Bool) : Option Bool := do
  let first ← moduleFindSymbol 32 (symbolsOf 32 fuel mem m) start fuel
  let last ← moduleFindSymbol 32 (symbolsOf 32 fuel mem m) stop fuel
  some (first = none ∨ last = none ∨ allocated)

/- false for -1. What the tables hold is left out. -/
def extractOperations (mem : Memory) (allocated : Bool × Bool) : Option Bool := do
  match ← extractTable fuel m mem ctorsStart ctorsEnd allocated.1 with
  | true => extractTable fuel m mem dtorsStart dtorsEnd allocated.2
  | false => some false

/- "main" -/
def mainName : Name := [0x6d,0x61,0x69,0x6e]

/- module_load once the dependencies are there: its return value and what resolve_symbols did, whose
own return value is not looked at. -/
def moduleLoad (dyn : Dynamic) (allocated : Bool × Bool) (mem : Memory) : Option (Int × Ending × History) := do
  match ← checkSymbols fuel modules m mem with
  | false => some (-1,.done,[])
  | true =>
    let _ ← moduleFindSymbol 32 (symbolsOf 32 fuel mem m) mainName fuel
    let resolved := resolveSymbols fuel (m::modules) m dyn mem
    match resolved.1 with
    | .stuck _ => none
    | .uncounted => none
    | _ =>
      let fine ← extractOperations fuel m (lastMem mem resolved.2) allocated
      some (if fine then 0 else -1,resolved)

end

/- The tags that resolve_symbols looks at. -/
def relevant : List Nat := [dtPltrelsz,dtRel,dtRelsz,dtRelent,dtPltrel,dtJmprel]

structure RelTables (dyn : Dynamic) (rel plt : Nat × Nat) : Prop where
  lists : (dyn.filter (·.1 ∈ relevant)).Perm
    [(dtRel,rel.1),(dtRelsz,rel.2),(dtRelent,sizeofRel),(dtJmprel,plt.1),(dtPltrelsz,plt.2),(dtPltrel,dtRel)]
  relSmall : rel.2 < 2^32
  pltSmall : plt.2 < 2^32

def tableEntries (m : Image) (table : Nat × Nat) : List Nat :=
  (List.range (table.2 / sizeofRel)).map fun i => (moduleGetAbsolute 32 table.1 m + i*sizeofRel) % 2^32

def entries (m : Image) (rel plt : Nat × Nat) : List Nat := tableEntries m rel ++ tableEntries m plt

/- The last of DT_PLTREL and DT_JMPREL gives the address, unless the value of DT_PLTREL is the offset
or the table is empty. -/
def Located (dyn : Dynamic) (plt : Nat × Nat) : Prop :=
  sizeofRel ≤ plt.2 → lastOf [dtPltrel,dtJmprel] dyn = some (dtJmprel,plt.1) ∨ plt.1 % 2^32 = dtRel

section
variable {fuel : Nat} {modules : List Image} {m : Image} {mem : Memory} {dyn : Dynamic} {rel plt : Nat × Nat}

theorem absSame (place a s : Nat) :
    writeWord 32 4 mem place (a + s) = writeWord 32 4 mem place (((s:Int) + a) % 2^32).toNat := by
  rw [writeIff (by norm_num)]
  omega

theorem pcSame {place : Nat} (a s : Nat) (inside : place < 2^32) :
    writeWord 32 4 mem place (a + (s + (2^32 - place)) % 2^32) =
      writeWord 32 4 mem place (((s:Int) + a - place) % 2^32).toNat := by
  rw [writeIff (by norm_num)]
  omega

theorem wordSame (place s : Nat) :
    writeWord 32 4 mem place s = writeWord 32 4 mem place ((s:Int) % 2^32).toNat := by
  rw [writeIff (by norm_num)]
  omega

theorem destSmall (m : Image) (mem : Memory) (rel : Nat) : destOf m mem rel < 2^32 := Nat.mod_lt _ (by norm_num)

/- On i386 the word at the place is the addend, and every entry gets its value. -/
theorem performPsabi : performRelocation fuel modules m = psabiRelocation fuel modules m := by
  funext mem rel
  unfold performRelocation psabiRelocation
  cases selected : symbolOf 32 fuel modules m mem (rSym mem rel) with
  | none => simp
  | some found =>
    rcases found with _ | ⟨symAddr,size⟩
    · simp
    · simp only [bind,Option.bind]
      have inside := destSmall m mem rel
      generalize rType mem rel = type
      by_cases isNone : type = rNone
      · subst isNone
        rfl
      by_cases is32 : type = r32
      · subst is32
        simpa [rNone,r32,kindOf,fieldValue] using absSame _ _ _
      by_cases isPc : type = rPc32
      · subst isPc
        simpa [rNone,r32,rPc32,kindOf,fieldValue] using pcSame _ _ inside
      by_cases isCopy : type = rCopy
      · subst isCopy
        rfl
      by_cases isGlob : type = rGlobDat
      · subst isGlob
        simpa [rNone,r32,rPc32,rCopy,rGlobDat,kindOf,fieldValue] using wordSame _ _
      by_cases isJmp : type = rJmpSlot
      · subst isJmp
        simpa [rNone,r32,rPc32,rCopy,rGlobDat,rJmpSlot,kindOf,fieldValue] using wordSame _ _
      by_cases isRelative : type = rRelative
      · subst isRelative
        simpa [rNone,r32,rPc32,rCopy,rGlobDat,rJmpSlot,rRelative,kindOf,fieldValue] using absSame _ _ _
      · have unknown : kindOf type = none := by
          unfold kindOf
          split <;> first | rfl | contradiction
        simp [isNone,is32,isPc,isCopy,isGlob,isJmp,isRelative,unknown]

theorem supportedIff (mem : Memory) (rel : Nat) :
    (∃ mem', psabiRelocation fuel modules m mem rel = some (some mem')) ↔ Supported fuel modules m mem rel := by
  unfold psabiRelocation Supported
  cases symbolOf 32 fuel modules m mem (rSym mem rel) with
  | none => simp
  | some found =>
    rcases found with _ | ⟨symAddr,size⟩
    · simp
    · simp only [bind,Option.bind]
      cases kindOf (rType mem rel) with
      | none => simp
      | some kind => cases kind <;> simp [fieldValue]

theorem scanFolds {t : Tables} (accepts : ∀ e ∈ dyn, refuses e = false) :
    scanDynamic m dyn t = some (dyn.foldl (setTable m) t) := by
  induction dyn generalizing t with
  | nil => rfl
  | cons e rest ih =>
    rw [scanDynamic,accepts e List.mem_cons_self,if_neg (by simp)]
    exact ih fun e inside => accepts e (List.mem_cons_of_mem _ inside)

theorem accepted (announced : RelTables dyn rel plt) : ∀ e ∈ dyn, refuses e = false := by
  rintro ⟨tag,val⟩ inside
  by_cases tagged : tag = dtPltrel
  · subst tagged
    have listed := announced.lists.subset (List.mem_filter.mpr ⟨inside,by simp [relevant]⟩)
    simp [dtPltrel,dtRel,dtRelsz,dtRelent,dtJmprel,dtPltrelsz] at listed
    simp [refuses,dtRel,listed]
  · simp [refuses,tagged]

/- The PLT's entries where the code looks for them. -/
def pltEntries (m : Image) (dyn : Dynamic) (plt : Nat × Nat) : List Nat :=
  (List.range (plt.2 / sizeofRel)).map fun i =>
    (((lastOf [dtPltrel,dtJmprel] dyn).map fun e => moduleGetAbsolute 32 e.2 m).getD 0 + i*sizeofRel) % 2^32

structure Scanned (m : Image) (dyn : Dynamic) (rel plt : Nat × Nat) (t : Tables) : Prop where
  relSize : t.relSize = rel.2
  relEntry : t.relEntry = sizeofRel
  relAt : t.rel = moduleGetAbsolute 32 rel.1 m
  pltRelSize : t.pltRelSize = plt.2
  pltRel : t.pltRel = ((lastOf [dtPltrel,dtJmprel] dyn).map fun e => moduleGetAbsolute 32 e.2 m).getD 0

theorem scanned (m : Image) (announced : RelTables dyn rel plt) :
    Scanned m dyn rel plt (dyn.foldl (setTable m) noTables) := by
  have perm := announced.lists
  constructor
  · exact lastIsSet id [dtRelsz] (some (dtRelsz,rel.2)) (fun _ _ => by simp [setTable]) perm (by decide) rfl rfl
  · exact lastIsSet id [dtRelent] (some (dtRelent,sizeofRel)) (fun _ _ => by simp [setTable]) perm (by decide) rfl rfl
  · exact lastIsSet (moduleGetAbsolute 32 · m) [dtRel] (some (dtRel,rel.1)) (fun _ _ => by simp [setTable]) perm
      (by decide) rfl rfl
  · exact lastIsSet id [dtPltrelsz] (some (dtPltrelsz,plt.2)) (fun _ _ => by simp [setTable]) perm (by decide) rfl rfl
  · exact lastSets (setTable m) Tables.pltRel (moduleGetAbsolute 32 · m) [dtPltrel,dtJmprel]
      (fun _ _ => by simp [setTable]) dyn noTables

theorem resolves (announced : RelTables dyn rel plt) : resolveSymbols fuel modules m dyn mem =
    relocate (psabiRelocation fuel modules m) (tableEntries m rel ++ pltEntries m dyn plt) mem := by
  have found := scanned m announced
  rw [resolveSymbols,scanFolds (accepted announced)]
  generalize dyn.foldl (setTable m) noTables = t at found
  have first : entriesOf 32 t.relSize t.relEntry t.rel = some (tableEntries m rel) := by
    rw [found.relSize,found.relEntry,found.relAt]
    exact countable announced.relSmall (by decide)
  have second : entriesOf 32 t.pltRelSize sizeofRel t.pltRel = some (pltEntries m dyn plt) := by
    rw [found.pltRelSize,found.pltRel]
    exact countable announced.pltSmall (by decide)
  simp only [first,second,walkDone,walkRelocate,performPsabi]

theorem pltLocated (announced : RelTables dyn rel plt) : pltEntries m dyn plt = tableEntries m plt ↔ Located dyn plt := by
  have counted : plt.2 / sizeofRel = 0 ∨ sizeofRel ≤ plt.2 := by
    unfold sizeofRel
    omega
  rcases counted with none1 | some1
  · have few : ¬ sizeofRel ≤ plt.2 := by
      unfold sizeofRel at none1 ⊢
      omega
    simp [pltEntries,tableEntries,none1,Located,few]
  obtain ⟨n,more⟩ : ∃ n, plt.2 / sizeofRel = n + 1 := ⟨plt.2 / sizeofRel - 1,by unfold sizeofRel at some1 ⊢; omega⟩
  rcases lastTwo [dtPltrel,dtJmprel] announced.lists (by decide) rfl with last | last
  · exact iff_of_true (by simp [pltEntries,tableEntries,last]) fun _ => .inl last
  · have first : plt.1 % 2^32 = dtRel ↔ moduleGetAbsolute 32 dtRel m % 2^32 = moduleGetAbsolute 32 plt.1 m % 2^32 := by
      rw [absoluteSame]
      unfold dtRel
      omega
    constructor
    · intro same _
      have heads := congrArg List.head? same
      simp only [pltEntries,tableEntries,last,more,List.range_succ_eq_map,List.map_cons,List.head?_cons] at heads
      refine .inr (first.mpr ?_)
      simpa using heads
    · intro located
      rcases located some1 with other | same
      · rw [last] at other
        cases other
      · rw [first,moduleGetAbsolute,moduleGetAbsolute,Nat.mod_mod,Nat.mod_mod] at same
        simp only [pltEntries,tableEntries,last,Option.map_some,Option.getD_some,moduleGetAbsolute,same]

/- Every entry of both tables has been relocated once, and as the psABI says. -/
structure Applied (fuel : Nat) (modules : List Image) (m : Image) (rel plt : Nat × Nat) (mem : Memory)
    (resolved : Ending × History) : Prop where
  calls : resolved.2.map Prod.fst = entries m rel plt
  once : (entries m rel plt).Nodup
  values : resolved = relocate (psabiRelocation fuel (m::modules) m) (entries m rel plt) mem

/- The address of the second table is the last one set, each entry can be relocated when its turn
comes, and none is in both tables. -/
structure Orderly (fuel : Nat) (modules : List Image) (m : Image) (dyn : Dynamic) (rel plt : Nat × Nat)
    (mem : Memory) : Prop where
  located : Located dyn plt
  supported : AtEach (psabiRelocation fuel (m::modules) m) (Supported fuel (m::modules) m) (entries m rel plt) mem
  apart : (entries m rel plt).Nodup

theorem loadResolves {allocated : Bool × Bool} {rc : Int} {resolved : Ending × History}
    (ran : moduleLoad fuel modules m dyn allocated mem = some (rc,resolved)) (success : rc = 0) :
    resolved = resolveSymbols fuel (m::modules) m dyn mem := by
  obtain ⟨passes,_,ran⟩ := Option.bind_eq_some_iff.mp ran
  cases passes with
  | false =>
    cases ran
    cases success
  | true =>
    obtain ⟨main,_,ran⟩ := Option.bind_eq_some_iff.mp ran
    simp only at ran
    split at ran
    · cases ran
    · cases ran
    · obtain ⟨fine,_,ran⟩ := Option.bind_eq_some_iff.mp ran
      cases ran
      rfl

theorem appliedIff (fuel : Nat) (modules : List Image) (m : Image) (dyn : Dynamic) (rel plt : Nat × Nat)
    (mem : Memory) (allocated : Bool × Bool) (resolved : Ending × History) (announced : RelTables dyn rel plt)
    (ran : moduleLoad fuel modules m dyn allocated mem = some (0,resolved)) :
    Applied fuel modules m rel plt mem resolved ↔ Orderly fuel modules m dyn rel plt mem := by
  rw [loadResolves ran rfl,resolves announced]
  have doneSupported : (relocate (psabiRelocation fuel (m::modules) m) (entries m rel plt) mem).1 = .done ↔
      AtEach (psabiRelocation fuel (m::modules) m) (Supported fuel (m::modules) m) (entries m rel plt) mem := by
    rw [doneIff]
    exact atEachSame supportedIff
  constructor
  · rintro ⟨calls,once,values⟩
    have all : (relocate (psabiRelocation fuel (m::modules) m) (entries m rel plt) mem).1 = .done := by
      refine callsDone ?_
      rw [← values,← calls,List.length_map]
    have called := doneCalls (by rw [values]; exact all :
      (relocate (psabiRelocation fuel (m::modules) m) (tableEntries m rel ++ pltEntries m dyn plt) mem).1 = .done)
    rw [calls] at called
    exact ⟨(pltLocated announced).mp (List.append_cancel_left called).symm,doneSupported.mp all,once⟩
  · rintro ⟨located,supported,apart⟩
    rw [(pltLocated announced).mpr located]
    exact ⟨doneCalls (doneSupported.mpr supported),apart,rfl⟩

end

/- A module at 1 MiB without symbols and with one R_386_RELATIVE in its second table, which lies
at 0x100; the order of the last entries of its dynamic section is open. -/
def oneImage : Image := ⟨0x100000,0,0,0,0,16,16⟩

def oneDynamic (last : Dynamic) : Dynamic := [(dtRel,0x80),(dtRelsz,0),(dtRelent,8),(dtPltrelsz,8)] ++ last

def jmprelFirst : Dynamic := oneDynamic [(dtJmprel,0x100),(dtPltrel,dtRel)]
def jmprelLast : Dynamic := oneDynamic [(dtPltrel,dtRel),(dtJmprel,0x100)]

def oneEntry : Memory := fun q => if q = 0x100101 then 2 else if q = 0x100104 then 8 else 0

theorem firstLoads : moduleLoad 2 [] oneImage jmprelFirst (true,true) oneEntry =
    some (0,.done,[(0x100011,oneEntry)]) := rfl

/- The value of DT_PLTREL is taken for the table's offset, and the entry is never looked at. -/
theorem entryMissed : ¬ ∀ fuel modules m dyn rel plt mem allocated resolved, RelTables dyn rel plt →
    moduleLoad fuel modules m dyn allocated mem = some (0,resolved) → Applied fuel modules m rel plt mem resolved := by
  intro all
  have applied := all 2 [] oneImage jmprelFirst (0x80,0) (0x100,8) oneEntry (true,true) _
    ⟨by decide,by decide,by decide⟩ firstLoads
  exact absurd applied.calls (by decide)

theorem entryApplied : ∃ resolved, moduleLoad 2 [] oneImage jmprelLast (true,true) oneEntry = some (0,resolved) ∧
    (Applied 2 [] oneImage (0x80,0) (0x100,8) oneEntry resolved ↔
      Orderly 2 [] oneImage jmprelLast (0x80,0) (0x100,8) oneEntry) :=
  ⟨_,rfl,appliedIff _ _ _ _ _ _ _ (true,true) _ ⟨by decide,by decide,by decide⟩ rfl⟩

end Syslinux.Elf.X86
