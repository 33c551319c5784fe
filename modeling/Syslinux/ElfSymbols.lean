import Syslinux.ElfHash

/-! Symbols by name: module_find_symbol of com32/lib/sys/module/common.c with its two hash tables
and its scan. A symbol is the number of its entry. A table is what lies at its address and around
it, in words of 32 bits. A division by zero and an endless walk have no result. -/
namespace Syslinux.Elf

structure Sym where
  name : Name
  value : Nat
  size : Nat
  info : Nat
  shndx : Nat

abbrev Table := Int → UInt32

def word (t : Table) (i : Int) : Nat := (t i).toNat

/- The members of elf_module that are used here; entry is symbol_get_entry. -/
structure Symbols where
  entry : Nat → Sym
  symtableSize : Nat
  symentSize : Nat
  hashTable : Option Table
  ghashTable : Option Table

def Symbols.count (m : Symbols) : Nat := m.symtableSize / m.symentSize

def nbucket (t : Table) : Nat := word t 0
def bkt (t : Table) (i : Nat) : Nat := word t (2 + i)
def chn (t : Table) (i : Nat) : Nat := word t (2 + nbucket t + i)

section
variable (m : Symbols) (name : Name)

def sysvWalk (t : Table) : Nat → Nat → Option (Option Nat)
  | 0,_ => none
  | fuel+1,crtIndex =>
    if crtIndex = 0 then some none
    else if name = (m.entry crtIndex).name then some (some crtIndex)
    else sysvWalk t fuel (chn t crtIndex)

variable (bits fuel : Nat)

def moduleFindSymbolSysv (t : Table) : Option (Option Nat) :=
  if nbucket t = 0 then none else sysvWalk m name t fuel (bkt t (elfHash bits name % nbucket t))

end

def symbias (t : Table) : Nat := word t 1
def bitmaskNwords (t : Table) : Nat := word t 2
def gnuShift (t : Table) : Nat := word t 3

section
variable (bits : Nat)

def gnuBitmask (t : Table) (i : Nat) : Nat :=
  if bits = 64 then word t (4 + 2*i) + 2^32*word t (4 + 2*i + 1) else word t (4 + i)

def gnuBuckets (t : Table) (i : Nat) : Nat := word t (4 + (bits / 32*bitmaskNwords t : Nat) + i)

def gnuChainZero (t : Table) : Int := 4 + (bits / 32*bitmaskNwords t : Nat) + nbucket t - symbias t

def gnuChain (t : Table) (i : Nat) : Nat := word t (gnuChainZero bits t + i)

def hashMatches (t : Table) (h i : Nat) : Bool := (gnuChain bits t i ^^^ h) >>> 1 = 0

def chainEnds (t : Table) (i : Nat) : Bool := gnuChain bits t i &&& 1 ≠ 0

variable (m : Symbols) (name : Name)

def gnuFinds (t : Table) (h i : Nat) : Bool := hashMatches bits t h i && name = (m.entry i).name

def gnuWalk (t : Table) (h : Nat) : Nat → Nat → Option (Option Nat)
  | 0,_ => none
  | fuel+1,i =>
    if gnuFinds bits m name t h i then some (some i)
    else if chainEnds bits t i then some none
    else gnuWalk t h fuel (i+1)

def filterPasses (t : Table) (h : Nat) : Bool :=
  let bitmaskWord := gnuBitmask bits t (h / bits &&& (bitmaskNwords t + (2^32 - 1)) % 2^32)
  let hashbit1 := h &&& (bits - 1)
  let hashbit2 := (h >>> gnuShift t) &&& (bits - 1)
  (bitmaskWord >>> hashbit1) &&& (bitmaskWord >>> hashbit2) &&& 1 ≠ 0

variable (fuel : Nat)

def moduleFindSymbolGnu (t : Table) : Option (Option Nat) :=
  let h := elfGnuHash bits name
  if bitmaskNwords t &&& (bitmaskNwords t + (2^32 - 1)) % 2^32 ≠ 0 then some none
  else if filterPasses bits t h then
    if nbucket t = 0 then none
    else
      let bucket := gnuBuckets bits t (h % nbucket t)
      if bucket ≠ 0 then gnuWalk bits m name t h fuel bucket else some none
  else some none

def moduleFindSymbolIterate (m : Symbols) (name : Name) : Option (Option Nat) :=
  if m.symentSize = 0 then none
  else some ((List.range' 1 (m.count - 1)).find? fun i => name = (m.entry i).name)

def moduleFindSymbol : Option (Option Nat) := do
  let result ← match m.ghashTable with
    | some t => moduleFindSymbolGnu bits m name fuel t
    | none => some none
  match result with
  | some i => some (some i)
  | none =>
    match m.hashTable with
    | some t => moduleFindSymbolSysv m name bits fuel t
    | none => moduleFindSymbolIterate m name

end

def Linked (t : Table) : Nat → List Nat → Prop
  | crtIndex,[] => crtIndex = 0
  | crtIndex,i::rest => crtIndex = i ∧ i ≠ 0 ∧ Linked t (chn t i) rest

/- Every bucket has a chain of symbols of the module, and of all symbols with its hash. -/
structure SysvConsistent (m : Symbols) (t : Table) : Prop where
  buckets : 0 < nbucket t
  chains : ∀ b < nbucket t, ∃ chain, Linked t (bkt t b) chain ∧ (∀ i ∈ chain, i < m.count) ∧
    ∀ i, 0 < i → i < m.count → abiHash (m.entry i).name % nbucket t = b → i ∈ chain

structure Run (bits : Nat) (t : Table) (first last : Nat) : Prop where
  ordered : first ≤ last
  goesOn : ∀ i, first ≤ i → i < last → chainEnds bits t i = false
  ends : chainEnds bits t last = true

/- The symbols from symbias on, each in the run of its bucket under its own hash, with both bits
in the filter. -/
structure GnuConsistent (bits : Nat) (m : Symbols) (t : Table) : Prop where
  buckets : 0 < nbucket t
  filter : ∃ k, bitmaskNwords t = 2^k
  shift : gnuShift t < 32
  runs : ∀ b < nbucket t, gnuBuckets bits t b ≠ 0 → symbias t ≤ gnuBuckets bits t b ∧
    ∃ last < m.count, Run bits t (gnuBuckets bits t b) last
  covers : ∀ i, symbias t ≤ i → i < m.count →
    let h := elfGnuHash 32 (m.entry i).name
    let first := gnuBuckets bits t (h % nbucket t)
    filterPasses bits t h = true ∧ first ≠ 0 ∧ first ≤ i ∧
      (∀ j, first ≤ j → j < i → chainEnds bits t j = false) ∧ hashMatches bits t h i = true

structure Consistent (bits : Nat) (m : Symbols) : Prop where
  entries : 0 < m.symentSize
  sysv : ∀ t, m.hashTable = some t → SysvConsistent m t
  gnu : ∀ t, m.ghashTable = some t → GnuConsistent bits m t

section
variable {m : Symbols} {name : Name} {t : Table}

theorem sysvWalks {crtIndex fuel : Nat} {chain : List Nat} (linked : Linked t crtIndex chain)
    (enough : chain.length < fuel) :
    sysvWalk m name t fuel crtIndex = some (chain.find? fun i => name = (m.entry i).name) := by
  induction chain generalizing crtIndex fuel with
  | nil =>
    obtain ⟨fuel,rfl⟩ := Nat.exists_eq_succ_of_ne_zero (Nat.ne_zero_of_lt enough)
    rw [show crtIndex = 0 from linked,sysvWalk,if_pos rfl]
    rfl
  | cons i rest ih =>
    obtain ⟨fuel,rfl⟩ := Nat.exists_eq_succ_of_ne_zero (Nat.ne_zero_of_lt enough)
    obtain ⟨rfl,inner,onward⟩ := linked
    rw [sysvWalk,if_neg inner]
    by_cases same : name = (m.entry crtIndex).name
    · rw [if_pos same,List.find?_cons_of_pos (by simpa using same)]
    · rw [if_neg same,List.find?_cons_of_neg (by simpa using same)]
      exact ih onward (by simpa using enough)

theorem linkedPos {crtIndex : Nat} {chain : List Nat} (linked : Linked t crtIndex chain) :
    ∀ i ∈ chain, 0 < i := by
  induction chain generalizing crtIndex with
  | nil => simp
  | cons i rest ih =>
    obtain ⟨-,inner,onward⟩ := linked
    intro j inside
    rcases List.mem_cons.mp inside with rfl | later
    · omega
    · exact ih onward j later

theorem gnuWalks {bits h first last fuel : Nat} (run : Run bits t first last) (enough : last - first < fuel) :
    gnuWalk bits m name t h fuel first = 
      some ((List.range' first (last - first + 1)).find? (gnuFinds bits m name t h)) := by
  obtain ⟨left,more⟩ : ∃ left, left = last - first := ⟨_,rfl⟩
  induction left generalizing first fuel with
  | zero =>
    obtain ⟨fuel,rfl⟩ := Nat.exists_eq_succ_of_ne_zero (Nat.ne_zero_of_lt enough)
    have ordered := run.ordered
    have same : first = last := by omega
    subst same
    rw [gnuWalk,if_pos run.ends,Nat.sub_self]
    by_cases found : gnuFinds bits m name t h first = true
    · rw [if_pos found]
      simp only [List.range'_succ,List.range'_zero]
      rw [List.find?_cons_of_pos found]
    · rw [if_neg found]
      simp only [List.range'_succ,List.range'_zero]
      rw [List.find?_cons_of_neg found]
      rfl
  | succ left ih =>
    obtain ⟨fuel,rfl⟩ := Nat.exists_eq_succ_of_ne_zero (Nat.ne_zero_of_lt enough)
    have ordered := run.ordered
    rw [gnuWalk,run.goesOn first (le_refl _) (by omega),List.range'_succ]
    by_cases found : gnuFinds bits m name t h first = true
    · rw [if_pos found,List.find?_cons_of_pos found]
    · rw [if_neg found,List.find?_cons_of_neg found,if_neg (by simp)]
      have rest : Run bits t (first+1) last :=
        ⟨by omega,fun i ge lt => run.goesOn i (by omega) lt,run.ends⟩
      rw [ih rest (by omega) (by omega),show last - (first+1) + 1 = last - first by omega]

def Sound (m : Symbols) (name : Name) (result : Option Nat) : Prop :=
  ∀ i, result = some i → 0 < i ∧ i < m.count ∧ (m.entry i).name = name

def Complete (m : Symbols) (name : Name) (result : Option Nat) : Prop :=
  ∀ i, 0 < i → i < m.count → (m.entry i).name = name → result ≠ none

theorem agree {result scanned : Option Nat} (sound : Sound m name result) (complete : Complete m name result)
    (scanSound : Sound m name scanned) (scanComplete : Complete m name scanned) :
    result.isSome ↔ scanned.isSome := by
  simp only [Option.isSome_iff_ne_none]
  constructor
  · intro some
    obtain ⟨i,found⟩ := Option.ne_none_iff_exists'.mp some
    obtain ⟨pos,inside,named⟩ := sound i found
    exact scanComplete i pos inside named
  · intro some
    obtain ⟨i,found⟩ := Option.ne_none_iff_exists'.mp some
    obtain ⟨pos,inside,named⟩ := scanSound i found
    exact complete i pos inside named

theorem iterates (entries : 0 < m.symentSize) : ∃ scanned,
    moduleFindSymbolIterate m name = some scanned ∧ Sound m name scanned ∧ Complete m name scanned := by
  refine ⟨_,by rw [moduleFindSymbolIterate,if_neg (by omega)],?_,?_⟩
  · intro i found
    have listed := List.mem_of_find?_eq_some found
    have named := List.find?_some found
    rw [List.mem_range'_1] at listed
    exact ⟨by omega,by omega,(of_decide_eq_true named).symm⟩
  · intro i pos inside named missing
    rw [List.find?_eq_none] at missing
    exact missing i (List.mem_range'_1.mpr ⟨by omega,by omega⟩) (by simp [named])

/- What a hash has to agree with is only what the linker stored. -/
theorem sysvFinds {bits : Nat} (consistent : SysvConsistent m t) (hash : elfHash bits name = abiHash name) :
    ∃ enough result, (∀ fuel, enough < fuel → moduleFindSymbolSysv m name bits fuel t = some result) ∧
      Sound m name result ∧ Complete m name result := by
  have buckets := consistent.buckets
  obtain ⟨chain,linked,inside,covers⟩ := consistent.chains _ (Nat.mod_lt (abiHash name) buckets)
  refine ⟨chain.length,chain.find? fun i => name = (m.entry i).name,?_,?_,?_⟩
  · intro fuel enough
    rw [moduleFindSymbolSysv,if_neg (by omega),hash]
    exact sysvWalks linked enough
  · intro i found
    have listed := List.mem_of_find?_eq_some found
    have named := List.find?_some found
    exact ⟨linkedPos linked i listed,inside i listed,(of_decide_eq_true named).symm⟩
  · intro i pos small named missing
    rw [List.find?_eq_none] at missing
    exact missing i (covers i pos small (by rw [named])) (by simp [named])

theorem filterWhole {bits : Nat} (consistent : GnuConsistent bits m t) :
    bitmaskNwords t &&& (bitmaskNwords t + (2^32 - 1)) % 2^32 = 0 := by
  obtain ⟨k,power⟩ := consistent.filter
  have fits : bitmaskNwords t < 2^32 := (t 2).toNat_lt
  rw [power] at fits ⊢
  have pos := Nat.two_pow_pos k
  rw [show (2^k + (2^32 - 1)) % 2^32 = 2^k - 1 by omega,Nat.and_two_pow_sub_one_eq_mod,Nat.mod_self]

theorem gnuResult {bits : Nat} (consistent : GnuConsistent bits m t) (same : elfGnuHash bits name = elfGnuHash 32 name) :
    ∃ enough result, (∀ fuel, enough < fuel → moduleFindSymbolGnu bits m name fuel t = some result) ∧
      Sound m name result ∧
      ∀ i, symbias t ≤ i → i < m.count → (m.entry i).name = name → result ≠ none := by
  have buckets := consistent.buckets
  have whole := filterWhole consistent
  generalize hashed : elfGnuHash 32 name = h at same
  by_cases passes : filterPasses bits t h = true
  · by_cases empty : gnuBuckets bits t (h % nbucket t) = 0
    · refine ⟨0,none,fun fuel _ => ?_,by simp [Sound],fun i ge lt named => ?_⟩
      · simp only [moduleFindSymbolGnu,same]
        rw [if_neg (by omega),if_pos passes,if_neg (by omega),if_neg (by omega)]
      · have stored := (consistent.covers i ge lt).2.1
        rw [named,hashed] at stored
        exact absurd empty stored
    · obtain ⟨biased,last,inside,run⟩ := consistent.runs _ (Nat.mod_lt h buckets) empty
      refine ⟨last - gnuBuckets bits t (h % nbucket t),
        (List.range' (gnuBuckets bits t (h % nbucket t)) (last - gnuBuckets bits t (h % nbucket t) + 1)).find?
          (gnuFinds bits m name t h),fun fuel enough => ?_,?_,?_⟩
      · simp only [moduleFindSymbolGnu,same]
        rw [if_neg (by omega),if_pos passes,if_neg (by omega),if_pos empty]
        exact gnuWalks run enough
      · intro i found
        have listed := List.mem_of_find?_eq_some found
        have named := List.find?_some found
        have ordered := run.ordered
        rw [List.mem_range'_1] at listed
        simp only [gnuFinds,Bool.and_eq_true] at named
        exact ⟨by omega,by omega,(of_decide_eq_true named.2).symm⟩
      · intro i ge lt named missing
        rw [List.find?_eq_none] at missing
        have stored := consistent.covers i ge lt
        simp only [named,hashed] at stored
        obtain ⟨-,-,behind,unflagged,matching⟩ := stored
        have reached : i ≤ last := by
          by_contra far
          have stops := unflagged last run.ordered (by omega)
          rw [run.ends] at stops
          cases stops
        refine missing i (List.mem_range'_1.mpr ⟨behind,by omega⟩) ?_
        simp [gnuFinds,matching,named]
  · refine ⟨0,none,fun fuel _ => ?_,by simp [Sound],fun i ge lt named => ?_⟩
    · simp only [moduleFindSymbolGnu,same]
      rw [if_neg (by omega),if_neg passes]
    · have stored := (consistent.covers i ge lt).1
      rw [named,hashed] at stored
      exact absurd stored passes

/- module_find_symbol finds a symbol exactly where the scan does, and under that name. -/
theorem findsAsScan {m : Symbols} (consistent : Consistent 32 m) (name : Name) :
    ∃ enough result scanned, (∀ fuel, enough < fuel → moduleFindSymbol 32 m name fuel = some result) ∧
      moduleFindSymbolIterate m name = some scanned ∧ (result.isSome ↔ scanned.isSome) ∧
      ∀ i, result = some i → (m.entry i).name = name := by
  obtain ⟨scanned,scans,scanSound,scanComplete⟩ := @iterates m name consistent.entries
  suffices whole : ∃ enough result, (∀ fuel, enough < fuel → moduleFindSymbol 32 m name fuel = some result) ∧
      Sound m name result ∧ Complete m name result by
    obtain ⟨enough,result,finds,sound,complete⟩ := whole
    exact ⟨enough,result,scanned,finds,scans,agree sound complete scanSound scanComplete,
      fun i found => (sound i found).2.2⟩
  -- what follows the table of the GNU hash
  have fallback : ∃ enough result, (∀ fuel, enough < fuel → (match m.hashTable with
      | some t => moduleFindSymbolSysv m name 32 fuel t
      | none => moduleFindSymbolIterate m name) = some result) ∧ Sound m name result ∧ Complete m name result := by
    cases table : m.hashTable with
    | none => exact ⟨0,scanned,fun _ _ => scans,scanSound,scanComplete⟩
    | some t => exact sysvFinds (consistent.sysv t table) (hash32 name)
  obtain ⟨enough,second,falls,secondSound,secondComplete⟩ := fallback
  cases table : m.ghashTable with
  | none =>
    refine ⟨enough,second,fun fuel more => ?_,secondSound,secondComplete⟩
    simp only [moduleFindSymbol,table,bind,Option.bind]
    exact falls fuel more
  | some t =>
    obtain ⟨room,first,finds,firstSound,-⟩ := @gnuResult m name t 32 (consistent.gnu t table) rfl
    cases first with
    | some i =>
      refine ⟨room,some i,fun fuel more => ?_,firstSound,by simp [Complete]⟩
      simp only [moduleFindSymbol,table,finds fuel more,bind,Option.bind]
    | none =>
      refine ⟨max room enough,second,fun fuel more => ?_,secondSound,secondComplete⟩
      simp only [moduleFindSymbol,table,finds fuel (by omega),bind,Option.bind]
      exact falls fuel (by omega)

def single : Symbols where
  entry i := ⟨if i = 1 then [97] else [],0,0,0,0⟩
  symtableSize := 32
  symentSize := 16
  hashTable := some fun i => [1,2,1,0,0].getD i.toNat 0
  ghashTable := some fun i => [1,1,1,0,0xFFFFFFFF,1,177671].getD i.toNat 0

theorem singleSysv : SysvConsistent single fun i => [1,2,1,0,0].getD i.toNat 0 where
  buckets := by decide
  chains b lt := by
    obtain rfl : b = 0 := by
      have one : nbucket (fun i => [1,2,1,0,0].getD i.toNat 0) = 1 := rfl
      omega
    refine ⟨[1],⟨rfl,by decide,rfl⟩,by decide,fun i pos small _ => ?_⟩
    have count : single.count = 2 := rfl
    rw [List.mem_singleton]
    omega

theorem singleGnu : GnuConsistent 32 single fun i => [1,1,1,0,0xFFFFFFFF,1,177671].getD i.toNat 0 where
  buckets := by decide
  filter := ⟨0,rfl⟩
  shift := by decide
  runs b lt _ := by
    obtain rfl : b = 0 := by
      have one : nbucket (fun i => [1,1,1,0,0xFFFFFFFF,1,177671].getD i.toNat 0) = 1 := rfl
      omega
    exact ⟨by decide,1,by decide,by decide,fun i ge lt => absurd (lt_of_le_of_lt ge lt) (by decide),by decide⟩
  covers i ge lt := by
    have count : single.count = 2 := rfl
    have bias : symbias (fun i => [1,1,1,0,0xFFFFFFFF,1,177671].getD i.toNat 0) = 1 := rfl
    obtain rfl : i = 1 := by omega
    refine ⟨by decide,by decide,by decide,fun j ge lt => absurd (lt_of_le_of_lt ge lt) (by decide),by decide⟩

theorem findsAsScanSingle : Consistent 32 single ∧
    ∃ enough result scanned, (∀ fuel, enough < fuel → moduleFindSymbol 32 single [97] fuel = some result) ∧
      moduleFindSymbolIterate single [97] = some scanned ∧ (result.isSome ↔ scanned.isSome) ∧
      ∀ i, result = some i → (single.entry i).name = [97] := by
  have consistent : Consistent 32 single :=
    ⟨by decide,fun t table => Option.some.inj table ▸ singleSysv,fun t table => Option.some.inj table ▸ singleGnu⟩
  exact ⟨consistent,findsAsScan consistent [97]⟩

def Found (m : Symbols) (name : Name) (lookup : Nat → Option (Option Nat)) : Prop :=
  ∃ enough j, (∀ fuel, enough < fuel → lookup fuel = some (some j)) ∧ (m.entry j).name = name

/- The hashes of x86_64 are those of i386, and what is stored under them is found. -/
structure SameHashes (name : Name) : Prop where
  hash : elfHash 64 name = elfHash 32 name
  gnuHash : elfGnuHash 64 name = elfGnuHash 32 name
  sysvFound : ∀ m t, SysvConsistent m t → ∀ i, 0 < i → i < m.count → (m.entry i).name = name →
    Found m name (moduleFindSymbolSysv m name 64 · t)
  gnuFound : ∀ m t, GnuConsistent 64 m t → ∀ i, symbias t ≤ i → i < m.count → (m.entry i).name = name →
    Found m name (moduleFindSymbolGnu 64 m name · t)

/- They are unless a sum among the last eight turns leaves 32 bits. -/
theorem sameHashes (name : Name) : SameHashes name ↔ ¬ Carries name := by
  refine ⟨fun same => (hash64 name).mp same.hash,fun fits => ?_⟩
  have hash := (hash64 name).mpr fits
  refine ⟨hash,gnuHash64 name,?_,?_⟩
  · intro m t consistent i pos small named
    obtain ⟨enough,result,finds,sound,complete⟩ := sysvFinds consistent (hash.trans (hash32 name))
    obtain ⟨j,rfl⟩ := Option.ne_none_iff_exists'.mp (complete i pos small named)
    exact ⟨enough,j,finds,(sound j rfl).2.2⟩
  · intro m t consistent i biased small named
    obtain ⟨enough,result,finds,sound,complete⟩ := gnuResult consistent (gnuHash64 name)
    obtain ⟨j,rfl⟩ := Option.ne_none_iff_exists'.mp (complete i biased small named)
    exact ⟨enough,j,finds,(sound j rfl).2.2⟩

/- The last sum overflows and the wide hash keeps the bit. -/
theorem wideHashDiffers : ¬ ∀ name : Name, 0 ∉ name →
    elfHash 64 name = elfHash 32 name ∧ elfGnuHash 64 name = elfGnuHash 32 name := by
  intro all
  have same := (all [0xff,0x0f,0x0f,0x0f,0x0f,0x0f,0x12] (by decide)).1
  revert same
  decide

end
end Syslinux.Elf
