import Mathlib.Data.List.GetD
import Syslinux.FatSlots

/-! The names of a FAT directory. A short name goes from the disk through the listing and
mangle_dos_name back to its eleven bytes; the units of a long name come together from the
slots, are matched against a name, and are converted to one. -/
namespace Syslinux.FatDir
open Searchdir (Bytes slash dot)

/- The tables that the build makes: NUL for NUL, upper case that leaves blanks, dots and
slashes as they are, and a lower case that upper case takes back. -/
structure Codepage.Generated (codepage : Codepage) : Prop extends codepage.NulIsNul where
  upperPlain : ∀ c, c ≤ space ∨ c = slash ∨ c = dot → codepage.upper c = c
  lowerDot : codepage.lower dot = dot
  upperLower : ∀ c, codepage.upper c = c → codepage.upper (codepage.lower c) = c

structure Codepage.Plain (codepage : Codepage) (c : UInt8) : Prop where
  visible : ¬c ≤ space
  noDot : c ≠ dot
  noSlash : c ≠ slash
  upper : codepage.upper c = c

def padTo (n : Nat) (name : Bytes) : Bytes := name ++ List.replicate (n - name.length) space

/- The eleven bytes of a short name: the entries of a directory for itself and for the one
above it, or a base and an extension in upper case. -/
inductive ShortForm (codepage : Codepage) : Bytes → Prop where
  | dots (name : Bytes) (either : name = [dot] ∨ name = [dot,dot]) : ShortForm codepage (padTo 11 name)
  | plain (base ext : Bytes) (some' : base ≠ []) (eight : base.length ≤ 8) (three : ext.length ≤ 3)
      (baseOk : ∀ c ∈ base, codepage.Plain c) (extOk : ∀ c ∈ ext, codepage.Plain c) :
      ShortForm codepage (padTo 8 base ++ padTo 3 ext)

section
variable {codepage : Codepage}

theorem takeWhilePadded {n : Nat} {name : Bytes} (noBlank : ∀ c ∈ name, c ≠ space) :
    (padTo n name).takeWhile (· != space) = name := by
  have blanks : (List.replicate (n - name.length) space).takeWhile (· != space) = [] := by
    cases n - name.length with
    | zero => rfl
    | succ k => rfl
  rw [padTo,List.takeWhile_append_of_pos (fun c mem => bne_iff_ne.mpr (noBlank c mem)),blanks,List.append_nil]

theorem plainNotBlank {c : UInt8} (plain : codepage.Plain c) : c ≠ space := by
  intro blank
  exact plain.visible (blank ▸ UInt8.le_refl _)

theorem shownPlain (generated : codepage.Generated) (lower : Bool) {c : UInt8} (plain : codepage.Plain c) :
    let shown := if lower then codepage.lower c else c
    ¬shown ≤ space ∧ shown ≠ slash ∧ shown ≠ dot ∧ codepage.upper shown = c := by
  have back : codepage.upper (if lower then codepage.lower c else c) = c := by
    cases lower with
    | false => exact plain.upper
    | true => exact generated.upperLower c plain.upper
  -- What upper case leaves alone would be the character itself.
  have only : ∀ s, codepage.upper s = c → (s ≤ space ∨ s = slash ∨ s = dot) → False := by
    rintro s same special
    have eq := (generated.upperPlain s special).symm.trans same
    subst eq
    rcases special with blank | isSlash | isDot
    · exact plain.visible blank
    · exact plain.noSlash isSlash
    · exact plain.noDot isDot
  exact ⟨fun blank => only _ back (.inl blank),fun isSlash => only _ back (.inr (.inl isSlash)),
    fun isDot => only _ back (.inr (.inr isDot)),back⟩

theorem mangleLoopPlain (shown : List UInt8) (rest buf : Bytes)
    (kept : ∀ c ∈ shown, ¬c ≤ space ∧ c ≠ slash ∧ c ≠ dot) (room : buf.length + shown.length ≤ 11)
    (first : buf = [] → ∀ c ∈ (shown.map codepage.upper).head?, c ≠ 0xe5) :
    mangleLoop codepage (shown ++ rest) buf = mangleLoop codepage rest (buf ++ shown.map codepage.upper) := by
  induction shown generalizing buf with
  | nil => rw [List.nil_append,List.map_nil,List.append_nil]
  | cons c shown ih =>
    obtain ⟨⟨visible,noSlash,noDot⟩,others⟩ := List.forall_mem_cons.mp kept
    have noHack : ¬(buf.length = 0 ∧ codepage.upper c = 0xe5) := by
      rintro ⟨empty,hack⟩
      exact first (List.eq_nil_of_length_eq_zero empty) (codepage.upper c) (by simp) hack
    rw [List.length_cons] at room
    rw [List.cons_append,mangleLoop,if_neg (by omega),if_neg (by simp [visible,noSlash]),if_neg noDot]
    simp only [if_neg noHack]
    rw [ih (buf ++ [codepage.upper c]) others (by simp; omega) (by simp),List.map_cons,List.append_assoc,List.singleton_append]

theorem mangleLoopDot (rest buf : Bytes) (eight : buf.length ≤ 8) :
    mangleLoop codepage (dot::rest) buf = mangleLoop codepage rest (padTo 8 buf) := by
  rw [mangleLoop,if_neg (by omega),if_neg (by decide),if_pos rfl]
  congr 1
  apply List.take_of_length_le
  simp
  omega

theorem partShown (lower : Bool) {n : Nat} {name : Bytes} (ok : ∀ c ∈ name, codepage.Plain c) :
    shortPart codepage lower (padTo n name) = name.map fun c => if lower then codepage.lower c else c := by
  unfold shortPart
  rw [takeWhilePadded fun c mem => plainNotBlank (ok c mem)]

theorem partUpper (generated : codepage.Generated) (lower : Bool) {name : Bytes} (ok : ∀ c ∈ name, codepage.Plain c) :
    (name.map fun c => if lower then codepage.lower c else c).map codepage.upper = name := by
  rw [List.map_map]
  conv_rhs => rw [← List.map_id name]
  apply List.map_congr_left
  intro c mem
  exact (shownPlain generated lower (ok c mem)).2.2.2

theorem partKept (generated : codepage.Generated) (lower : Bool) {name : Bytes} (ok : ∀ c ∈ name, codepage.Plain c) :
    ∀ c ∈ name.map fun c => if lower then codepage.lower c else c, ¬c ≤ space ∧ c ≠ slash ∧ c ≠ dot := by
  intro c mem
  obtain ⟨d,inside,rfl⟩ := List.mem_map.mp mem
  obtain ⟨visible,noSlash,noDot,_⟩ := shownPlain generated lower (ok d inside)
  exact ⟨visible,noSlash,noDot⟩

theorem nameAt (de : DirEntry) {i : Nat} (inside : i < 11) : de.name[i]? = some (de i) := by
  unfold DirEntry.name
  rw [List.getElem?_map,List.getElem?_range inside]
  rfl

theorem padToLength {n : Nat} {name : Bytes} (fits : name.length ≤ n) : (padTo n name).length = n := by
  rw [padTo,List.length_append,List.length_replicate]
  omega

theorem shortNameForm {de : DirEntry} {base ext : Bytes} (name : de.name = padTo 8 base ++ padTo 3 ext)
    (eight : base.length ≤ 8) (baseOk : ∀ c ∈ base, codepage.Plain c) (extOk : ∀ c ∈ ext, codepage.Plain c) :
    ∃ lower lower' : Bool, shortName codepage de = (base.map fun c => if lower then codepage.lower c else c) ++
      if ext = [] then [] else dot::ext.map fun c => if lower' then codepage.lower c else c := by
  have first : de.name.take 8 = padTo 8 base := by
    rw [name,List.take_append_of_le_length (by rw [padToLength eight]),List.take_of_length_le (by rw [padToLength eight])]
  have second : de.name.drop 8 = padTo 3 ext := by
    rw [name,List.drop_append_of_le_length (by rw [padToLength eight]),List.drop_of_length_le (by rw [padToLength eight]),
      List.nil_append]
  have eighth : (padTo 3 ext)[0]? = some (de 8) := by rw [← second,List.getElem?_drop,nameAt de (by omega)]
  refine ⟨de.lcase &&& lcaseBase != 0,de.lcase &&& lcaseExt != 0,?_⟩
  unfold shortName
  rw [first,second,partShown _ baseOk,partShown _ extOk]
  congr 1
  cases ext with
  | nil =>
    have blank : de 8 = space := Option.some.inj eighth.symm
    rw [if_neg (by simp [blank]),if_pos rfl]
  | cons c ext =>
    have same : de 8 = c := Option.some.inj eighth.symm
    have shown : de 8 ≠ space := same ▸ plainNotBlank (extOk c (by simp))
    rw [if_pos shown,if_neg (by simp)]

theorem shortNameDots (generated : codepage.Generated) {de : DirEntry} {name : Bytes} (either : name = [dot] ∨ name = [dot,dot])
    (raw : de.name = padTo 11 name) : shortName codepage de = name := by
  have noBlank : ∀ c ∈ name, c ≠ space := by
    intro c mem
    have same : c = dot := by
      rcases either with rfl | rfl <;> simpa using mem
    rw [same]
    decide
  have eighth : de 8 = space := by
    have at8 := nameAt de (show 8 < 11 by omega)
    rw [raw] at at8
    rcases either with rfl | rfl <;> exact Option.some.inj at8.symm
  have first : (padTo 11 name).take 8 = padTo 8 name := by
    rcases either with rfl | rfl <;> rfl
  unfold shortName shortPart
  rw [if_neg (by simp [eighth]),List.append_nil,raw,first,takeWhilePadded noBlank]
  rcases either with rfl | rfl <;> cases de.lcase &&& lcaseBase != 0 <;> simp [generated.lowerDot]

/- The name that is shown for a short name is mangled to that name. -/
theorem mangleShortName (generated : codepage.Generated) {de : DirEntry} (form : ShortForm codepage de.name)
    (kept : de 0 ≠ deleted) : mangleDosName codepage (shortName codepage de) = de.name := by
  have zeroth := nameAt de (show 0 < 11 by omega)
  generalize eq : de.name = raw at form
  cases form with
  | dots name either =>
    have shown := shortNameDots generated either eq
    rw [shown]
    unfold mangleDosName
    simp only [either,if_true]
    rfl
  | plain base ext some' eight three baseOk extOk =>
    obtain ⟨lower,lower',shown⟩ := shortNameForm eq eight baseOk extOk
    have noHack : ∀ c ∈ base.head?, c ≠ 0xe5 := by
      cases base with
      | nil => contradiction
      | cons b base =>
        rw [eq] at zeroth
        have same : de 0 = b := Option.some.inj zeroth.symm
        intro c mem
        cases mem
        exact same ▸ kept
    have notDots : ¬(shortName codepage de = [dot] ∨ shortName codepage de = [dot,dot]) := by
      cases base with
      | nil => contradiction
      | cons b base =>
        have noDot := (shownPlain generated lower (baseOk b (by simp))).2.2.1
        rw [shown]
        simp only [List.map_cons,List.cons_append,List.cons.injEq,noDot,false_and,or_self,not_false_eq_true]
    have loop : ∀ rest, mangleLoop codepage ((base.map fun c => if lower then codepage.lower c else c) ++ rest) [] =
        mangleLoop codepage rest base := by
      intro rest
      rw [mangleLoopPlain _ rest [] (partKept generated lower baseOk) (by simp; omega)
        (by rw [partUpper generated lower baseOk]; exact fun _ => noHack),partUpper generated lower baseOk,List.nil_append]
    unfold mangleDosName
    simp only [notDots,if_false]
    rw [shown,loop]
    by_cases none' : ext = []
    · rw [if_pos none',none',mangleLoop]
      simp only [padTo,List.nil_append,List.append_assoc,List.length_nil,← List.replicate_add]
      congr 2
      omega
    · have eight' : (padTo 8 base).length = 8 := padToLength eight
      rw [if_neg none',mangleLoopDot _ _ eight,← List.append_nil (ext.map _),
        mangleLoopPlain _ [] (padTo 8 base) (partKept generated lower' extOk) (by rw [eight',List.length_map]; omega)
          (fun empty => by rw [empty] at eight'; contradiction),partUpper generated lower' extOk,mangleLoop]
      rw [List.append_assoc,List.length_append,eight',show 11 - (8 + ext.length) = 3 - ext.length by omega]
      rfl

theorem shortNameFits (generated : codepage.Generated) {de : DirEntry} (form : ShortForm codepage de.name) :
    0 ∉ shortName codepage de ∧ (shortName codepage de).length ≤ 12 := by
  have notNul : ∀ name : Bytes, (∀ c ∈ name, ¬c ≤ space ∧ c ≠ slash ∧ c ≠ dot) → 0 ∉ name := by
    intro name kept nul
    exact (kept 0 nul).1 (by decide)
  generalize eq : de.name = raw at form
  cases form with
  | dots name either =>
    rw [shortNameDots generated either eq]
    rcases either with rfl | rfl <;> decide
  | plain base ext some' eight three baseOk extOk =>
    obtain ⟨lower,lower',shown⟩ := shortNameForm eq eight baseOk extOk
    have first := notNul _ (partKept generated lower baseOk)
    have second := notNul _ (partKept generated lower' extOk)
    rw [shown]
    by_cases none' : ext = []
    · rw [if_pos none',List.append_nil,List.length_map]
      exact ⟨first,by omega⟩
    · rw [if_neg none',List.length_append,List.length_cons,List.length_map,List.length_map]
      refine ⟨?_,by omega⟩
      rw [List.mem_append,List.mem_cons]
      rintro (one | isDot | two)
      · exact first one
      · exact absurd isDot (by decide)
      · exact second two

end
/- The units of a long name in its slots: a NUL behind them where there is room, then FFFF. -/
def padded (units : List Nat) (i : Nat) : Nat := if i = units.length then 0 else units.getD i 0xffff

def slotCount (units : List Nat) : Nat := (units.length + 12) / 13

/- One slot of a long name, with its number; the last one, which comes first, is marked. -/
structure SlotOk (csum : UInt8) (units : List Nat) (number : Nat) (de : DirEntry) : Prop where
  long : de.isLong = true
  checksum : de.checksum = csum
  id : de.id = if number = slotCount units then number + 0x40 else number
  units : ∀ j < 13, de.units.getD j 0 = padded units (13*(number - 1) + j)

/- The slots from that number down to 1. -/
inductive Slots (csum : UInt8) (units : List Nat) : Nat → List DirEntry → Prop where
  | nil : Slots csum units 0 []
  | cons {number : Nat} {de : DirEntry} {rest : List DirEntry} (slot : SlotOk csum units (number + 1) de)
      (tail : Slots csum units number rest) : Slots csum units (number + 1) (de::rest)

theorem slotsThrough {σ ρ : Type} {turn : σ → DirEntry → Scan.Turn σ ρ} {csum : UInt8} {units : List Nat} {At : Nat → σ → Prop}
    {Done : σ → Prop} (step : ∀ number s de, SlotOk csum units (number + 1) de → number < slotCount units → At (number + 1) s →
      ∃ s', turn s de = .next s' ∧ if number = 0 then Done s' else At number s')
    {number : Nat} {slots : List DirEntry} (all : Slots csum units (number + 1) slots) (below : number < slotCount units) {s : σ}
    (start : At (number + 1) s) : ∃ s', Scan.turns turn s slots = .next s' ∧ Done s' := by
  induction number generalizing s slots with
  | zero =>
    cases all with
    | @cons _ de _ slot tail =>
      cases tail
      obtain ⟨s',turned,done⟩ := step 0 s de slot below start
      exact ⟨s',by rw [Scan.turnsOne,turned],done⟩
  | succ number ih =>
    cases all with
    | @cons _ de _ slot tail =>
      obtain ⟨t,turned,next⟩ := step (number + 1) s de slot below start
      obtain ⟨s',more,done⟩ := ih tail (by omega) next
      refine ⟨s',?_,done⟩
      rw [Scan.turns,turned]
      exact more

theorem slotsMem {csum : UInt8} {units : List Nat} {number : Nat} {slots : List DirEntry} (all : Slots csum units number slots)
    (le : number ≤ slotCount units) : ∀ de ∈ slots, ∃ n, SlotOk csum units (n + 1) de ∧ n < slotCount units := by
  induction all with
  | nil => simp
  | @cons number de rest slot tail ih =>
    intro de' mem
    rcases List.mem_cons.mp mem with rfl | inside
    · exact ⟨number,slot,by omega⟩
    · exact ih (by omega) de' inside

def Filled (units : List Nat) (number : Nat) (buf : Units) : Prop :=
  ∀ k, buf.unit k = if 13*number ≤ k ∧ k < 13*slotCount units then padded units k else 0

/- A name is a long name up to case: each character has the unit in its first or second row. -/
def matchesName (codepage : Codepage) : List Nat → Bytes → Bool
  | [],[] => true
  | u::units,c::dname => (u == codepage.uni c.toNat || u == codepage.uni (256 + c.toNat)) && matchesName codepage units dname
  | _,_ => false

section
variable {codepage : Codepage} {units : List Nat} {csum : UInt8} {number : Nat} {buf : Units} {de : DirEntry}

theorem filledZero (buf : Units) : Filled units (slotCount units) buf.zero := by
  intro k
  rw [if_neg (by omega)]
  rfl

theorem copyFilled (filled : Filled units (number + 1) buf) (slot : SlotOk csum units (number + 1) de)
    (below : number < slotCount units) (room : number*13 + 13 ≤ buf.size) :
    ∃ buf', copyLongChunk buf (number*13) de = some buf' ∧ buf'.size = buf.size ∧ Filled units number buf' := by
  unfold copyLongChunk
  rw [if_pos room]
  refine ⟨_,rfl,rfl,?_⟩
  intro k
  simp only
  by_cases inside : number*13 ≤ k ∧ k < number*13 + 13
  · rw [if_pos inside,slot.units (k - number*13) (by omega),if_pos (by omega)]
    congr 1
    omega
  · rw [if_neg inside,filled k]
    by_cases above : 13*(number + 1) ≤ k ∧ k < 13*slotCount units
    · rw [if_pos above,if_pos (by omega)]
    · rw [if_neg above,if_neg (by omega)]

theorem paddingFull {i len : Nat} (inside : i + len ≤ buf.size) (full : ∀ k, i ≤ k → k < i + len → buf.unit k = 0xffff) :
    padding buf i len = some true := by
  induction len generalizing i with
  | zero => rfl
  | succ len ih =>
    have here : buf.read i = some (buf.unit i) := if_pos (by omega)
    simp only [padding,here,bind,Option.bind,full i (by omega) (by omega),ne_eq,not_true_eq_false,if_false]
    exact ih (by omega) fun k low high => full k (by omega) (by omega)

theorem matchEndFull {i len : Nat} {str : Bytes} (noNul : 0 ∉ str) (inside : i + len ≤ buf.size)
    (full : ∀ k, i ≤ k → k < i + len → buf.unit k = 0xffff) :
    matchEnd buf i len (str ++ [0]) = some (matchesName codepage [] str) := by
  cases str with
  | nil => simpa [matchEnd,matchesName] using paddingFull inside full
  | cons c str =>
    have other : c ≠ 0 := fun same => noNul (same ▸ List.mem_cons_self)
    simp [matchEnd,matchesName,other]

/- The loop of vfat_match_longname over a buffer with all slots, from some unit on. -/
theorem matchLoopFilled (nul : codepage.NulIsNul) (filled : Filled units 0 buf) (some' : ∀ u ∈ units, u ≠ 0)
    (room : 13*slotCount units ≤ buf.size) {rest : List Nat} {i : Nat} (suffix : units.drop i = rest) (le : i ≤ units.length)
    {str : Bytes} (noNul : 0 ∉ str) :
    matchLoop codepage buf i (13*slotCount units - i) (str ++ [0]) = some (matchesName codepage rest str) := by
  have fits : units.length ≤ 13*slotCount units := by
    unfold slotCount
    omega
  induction rest generalizing i str with
  | nil =>
    have last : i = units.length := by
      have := List.drop_eq_nil_iff.mp suffix
      omega
    cases left : 13*slotCount units - i with
    | zero =>
      rw [matchLoop]
      exact matchEndFull noNul (by omega) fun k low high => by omega
    | succ left =>
      have here : buf.read i = some 0 := by
        rw [Units.read,if_pos (by omega),filled i,if_pos (by omega),padded,if_pos last]
      simp only [matchLoop,here,bind,Option.bind,if_true]
      refine matchEndFull noNul (by omega) fun k low high => ?_
      rw [filled k,if_pos (by omega),padded,if_neg (by omega),List.getD_eq_default _ _ (by omega)]
  | cons u rest ih =>
    have less : i < units.length := by
      by_contra over'
      rw [List.drop_of_length_le (by omega)] at suffix
      contradiction
    have unit : units.getD i 0xffff = u := by
      rw [List.getD_eq_getElem _ _ less]
      rw [List.drop_eq_getElem_cons less] at suffix
      exact (List.cons.inj suffix).1
    have next : units.drop (i + 1) = rest := by
      rw [List.drop_eq_getElem_cons less] at suffix
      exact (List.cons.inj suffix).2
    have notNul : u ≠ 0 := some' u (by rw [← List.take_append_drop i units,suffix]; simp)
    obtain ⟨left,more⟩ : ∃ left, 13*slotCount units - i = left + 1 := ⟨13*slotCount units - i - 1,by omega⟩
    have here : buf.read i = some u := by
      rw [Units.read,if_pos (by omega),filled i,if_pos (by omega),padded,if_neg (by omega),unit]
    rw [more]
    simp only [matchLoop,here,bind,Option.bind,notNul,if_false]
    cases str with
    | nil => simp [matchesName,nul.first,nul.second,notNul]
    | cons c str =>
      have tail := @ih (i + 1) next (by omega) str fun mem => noNul (List.mem_cons_of_mem _ mem)
      rw [show 13*slotCount units - (i + 1) = left by omega] at tail
      simp only [List.cons_append,matchesName,tail]
      by_cases either : u = codepage.uni c.toNat ∨ u = codepage.uni (256 + c.toNat)
      · rw [if_neg (by tauto)]
        rcases either with same | same <;> simp [same]
      · rw [not_or] at either
        rw [if_pos either]
        simp [either.1,either.2]

theorem matchFilled (nul : codepage.NulIsNul) (filled : Filled units 0 buf) (some' : ∀ u ∈ units, u ≠ 0)
    (room : 13*slotCount units ≤ buf.size) {dname : Bytes} (noNul : 0 ∉ dname) :
    vfatMatchLongname codepage dname buf (slotCount units*13) = some (matchesName codepage units dname) := by
  have loop := matchLoopFilled nul filled some' room (i := 0) rfl (by omega) noNul
  rw [Nat.sub_zero,Nat.mul_comm] at loop
  exact loop

theorem matchesLength {dname : Bytes} (matched : matchesName codepage units dname = true) : units.length = dname.length := by
  induction units generalizing dname with
  | nil =>
    cases dname with
    | nil => rfl
    | cons => contradiction
  | cons u units ih =>
    cases dname with
    | nil => contradiction
    | cons c dname =>
      rw [matchesName,Bool.and_eq_true] at matched
      rw [List.length_cons,List.length_cons,ih matched.2]

end
/- The name that the listing makes of a long name, if each unit is one of the codepage. -/
def convertName (codepage : Codepage) : List Nat → Option Bytes
  | [] => some []
  | u::units => do
      let c ← findChar codepage u
      let name ← convertName codepage units
      some (c::name)

/- What the static cache holds, from its zeros on: characters that the tables give as well. -/
def Unicache.Sound (codepage : Codepage) (unicache : Unicache) : Prop :=
  ∀ u, (unicache (u % 256)).1 = u → findChar codepage u = some (unicache (u % 256)).2

section
variable {codepage : Codepage} {units : List Nat} {u : Nat} {unicache : Unicache} {c : UInt8} {name : Bytes}

theorem findCharMatches (found : findChar codepage u = some c) : u = codepage.uni c.toNat ∨ u = codepage.uni (256 + c.toNat) := by
  unfold findChar at found
  obtain ⟨i,first,rfl⟩ := Option.map_eq_some_iff.mp found
  have same : codepage.uni i = u := by simpa using List.find?_some first
  have less : i < 512 := List.mem_range.mp (List.mem_of_find?_eq_some first)
  have low : (UInt8.ofNat (i % 256)).toNat = i % 256 := UInt8.toNat_ofNat_of_lt' (Nat.mod_lt _ (by omega))
  rw [low,← same]
  by_cases row : i < 256
  · exact .inl (by rw [Nat.mod_eq_of_lt row])
  · exact .inr (by rw [show 256 + i % 256 = i by omega])

theorem findCharNul (nul : codepage.NulIsNul) : findChar codepage 0 = some 0 := by
  have first : (List.range 512).find? (fun c => codepage.uni c == 0) = some 0 := by
    rw [List.range_eq_range',List.range'_succ,List.find?_cons_of_pos (by simp [nul.first])]
  rw [findChar,first]
  rfl

theorem zeroSound (nul : codepage.NulIsNul) : Unicache.Sound codepage fun _ => (0,0) := by
  intro u same
  have zero : u = 0 := same.symm
  rw [zero]
  exact findCharNul nul

theorem convertSound (sound : unicache.Sound codepage) (u : Nat) :
    (findChar codepage u = none ∧ convert codepage unicache u = none) ∨
      ∃ c unicache', findChar codepage u = some c ∧ convert codepage unicache u = some (c,unicache') ∧
        unicache'.Sound codepage := by
  unfold convert
  by_cases hit : (unicache (u % 256)).1 = u
  · exact .inr ⟨_,unicache,sound u hit,if_pos hit,sound⟩
  · simp only [if_neg hit]
    cases found : findChar codepage u with
    | none => exact .inl ⟨rfl,rfl⟩
    | some c =>
      refine .inr ⟨c,_,rfl,rfl,?_⟩
      intro v same
      by_cases slot : v % 256 = u % 256
      · simp only [slot,if_true] at same ⊢
        rw [← same,found]
      · simp only [slot,if_false] at same ⊢
        exact sound v same

theorem cvtSound (sound : unicache.Sound codepage) {p : Bytes} {nameLen : Int} {filename : Bytes} {unicache' : Unicache}
    (done : cvtLoop codepage units unicache p = some (nameLen,filename,unicache')) : unicache'.Sound codepage := by
  induction units generalizing unicache p with
  | nil => contradiction
  | cons u units ih =>
    rw [cvtLoop] at done
    rcases convertSound sound u with ⟨_,none'⟩ | ⟨c,next,_,some',sound'⟩
    · rw [none'] at done
      cases done
      exact sound
    · simp only [some'] at done
      split at done
      · cases done
        exact sound'
      · exact ih sound' done

/- The conversion of the units before a NUL. -/
theorem cvtConverts (nul : codepage.NulIsNul) (sound : unicache.Sound codepage) (some' : ∀ u ∈ units, u ≠ 0)
    (rest : List Nat) (p : Bytes) :
    ∃ nameLen filename unicache', cvtLoop codepage (units ++ 0::rest) unicache p = some (nameLen,filename,unicache') ∧
      (convertName codepage units = none → nameLen = -1) ∧
      ∀ name, convertName codepage units = some name → nameLen = p.length + name.length ∧ filename = p ++ name ++ [0] := by
  induction units generalizing unicache p with
  | nil =>
    rcases convertSound sound 0 with ⟨none',_⟩ | ⟨c,next,found,converted,_⟩
    · rw [findCharNul nul] at none'
      contradiction
    · rw [findCharNul nul] at found
      cases found
      simp only [List.nil_append,cvtLoop,converted,if_true,convertName]
      refine ⟨_,_,_,rfl,by simp,?_⟩
      intro name same
      cases same
      simp
  | cons u units ih =>
    obtain ⟨notNul,others⟩ := List.forall_mem_cons.mp some'
    simp only [List.cons_append,cvtLoop,convertName]
    rcases convertSound sound u with ⟨none',failed⟩ | ⟨c,next,found,converted,sound'⟩
    · simp only [failed,none',bind,Option.bind]
      exact ⟨-1,p,unicache,rfl,fun _ => rfl,by simp⟩
    · obtain ⟨nameLen,filename,last,done,none',some'⟩ := ih sound' others (p ++ [c])
      simp only [converted,found,notNul,if_false,done,bind,Option.bind]
      refine ⟨nameLen,filename,last,rfl,?_,?_⟩
      · cases tail : convertName codepage units with
        | none => exact fun _ => none' tail
        | some => simp
      · intro name
        cases tail : convertName codepage units with
        | none => simp
        | some name' =>
          intro eq
          cases eq
          obtain ⟨len,same⟩ := some' name' tail
          rw [List.length_append,List.length_singleton] at len
          rw [len,same,List.length_cons]
          refine ⟨by push_cast; omega,by simp⟩

theorem convertMatches (nul : codepage.NulIsNul) (some' : ∀ u ∈ units, u ≠ 0) (converted : convertName codepage units = some name) :
    matchesName codepage units name = true ∧ 0 ∉ name := by
  induction units generalizing name with
  | nil =>
    cases converted
    exact ⟨rfl,by simp⟩
  | cons u units ih =>
    obtain ⟨notNul,others⟩ := List.forall_mem_cons.mp some'
    rw [convertName] at converted
    obtain ⟨c,found,converted⟩ := Option.bind_eq_some_iff.mp converted
    obtain ⟨rest,tail,converted⟩ := Option.bind_eq_some_iff.mp converted
    cases converted
    obtain ⟨matched,noNul⟩ := ih others tail
    have either := findCharMatches found
    constructor
    · rw [matchesName,matched,Bool.and_true]
      rcases either with same | same <;> simp [← same]
    · rw [List.mem_cons,not_or]
      refine ⟨?_,noNul⟩
      rintro rfl
      rcases either with same | same
      · exact notNul (same.trans nul.first)
      · exact notNul (same.trans nul.second)

theorem filledUnits {buf : Units} (filled : Filled units 0 buf) (room : units.length < buf.size) :
    ∃ rest, (List.range buf.size).map buf.unit = units ++ 0::rest := by
  have fits : units.length ≤ 13*slotCount units := by
    unfold slotCount
    omega
  have whole : ((List.range buf.size).map buf.unit).length = buf.size := by simp
  have nul : buf.unit units.length = 0 := by
    rw [filled]
    split
    · rw [padded,if_pos rfl]
    · rfl
  refine ⟨((List.range buf.size).map buf.unit).drop (units.length + 1),?_⟩
  conv_lhs => rw [← List.take_append_drop units.length ((List.range buf.size).map buf.unit)]
  rw [List.drop_eq_getElem_cons (by omega)]
  congr 1
  · apply List.ext_getElem
    · rw [List.length_take,whole]
      omega
    · intro i _ inside
      rw [List.getElem_take,List.getElem_map,List.getElem_range,filled,if_pos (by omega),padded,if_neg (by omega),
        List.getD_eq_getElem _ _ inside]
  · congr 1
    rw [List.getElem_map,List.getElem_range,nul]

end
end Syslinux.FatDir
