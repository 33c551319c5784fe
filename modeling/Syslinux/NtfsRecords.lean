import Syslinux.NtfsWalks

/-! The walk of an attribute lookup from record to record, through the attribute lists, and the
lookup of a record, which may need the attribute lookup of $MFT's own $DATA. -/
namespace Syslinux.Ntfs
open Fat (le16 le32 le64)
open Relation (ReflTransGen TransGen)
open Loops Strides

section
variable (vol : Volume) (type : Nat)

def firstAttr (mrec : Record) : Nat := add32 mrec.addr (le16 mrec.mem (mrec.addr + 20))

def namesSame (mrec : Record) (mem : Nat → UInt8) (entry : Nat) : Prop := le32 mrec.mem (mrec.addr + 44) = le64 mem (entry + 16)

instance (mrec mem entry) : Decidable (namesSame mrec mem entry) := by unfold namesSame; infer_instance

def namedRecord (mem : Nat → UInt8) (entry : Nat) : Nat := le64 mem (entry + 16) % 2^32

def againBody (lookup : Nat → Option (Option Record)) (turns : Nat) (mrec : Record) : Option (Option (Record × Nat) ⊕ Record) :=
  (walkAttrs mrec.mem type turns (firstAttr mrec) none).bind fun at' =>
    if attrType mrec.mem at'.1 = atEnd then
      match at'.2 with
      | none => some (.inl none)
      | some list => (ntfsAttrListLookup vol lookup list type mrec turns).map fun found =>
          match found with
          | none => .inl none
          | some retval => .inr retval
    else some (.inl (some (mrec,at'.1)))

/- A record without the type has an $ATTRIBUTE_LIST with an entry for it. -/
def RecordNames (mrec : Record) (entry : Nat) (mem : Nat → UInt8) : Prop := ∃ attr list,
  AttrsStop mrec.mem type (firstAttr mrec) (attr,some list) ∧ attrType mrec.mem attr = atEnd ∧ ListNames vol type mrec list entry mem

section
variable (Found : Nat → Record → Prop) (RecordEnds : Nat → Prop)

/- From a record to the one that it names; `Found` says which record has a number. -/
def Leads (mrec next : Record) : Prop :=
  ∃ entry mem, RecordNames vol type mrec entry mem ∧ ¬ namesSame mrec mem entry ∧ Found (namedRecord mem entry) next

def AttrFound (mrec found : Record) (attr : Nat) : Prop := ReflTransGen (Leads vol type Found) mrec found ∧
  ∃ list, AttrsStop found.mem type (firstAttr found) (attr,list) ∧ attrType found.mem attr ≠ atEnd

/- A lookup in an $ATTRIBUTE_LIST: the list comes to an end, and if it names another record for the type,
then the lookup of that record does. -/
def ListLookupEnds (list : Nat) (mrec : Record) : Prop :=
  ListEnds vol type mrec list ∧ ∀ entry mem, ListNames vol type mrec list entry mem →
    ¬ namesSame mrec mem entry → RecordEnds (namedRecord mem entry)

/- The walk through a record: its attributes, and its $ATTRIBUTE_LIST if the type is not among them. The
record named there is another one, which no later record names again. -/
structure RecordTidy (mrec : Record) : Prop where
  attrs : AttrsEnd mrec.mem type (firstAttr mrec)
  list : ∀ attr list, AttrsStop mrec.mem type (firstAttr mrec) (attr,some list) → attrType mrec.mem attr = atEnd →
    ListEnds vol type mrec list
  other : ∀ entry mem, RecordNames vol type mrec entry mem → ¬ namesSame mrec mem entry
  named : ∀ entry mem, RecordNames vol type mrec entry mem → RecordEnds (namedRecord mem entry)
  once : ∀ entry mem, RecordNames vol type mrec entry mem → ∀ later, TransGen (Leads vol type Found) mrec later →
    ∀ entry' mem', RecordNames vol type later entry' mem' → namedRecord mem' entry' ≠ namedRecord mem entry

def RecordsEnd (start : Record) : Prop :=
  ∀ mrec, ReflTransGen (Leads vol type Found) start mrec → RecordTidy vol type Found RecordEnds mrec

end
end

section
variable {vol : Volume} {type attr : Nat} {mrec : Record} {lookup : Nat → Nat → Option (Option Record)} {RecordEnds : Nat → Prop}
  {Found : Nat → Record → Prop}

/- The record that an entry names: the one that the list is in, or another. -/
def entryRecord (lookup : Nat → Option (Option Record)) (mrec : Record) (at' : Nat × (Nat → UInt8)) : Option (Option Record) :=
  if namesSame mrec at'.2 at'.1 then some (some mrec) else lookup (namedRecord at'.2 at'.1)

theorem listLookupFound (vol : Volume) (lookup : Nat → Option (Option Record)) (attr type : Nat) (mrec : Record) (turns : Nat) :
    ntfsAttrListLookup vol lookup attr type mrec turns = onFound (listEntry vol mrec attr type turns) none (entryRecord lookup mrec) := by
  unfold ntfsAttrListLookup
  cases listEntry vol mrec attr type turns with
  | none => rfl
  | some found =>
    cases found with
    | none => rfl
    | some entry => rfl

theorem lookupAgainLoop (vol : Volume) (lookup : Nat → Option (Option Record)) (type turns more : Nat) (mrec : Record) :
    lookupAgain vol lookup type turns more mrec = loop (againBody vol type lookup turns) more mrec := by
  induction more generalizing mrec with
  | zero => rfl
  | succ more ih =>
    unfold lookupAgain loop againBody
    rw [show add32 mrec.addr (le16 mrec.mem (mrec.addr + 20)) = firstAttr mrec from rfl]
    cases walkAttrs mrec.mem type turns (firstAttr mrec) none with
    | none => rfl
    | some at' =>
      obtain ⟨attr,list⟩ := at'
      simp only [Option.bind_some]
      by_cases over' : attrType mrec.mem attr = atEnd
      · rw [if_pos over',if_pos over']
        cases list with
        | none => rfl
        | some list =>
          simp only
          cases ntfsAttrListLookup vol lookup list type mrec turns with
          | none => rfl
          | some found =>
            cases found with
            | none => rfl
            | some retval => exact ih retval
      · rw [if_neg over',if_neg over']

section
variable {lookup lookup' : Nat → Option (Option Record)} (keeps : ∀ file, Keeps (lookup file) (lookup' file)) {turns turns' : Nat}
  (le : turns ≤ turns')
include keeps le

theorem listLookupKeeps (attr type : Nat) (mrec : Record) :
    Keeps (ntfsAttrListLookup vol lookup attr type mrec turns) (ntfsAttrListLookup vol lookup' attr type mrec turns') := by
  rw [listLookupFound,listLookupFound]
  refine keepsFound (lastingLe (listLasting vol mrec attr type) le) fun at' => ?_
  unfold entryRecord
  split_ifs
  · exact keepsSelf _
  · exact keeps _

theorem againKeeps (type : Nat) (mrec : Record) :
    Keeps (againBody vol type lookup turns mrec) (againBody vol type lookup' turns' mrec) := by
  refine keepsBind (lastingLe (attrsLasting mrec.mem type (firstAttr mrec) none) le) fun at' => ?_
  obtain ⟨attr,list⟩ := at'
  simp only
  split_ifs
  · cases list with
    | none => exact keepsSelf _
    | some list => exact keepsMap (listLookupKeeps keeps le list type mrec) _
  · exact keepsSelf _

theorem attrLookupKeeps (type : Nat) (mrec : Record) :
    Keeps (ntfsAttrLookup vol lookup type mrec turns) (ntfsAttrLookup vol lookup' type mrec turns') := by
  unfold ntfsAttrLookup
  split_ifs
  · exact keepsSelf _
  · rw [lookupAgainLoop,lookupAgainLoop]
    obtain ⟨more,rfl⟩ := Nat.exists_eq_add_of_le le
    exact loopKeeps (fun m => againKeeps keeps le type m) turns more mrec

end

section
variable (lasting : ∀ file, Lasting fun n => lookup n file) (ends : ∀ file, (Answers fun n => lookup n file) ↔ RecordEnds file)
include lasting

theorem entryLasting (mrec : Record) (at' : Nat × (Nat → UInt8)) : Lasting fun n => entryRecord (lookup n) mrec at' := by
  unfold entryRecord
  split_ifs
  · exact lastingConst _
  · exact lasting _

theorem attrLookupLasting (vol : Volume) (type : Nat) (mrec : Record) : Lasting fun n => ntfsAttrLookup vol (lookup n) type mrec n :=
  fun n => attrLookupKeeps (fun file => lasting file n) (Nat.le_succ n) type mrec

theorem listLookupLasting (vol : Volume) (attr type : Nat) (mrec : Record) :
    Lasting fun n => ntfsAttrListLookup vol (lookup n) attr type mrec n :=
  fun n => listLookupKeeps (fun file => lasting file n) (Nat.le_succ n) attr type mrec

theorem againLasting (mrec : Record) (at' : Nat × Option Nat) : Lasting fun n =>
    (if attrType mrec.mem at'.1 = atEnd then
      match at'.2 with
      | none => some (.inl none)
      | some list => (ntfsAttrListLookup vol (lookup n) list type mrec n).map fun found =>
          match found with
          | none => .inl none
          | some retval => .inr retval
    else some (.inl (some (mrec,at'.1))) : Option (Option (Record × Nat) ⊕ Record)) := by
  obtain ⟨attr,list⟩ := at'
  simp only
  split_ifs
  · cases list with
    | none => exact lastingConst _
    | some list => exact lastingMap (listLookupLasting lasting vol list type mrec) _
  · exact lastingConst _

include ends

theorem listLookupAnswers : Answers (fun n => ntfsAttrListLookup vol (lookup n) attr type mrec n) ↔
    ListLookupEnds vol type RecordEnds attr mrec := by
  have second : ∀ at', Lasting fun n => entryRecord (lookup n) mrec at' := entryLasting lasting mrec
  have each : ∀ at', (Answers fun n => entryRecord (lookup n) mrec at') ↔
      (¬ namesSame mrec at'.2 at'.1 → RecordEnds (namedRecord at'.2 at'.1)) := by
    intro at'
    unfold entryRecord
    by_cases same : namesSame mrec at'.2 at'.1
    · simp only [if_pos same]
      exact iff_of_true (answersConst.2 rfl) fun other => absurd same other
    · simp only [if_neg same]
      rw [ends,imp_iff_right same]
  simp only [listLookupFound]
  rw [answersFound (listLasting vol mrec attr type) second,listAnswers]
  simp only [each,Prod.forall,listGives]
  rfl

theorem againAnswers : Answers (fun n => againBody vol type (lookup n) n mrec) ↔
    AttrsEnd mrec.mem type (firstAttr mrec) ∧
    ∀ attr list, AttrsStop mrec.mem type (firstAttr mrec) (attr,some list) → attrType mrec.mem attr = atEnd →
      ListLookupEnds vol type RecordEnds list mrec := by
  unfold againBody
  rw [answersBind (attrsLasting mrec.mem type (firstAttr mrec) none) (againLasting lasting mrec),attrsAnswers]
  refine and_congr_right fun _ => ⟨fun all attr list there over' => ?_,fun all at' there => ?_⟩
  · have answers := all (attr,some list) (attrsGives.2 there)
    simp only [if_pos over',answersMap] at answers
    exact (listLookupAnswers lasting ends).1 answers
  · obtain ⟨attr,list⟩ := at'
    by_cases over' : attrType mrec.mem attr = atEnd
    · simp only [if_pos over']
      cases list with
      | none => exact answersConst.2 rfl
      | some list =>
        simp only [answersMap]
        exact (listLookupAnswers lasting ends).2 (all attr list (attrsGives.1 there) over')
    · simp only [if_neg over']
      exact answersConst.2 rfl

end

theorem attrsOnly {mem : Nat → UInt8} {first : Nat} {at' at'' : Nat × Option Nat} (one : AttrsStop mem type first at')
    (two : AttrsStop mem type first at'') : at' = at'' := reachedOnly one.1 one.2 two.1 two.2

theorem namesOnly {entry entry' : Nat} {mem mem' : Nat → UInt8} (one : RecordNames vol type mrec entry mem)
    (two : RecordNames vol type mrec entry' mem') : entry = entry' ∧ mem = mem' := by
  obtain ⟨attr,list,stop,_,names⟩ := one
  obtain ⟨attr',list',stop',_,names'⟩ := two
  cases attrsOnly stop stop'
  cases givesOnly (listLasting vol mrec list type) (listGives.2 names) (listGives.2 names')
  exact ⟨rfl,rfl⟩

section
variable (lasting : ∀ file, Lasting fun n => lookup n file)
  (found : ∀ file r, Gives (fun n => lookup n file) (some r) ↔ Found file r)
include lasting found

theorem listLookupGives {list : Nat} {r : Record} : Gives (fun n => ntfsAttrListLookup vol (lookup n) list type mrec n) (some r) ↔
    ∃ entry mem, ListNames vol type mrec list entry mem ∧
      (namesSame mrec mem entry ∧ r = mrec ∨ ¬ namesSame mrec mem entry ∧ Found (namedRecord mem entry) r) := by
  have second : ∀ at', Lasting fun n => entryRecord (lookup n) mrec at' := entryLasting lasting mrec
  simp only [listLookupFound]
  rw [givesFound (listLasting vol mrec list type) second]
  constructor
  · rintro (⟨_,none'⟩ | ⟨⟨entry,mem⟩,given,rest⟩)
    · cases none'
    refine ⟨entry,mem,listGives.1 given,?_⟩
    unfold entryRecord at rest
    by_cases same : namesSame mrec mem entry
    · simp only [if_pos same] at rest
      exact Or.inl ⟨same,(Option.some.inj (Option.some.inj (givesConst.1 rest))).symm⟩
    · simp only [if_neg same] at rest
      exact Or.inr ⟨same,(found _ _).1 rest⟩
  · rintro ⟨entry,mem,names,⟨same,rfl⟩ | ⟨other,there⟩⟩
    · refine Or.inr ⟨(entry,mem),listGives.2 names,?_⟩
      simp only [entryRecord,if_pos same]
      exact givesConst.2 rfl
    · refine Or.inr ⟨(entry,mem),listGives.2 names,?_⟩
      simp only [entryRecord,if_neg other]
      exact (found _ _).2 there

theorem againGoes (c d : Record) : Goes (Steps fun n => againBody vol type (lookup n) n) c d ↔
    Leads vol type Found c d ∨ d = c ∧ ∃ entry mem, RecordNames vol type c entry mem ∧ namesSame c mem entry := by
  refine (givesBind (attrsLasting c.mem type (firstAttr c) none) (againLasting lasting c)).trans ?_
  constructor
  · rintro ⟨⟨attr,list⟩,given,rest⟩
    have stop := attrsGives.1 given
    simp only at rest
    by_cases over' : attrType c.mem attr = atEnd
    · simp only [if_pos over'] at rest
      cases list with
      | none => cases givesConst.1 rest
      | some list =>
        obtain ⟨r,looked,same⟩ := givesMap.1 rest
        cases r with
        | none => cases same
        | some r =>
          cases same
          obtain ⟨entry,mem,names,⟨same,rfl⟩ | ⟨other,there⟩⟩ := (listLookupGives lasting found).1 looked
          · exact Or.inr ⟨rfl,entry,mem,⟨attr,list,stop,over',names⟩,same⟩
          · exact Or.inl ⟨entry,mem,⟨attr,list,stop,over',names⟩,other,there⟩
    · simp only [if_neg over'] at rest
      cases givesConst.1 rest
  · intro here
    have named : ∃ entry mem, RecordNames vol type c entry mem ∧
        (namesSame c mem entry ∧ d = c ∨ ¬ namesSame c mem entry ∧ Found (namedRecord mem entry) d) := by
      rcases here with ⟨entry,mem,names,other,there⟩ | ⟨rfl,entry,mem,names,same⟩
      · exact ⟨entry,mem,names,Or.inr ⟨other,there⟩⟩
      · exact ⟨entry,mem,names,Or.inl ⟨same,rfl⟩⟩
    obtain ⟨entry,mem,⟨attr,list,stop,over',names⟩,there⟩ := named
    refine ⟨(attr,some list),attrsGives.2 stop,?_⟩
    simp only [if_pos over']
    exact givesMap.2 ⟨some d,(listLookupGives lasting found).2 ⟨entry,mem,names,there⟩,rfl⟩

theorem againReach (start c : Record) :
    ReflTransGen (Goes (Steps fun n => againBody vol type (lookup n) n)) start c ↔ ReflTransGen (Leads vol type Found) start c := by
  constructor
  · intro reach
    induction reach with
    | refl => exact .refl
    | tail _ last ih =>
      rcases (againGoes lasting found _ _).1 last with leads | ⟨rfl,_⟩
      · exact ih.tail leads
      · exact ih
  · have goes : Leads vol type Found ≤ Goes (Steps fun n => againBody vol type (lookup n) n) := fun c d leads =>
      (againGoes lasting found c d).2 (Or.inl leads)
    exact ReflTransGen.mono goes start c

omit found in
theorem againStops {c r : Record} : Steps (fun n => againBody vol type (lookup n) n) c (.inl (some (r,attr))) ↔
    r = c ∧ ∃ list, AttrsStop c.mem type (firstAttr c) (attr,list) ∧ attrType c.mem attr ≠ atEnd := by
  refine (givesBind (attrsLasting c.mem type (firstAttr c) none) (againLasting lasting c)).trans ?_
  constructor
  · rintro ⟨⟨a,list⟩,given,rest⟩
    simp only at rest
    by_cases over' : attrType c.mem a = atEnd
    · simp only [if_pos over'] at rest
      cases list with
      | none => cases givesConst.1 rest
      | some list =>
        obtain ⟨r,_,same⟩ := givesMap.1 rest
        cases r <;> cases same
    · simp only [if_neg over'] at rest
      cases givesConst.1 rest
      exact ⟨rfl,list,attrsGives.1 given,over'⟩
  · rintro ⟨rfl,list,stop,some'⟩
    refine ⟨(attr,list),attrsGives.2 stop,?_⟩
    simp only [if_neg some']
    exact givesConst.2 rfl

theorem attrLookupGives {r : Record} : Gives (fun n => ntfsAttrLookup vol (lookup n) type mrec n) (some (r,attr)) ↔
    AttrFound vol type Found mrec r attr := by
  unfold ntfsAttrLookup
  by_cases none' : type = atEnd
  · simp only [if_pos none']
    refine iff_of_false (fun here => by cases givesConst.1 here) ?_
    rintro ⟨_,_,⟨_,stop⟩,some'⟩
    exact stop ⟨some',Or.inr (by rw [none']; exact some')⟩
  simp only [if_neg none',lookupAgainLoop]
  rw [loopGives (fun c n => againKeeps (fun file => lasting file n) (Nat.le_succ n) type c) fun _ _ => Iff.rfl]
  constructor
  · rintro ⟨last,reach,stop⟩
    obtain ⟨rfl,here⟩ := (againStops lasting).1 stop
    exact ⟨(againReach lasting found mrec r).1 reach,here⟩
  · rintro ⟨reach,here⟩
    exact ⟨r,(againReach lasting found mrec r).2 reach,(againStops lasting).2 ⟨rfl,here⟩⟩

section
variable (ends : ∀ file, (Answers fun n => lookup n file) ↔ RecordEnds file)
include ends

/- Where a record is named twice, or names itself, the walk comes back. -/
theorem tidyAgain : ((∀ c, ReflTransGen (Goes (Steps fun n => againBody vol type (lookup n) n)) mrec c →
      Answers fun n => againBody vol type (lookup n) n c) ∧ NoReturn (Steps fun n => againBody vol type (lookup n) n) mrec) ↔
    RecordsEnd vol type Found RecordEnds mrec := by
  have goes : Leads vol type Found ≤ Goes (Steps fun n => againBody vol type (lookup n) n) := fun c d leads =>
    (againGoes lasting found c d).2 (Or.inl leads)
  constructor
  · rintro ⟨answers,never⟩
    have other : ∀ c, ReflTransGen (Leads vol type Found) mrec c → ∀ entry mem, RecordNames vol type c entry mem →
        ¬ namesSame c mem entry := fun c reach entry mem names same =>
      sameReturns ((againReach lasting found mrec c).2 reach)
        ((againGoes lasting found c c).2 (Or.inr ⟨rfl,entry,mem,names,same⟩)) never
    intro c reach
    obtain ⟨attrs,lists⟩ := (againAnswers lasting ends).1 (answers c ((againReach lasting found mrec c).2 reach))
    refine ⟨attrs,fun attr list stop over' => (lists attr list stop over').1,other c reach,?_,?_⟩
    · rintro entry mem names
      have differs := other c reach entry mem names
      obtain ⟨attr,list,stop,over',named⟩ := names
      exact (lists attr list stop over').2 entry mem named differs
    · intro entry mem names later path entry' mem' names' again
      obtain ⟨next,first,rest⟩ := TransGen.head'_iff.1 path
      obtain ⟨entry'',mem'',names'',_,there⟩ := id first
      obtain ⟨rfl,rfl⟩ := namesOnly names names''
      have back : Leads vol type Found later next :=
        ⟨entry',mem',names',other later (reach.trans path.to_reflTransGen) entry' mem' names',by rw [again]; exact there⟩
      have circle : TransGen (Leads vol type Found) next next := TransGen.tail' rest back
      exact never next ((againReach lasting found mrec next).2 (reach.tail first)) (TransGen.mono goes next next circle)
  · intro tidy
    have onward : ∀ c d, ReflTransGen (Leads vol type Found) mrec c →
        Goes (Steps fun n => againBody vol type (lookup n) n) c d → Leads vol type Found c d := by
      intro c d reach go
      rcases (againGoes lasting found c d).1 go with leads | ⟨_,entry,mem,names,same⟩
      · exact leads
      · exact absurd same ((tidy c reach).other entry mem names)
    refine ⟨fun c reach => ?_,fun c reach again => ?_⟩
    · have here := tidy c ((againReach lasting found mrec c).1 reach)
      refine (againAnswers lasting ends).2 ⟨here.attrs,fun attr list stop over' => ⟨here.list attr list stop over',?_⟩⟩
      exact fun entry mem named _ => here.named entry mem ⟨attr,list,stop,over',named⟩
    · have reach := (againReach lasting found mrec c).1 reach
      have path : ∀ d, TransGen (Goes (Steps fun n => againBody vol type (lookup n) n)) c d → TransGen (Leads vol type Found) c d := by
        intro d path
        induction path with
        | single go => exact .single (onward c _ reach go)
        | tail _ last ih => exact ih.tail (onward _ _ (reach.trans ih.to_reflTransGen) last)
      have circle := path c again
      obtain ⟨_,⟨entry,mem,names,_⟩,_⟩ := TransGen.head'_iff.1 circle
      exact (tidy c reach).once entry mem names c circle entry mem names rfl

theorem attrLookupAnswers {records : Set Record} (finite : records.Finite)
    (inside : ∀ file r, file < 2^32 → Found file r → r ∈ records) :
    Answers (fun n => ntfsAttrLookup vol (lookup n) type mrec n) ↔ type = atEnd ∨ RecordsEnd vol type Found RecordEnds mrec := by
  unfold ntfsAttrLookup
  by_cases none' : type = atEnd
  · simp only [if_pos none']
    exact iff_of_true (answersConst.2 rfl) (Or.inl none')
  simp only [if_neg none',lookupAgainLoop]
  rw [or_iff_right none',← tidyAgain lasting found ends]
  have closed : ∀ c ∈ insert mrec records, ∀ d, Goes (Steps fun n => againBody vol type (lookup n) n) c d → d ∈ insert mrec records := by
    intro c old d go
    rcases (againGoes lasting found c d).1 go with ⟨entry,mem,_,_,there⟩ | ⟨rfl,_⟩
    · exact Set.mem_insert_of_mem _ (inside _ _ (Nat.mod_lt _ (by norm_num)) there)
    · exact old
  exact loopAnswers (fun c n => againKeeps (fun file => lasting file n) (Nat.le_succ n) type c) (fun _ _ => Iff.rfl)
    (reachFinite (finite.insert mrec) (Set.mem_insert _ _) closed)

end
end
end

section
variable (vol : Volume)

/- A record of the first cluster of $MFT: its place is known. -/
def nearRecord (file : Nat) : Option Record := if vol.mftLcn = 0 then none else loadRecord vol file vol.mftLcn

def nearLookup (file : Nat) : Option (Option Record) := if vol.recordVcn file = 0 then some (nearRecord vol file) else none

def NearFound (file : Nat) (r : Record) : Prop := vol.recordVcn file = 0 ∧ nearRecord vol file = some r

/- A run of the list that does not have the VCN. -/
def VcnPassed (vcn : Nat) (chunk : MappingChunk) : Prop := ¬ (chunk.vcn ≤ vcn ∧ vcn < (chunk.vcn + chunk.len) % 2^64)

instance (vcn) : DecidablePred (VcnPassed vcn) := fun _ => by unfold VcnPassed; infer_instance

/- The VCN behind a run is that of the next one. -/
def vcnAfter (chunk : MappingChunk) : MappingChunk := { chunk with vcn := (chunk.vcn + chunk.len) % 2^64 }

/- What the search for a VCN does with a run. -/
def findVisit (vcn : Nat) (chunk : MappingChunk) : Option (Nat ⊕ MappingChunk) :=
  some (if VcnPassed vcn chunk then .inr (vcnAfter chunk) else .inl (((vcn - chunk.vcn : Nat) + chunk.lcn) % 2^64).toNat)

/- The search for a VCN in the runs of an attribute. -/
def VcnEnds (vcn : Nat) (mem : Nat → UInt8) (attr : Nat) : Prop :=
  RunsEnd mem (mappingPairs mem attr) (attrNext mem attr) vcnAfter (VcnPassed vcn) fun _ => True

/- The LCN of a VCN, by the first run that has it. -/
def VcnAt (vcn : Nat) (mem : Nat → UInt8) (attr lcn : Nat) : Prop := ∃ chunk,
  RunComes mem (mappingPairs mem attr) (attrNext mem attr) vcnAfter (VcnPassed vcn) chunk ∧ ¬ VcnPassed vcn chunk ∧
  lcn = (((vcn - chunk.vcn : Nat) + chunk.lcn) % 2^64).toNat

/- The VCN of a record in the $DATA attribute that has been found. -/
def dataLcn (file turns : Nat) (at' : Record × Nat) : Option Nat :=
  if nonResident at'.1.mem at'.2 then
    findLcn at'.1.mem (mappingPairs at'.1.mem at'.2) (attrNext at'.1.mem at'.2) (vol.recordVcn file) turns 0 mappingChunkInit
  else some 0

/- The place of a record beyond the first cluster of $MFT: the lookup of $MFT's own $DATA comes to an end,
with records of the first cluster alone, and so does the search in the runs. -/
def FarEnds (file : Nat) : Prop := ∀ mrec, nearRecord vol 0 = some mrec → isDirectory mrec = false →
  RecordsEnd vol atData (NearFound vol) (fun file => vol.recordVcn file = 0) mrec ∧
  ∀ found attr, AttrFound vol atData (NearFound vol) mrec found attr → nonResident found.mem attr →
    VcnEnds (vol.recordVcn file) found.mem attr

def RecordEnds (file : Nat) : Prop := vol.recordVcn file = 0 ∨ FarEnds vol file

/- The place of a record beyond the first cluster, which is not 0. -/
def FarAt (file lcn : Nat) : Prop := lcn ≠ 0 ∧ ∃ mrec found attr, nearRecord vol 0 = some mrec ∧ isDirectory mrec = false ∧
  AttrFound vol atData (NearFound vol) mrec found attr ∧ nonResident found.mem attr ∧ VcnAt (vol.recordVcn file) found.mem attr lcn

def RecordFound (file : Nat) (r : Record) : Prop :=
  NearFound vol file r ∨ vol.recordVcn file ≠ 0 ∧ ∃ lcn, FarAt vol file lcn ∧ loadRecord vol file lcn = some r

/- The lookup of a record, with as many turns as there may be lookups within it. -/
def recordLookup (n file : Nat) : Option (Option Record) := ntfsMftRecordLookupAny vol n n file

end

section
variable {vol : Volume} {file : Nat}

theorem findLcnLoop (mem : Nat → UInt8) (stream attrLen vcn turns : Nat) (at' : Nat × MappingChunk) :
    findLcn mem stream attrLen vcn turns at'.1 at'.2 = loop (runsBody mem stream attrLen 0 (findVisit vcn)) turns at' := by
  induction turns generalizing at' with
  | zero => rfl
  | succ turns ih =>
    unfold findLcn loop runsBody findVisit
    cases parse : parseDataRun mem stream at'.1 attrLen at'.2 with
    | none => rfl
    | some run =>
      obtain ⟨offset,chunk⟩ := run
      simp only
      by_cases over' : chunk.mapEnd
      · rw [if_neg (endNoHole parse over'),if_pos over',if_pos over']
      rw [if_neg over',if_neg over']
      by_cases hole : chunk.mapUnallocated
      · rw [if_pos hole,if_pos hole]
        exact ih (offset,chunk)
      rw [if_neg hole,if_neg hole]
      by_cases here : chunk.vcn ≤ vcn ∧ vcn < (chunk.vcn + chunk.len) % 2^64
      · rw [if_pos here,if_neg fun pass => pass here]
        rfl
      · have passed : VcnPassed vcn chunk := here
        rw [if_neg here,if_pos passed]
        exact ih (offset,vcnAfter chunk)

theorem findPasses (vcn : Nat) (chunk next : MappingChunk) :
    Gives (fun _ => findVisit vcn chunk) (.inr next) ↔ VcnPassed vcn chunk ∧ next = vcnAfter chunk := by
  rw [givesConst,findVisit,Option.some_inj]
  by_cases pass : VcnPassed vcn chunk
  · rw [if_pos pass,Sum.inr.injEq,eq_comm,and_iff_right pass]
  · rw [if_neg pass]
    exact iff_of_false (fun here => by cases here) fun here => pass here.1

theorem findGives {vcn lcn : Nat} {mem : Nat → UInt8} {attr : Nat} (some' : lcn ≠ 0) :
    Gives (fun n => findLcn mem (mappingPairs mem attr) (attrNext mem attr) vcn n 0 mappingChunkInit) lcn ↔ VcnAt vcn mem attr lcn := by
  simp only [findLcnLoop _ _ _ _ _ (0,mappingChunkInit)]
  rw [runsGives (findPasses vcn) fun c => lastingConst (findVisit _ c),or_iff_right fun here => some' here.2]
  refine exists_congr fun chunk => and_congr_right fun _ => ?_
  rw [givesConst,findVisit,Option.some_inj]
  by_cases pass : VcnPassed vcn chunk
  · rw [if_pos pass]
    exact iff_of_false (fun here => by cases here) fun here => here.1 pass
  · rw [if_neg pass,Sum.inl.injEq,eq_comm,and_iff_right pass]

theorem dataLasting (vol : Volume) (file : Nat) (at' : Record × Nat) : Lasting fun n => dataLcn vol file n at' := by
  unfold dataLcn
  split_ifs
  · simp only [findLcnLoop _ _ _ _ _ (0,mappingChunkInit)]
    exact loopLasting (runsBodyLasting fun c => lastingConst (findVisit _ c)) _
  · exact lastingConst _

theorem dataAnswers {at' : Record × Nat} : Answers (fun n => dataLcn vol file n at') ↔
    (nonResident at'.1.mem at'.2 → VcnEnds (vol.recordVcn file) at'.1.mem at'.2) := by
  unfold dataLcn
  by_cases away : nonResident at'.1.mem at'.2
  · simp only [if_pos away,findLcnLoop _ _ _ _ _ (0,mappingChunkInit)]
    rw [imp_iff_right away]
    refine runsAnswers (findPasses _) (fun c => lastingConst (findVisit _ c)) (fun c fits => ?_) fun c =>
      iff_of_true (answersConst.2 rfl) trivial
    exact ⟨Nat.mod_lt _ (by norm_num),fits.low,fits.high,fits.len⟩
  · simp only [if_neg away]
    exact iff_of_true (answersConst.2 rfl) fun away' => absurd away' away

theorem recordLcnFar (far : vol.recordVcn file ≠ 0) (lookup : Nat → Option (Option Record)) (turns : Nat) :
    recordLcn vol lookup turns file = onFound (lookup 0) 0 fun mrec =>
      if isDirectory mrec then some 0 else onFound (ntfsAttrLookup vol lookup atData mrec turns) 0 (dataLcn vol file turns) := by
  rw [recordLcn,if_neg far]
  cases lookup 0 with
  | none => rfl
  | some zero =>
    cases zero with
    | none => rfl
    | some mrec =>
      simp only [onFound,Option.bind_some,Option.elim]
      by_cases directory : isDirectory mrec
      · rw [if_pos directory,if_pos directory]
      rw [if_neg directory,if_neg directory]
      cases ntfsAttrLookup vol lookup atData mrec turns with
      | none => rfl
      | some data =>
        cases data with
        | none => rfl
        | some at' => rfl

theorem recordLcnKeeps {lookup lookup' : Nat → Option (Option Record)} (keeps : ∀ file, Keeps (lookup file) (lookup' file))
    {turns turns' : Nat} (le : turns ≤ turns') : Keeps (recordLcn vol lookup turns file) (recordLcn vol lookup' turns' file) := by
  by_cases far : vol.recordVcn file = 0
  · rw [recordLcn,recordLcn,if_pos far,if_pos far]
    exact keepsSelf _
  rw [recordLcnFar far,recordLcnFar far]
  refine keepsFound (keeps 0) fun mrec => ?_
  split_ifs
  · exact keepsSelf _
  · exact keepsFound (attrLookupKeeps keeps le atData mrec) fun at' => lastingLe (dataLasting vol file at') le

/- The record at an LCN, which is 0 for none. -/
def placedRecord (vol : Volume) (file lcn : Nat) : Option Record := if lcn = 0 then none else loadRecord vol file lcn

theorem lookupPlaced (vol : Volume) (turns depth file : Nat) : ntfsMftRecordLookupAny vol turns (depth + 1) file =
    (recordLcn vol (ntfsMftRecordLookupAny vol turns depth) turns file).map (placedRecord vol file) := by
  rw [ntfsMftRecordLookupAny]
  cases recordLcn vol (ntfsMftRecordLookupAny vol turns depth) turns file with
  | none => rfl
  | some lcn =>
    cases lcn with
    | zero => rfl
    | succ lcn => simp [placedRecord]

theorem recordLookupKeeps {turns turns' depth depth' : Nat} (le : turns ≤ turns') (deep : depth ≤ depth') (file : Nat) :
    Keeps (ntfsMftRecordLookupAny vol turns depth file) (ntfsMftRecordLookupAny vol turns' depth' file) := by
  induction depth generalizing depth' file with
  | zero => intro r here; cases here
  | succ depth ih =>
    obtain ⟨depth',rfl⟩ := Nat.exists_eq_add_of_le' (Nat.le_trans (Nat.le_add_left 1 depth) deep)
    rw [lookupPlaced,lookupPlaced]
    exact keepsMap (recordLcnKeeps (fun file' => ih (by omega) file') le) _

theorem recordLookupLasting (vol : Volume) (file : Nat) : Lasting fun n => recordLookup vol n file :=
  fun n => recordLookupKeeps (Nat.le_succ n) (Nat.le_succ n) file

theorem nearAt (near : vol.recordVcn file = 0) (turns depth : Nat) :
    ntfsMftRecordLookupAny vol turns (depth + 1) file = some (nearRecord vol file) := by
  rw [lookupPlaced,recordLcn,if_pos near]
  rfl

theorem zeroNear (vol : Volume) : vol.recordVcn 0 = 0 := by simp [Volume.recordVcn]

theorem nearKeeps (turns depth file : Nat) : Keeps (nearLookup vol file) (ntfsMftRecordLookupAny vol turns (depth + 1) file) := by
  unfold nearLookup
  split_ifs with near
  · rw [nearAt near]
    exact keepsSelf _
  · intro r here
    cases here

theorem lookupNear {turns depth : Nat} (none' : ∀ file, vol.recordVcn file ≠ 0 → ntfsMftRecordLookupAny vol turns (depth + 1) file = none) :
    ntfsMftRecordLookupAny vol turns (depth + 1) = nearLookup vol := by
  funext file
  unfold nearLookup
  by_cases near : vol.recordVcn file = 0
  · rw [if_pos near,nearAt near]
  · rw [if_neg near,none' file near]

theorem nearData {turns depth n type : Nat} {mrec : Record} {data data' : Option (Record × Nat)}
    (looked : ntfsAttrLookup vol (ntfsMftRecordLookupAny vol turns (depth + 1)) type mrec turns = some data)
    (looked' : ntfsAttrLookup vol (nearLookup vol) type mrec n = some data') :
    ntfsAttrLookup vol (nearLookup vol) type mrec (turns + n) = some data := by
  have early : ntfsAttrLookup vol (nearLookup vol) type mrec (turns + n) = some data' :=
    attrLookupKeeps (fun file => keepsSelf _) (Nat.le_add_left n turns) type mrec data' looked'
  have late := attrLookupKeeps (fun file => nearKeeps (turns + n) depth file) (Nat.le_refl _) type mrec data' early
  have same := attrLookupKeeps (fun file => recordLookupKeeps (Nat.le_add_right turns n) (Nat.le_refl (depth + 1)) file)
    (Nat.le_add_right turns n) type mrec data looked
  rw [late] at same
  rwa [same] at early

/- A lookup that answers has found the place of the record with records of the first cluster. -/
theorem lookupFar {turns depth : Nat} {r : Option Record} (far : vol.recordVcn file ≠ 0)
    (ok : ntfsMftRecordLookupAny vol turns depth file = some r) :
    Answers fun n => recordLcn vol (nearLookup vol) n file := by
  induction depth generalizing file r with
  | zero => cases ok
  | succ depth ih =>
    rw [lookupPlaced] at ok
    obtain ⟨lcn,ok,_⟩ := Option.map_eq_some_iff.mp ok
    cases depth with
    | zero =>
      rw [recordLcnFar far] at ok
      cases ok
    | succ depth =>
      by_cases none' : ∀ file, vol.recordVcn file ≠ 0 → ntfsMftRecordLookupAny vol turns (depth + 1) file = none
      · rw [lookupNear none'] at ok
        exact ⟨turns,lcn,ok⟩
      push Not at none'
      obtain ⟨file',far',some'⟩ := none'
      obtain ⟨r',ok'⟩ := Option.ne_none_iff_exists'.mp some'
      obtain ⟨n,lcn',there⟩ := ih far' ok'
      -- The lookup of $DATA is the same for all records.
      rw [recordLcnFar far] at ok
      simp only [recordLcnFar far'] at there
      refine ⟨turns + n,lcn,?_⟩
      simp only [recordLcnFar far]
      have zero : ntfsMftRecordLookupAny vol turns (depth + 1) 0 = nearLookup vol 0 := by
        rw [nearAt (zeroNear vol),nearLookup,if_pos (zeroNear vol)]
      rw [zero] at ok
      obtain ⟨found,at',rest⟩ := Option.bind_eq_some_iff.mp ok
      refine Option.bind_eq_some_iff.mpr ⟨found,at',?_⟩
      obtain ⟨found',at'',rest'⟩ := Option.bind_eq_some_iff.mp there
      rw [at'] at at''
      cases at''
      cases found with
      | none => exact rest
      | some mrec =>
        simp only [Option.elim] at rest rest' ⊢
        split_ifs at rest rest' ⊢ with directory
        · exact rest
        obtain ⟨data,looked,search⟩ := Option.bind_eq_some_iff.mp rest
        obtain ⟨data',looked',_⟩ := Option.bind_eq_some_iff.mp rest'
        have early := nearData looked looked'
        refine Option.bind_eq_some_iff.mpr ⟨data,early,?_⟩
        cases data with
        | none => exact search
        | some at' => exact lastingLe (dataLasting vol file at') (Nat.le_add_right turns n) lcn search

def records (vol : Volume) : Set Record :=
  {r | ∃ file < 2^32, ∃ lcn, (lcn = vol.mftLcn ∨ lcn < 2^64) ∧ loadRecord vol file lcn = some r}

theorem recordsFinite (vol : Volume) : (records vol).Finite := by
  have places := (Set.finite_Iio (2^32)).prod ((Set.finite_Iio (2^64)).insert vol.mftLcn)
  refine ((places.image fun p => loadRecord vol p.1 p.2).preimage (Option.some_injective _).injOn).subset ?_
  rintro r ⟨file,small,lcn,place,loaded⟩
  exact ⟨(file,lcn),⟨small,place⟩,loaded⟩

theorem placedInside {lcn : Nat} {r : Record} (small : file < 2^32) (place : lcn = vol.mftLcn ∨ lcn < 2^64)
    (ok : placedRecord vol file lcn = some r) : r ∈ records vol := by
  unfold placedRecord at ok
  split_ifs at ok
  exact ⟨file,small,lcn,place,ok⟩

theorem findLcnSmall {mem : Nat → UInt8} {stream attrLen vcn turns offset lcn : Nat} {chunk : MappingChunk}
    (ok : findLcn mem stream attrLen vcn turns offset chunk = some lcn) : lcn < 2^64 := by
  induction turns generalizing offset chunk with
  | zero => cases ok
  | succ turns ih =>
    unfold findLcn at ok
    split at ok
    · cases ok
      norm_num
    · split_ifs at ok
      · exact ih ok
      · cases ok
        norm_num
      · cases ok
        omega
      · exact ih ok

theorem lcnPlace {lookup : Nat → Option (Option Record)} {turns lcn : Nat} (ok : recordLcn vol lookup turns file = some lcn) :
    lcn = vol.mftLcn ∨ lcn < 2^64 := by
  by_cases near : vol.recordVcn file = 0
  · rw [recordLcn,if_pos near] at ok
    cases ok
    exact Or.inl rfl
  refine Or.inr ?_
  rw [recordLcnFar near] at ok
  obtain ⟨zero,_,rest⟩ := Option.bind_eq_some_iff.mp ok
  cases zero with
  | none =>
    cases rest
    norm_num
  | some mrec =>
    simp only [Option.elim] at rest
    split_ifs at rest
    · cases rest
      norm_num
    obtain ⟨data,_,rest⟩ := Option.bind_eq_some_iff.mp rest
    cases data with
    | none =>
      cases rest
      norm_num
    | some at' =>
      simp only [Option.elim,dataLcn] at rest
      split_ifs at rest
      · exact findLcnSmall rest
      · cases rest
        norm_num

theorem lookupInside {turns depth : Nat} {r : Record} (small : file < 2^32)
    (ok : ntfsMftRecordLookupAny vol turns depth file = some (some r)) : r ∈ records vol := by
  cases depth with
  | zero => cases ok
  | succ depth =>
    rw [lookupPlaced] at ok
    obtain ⟨lcn,found,placed⟩ := Option.map_eq_some_iff.mp ok
    exact placedInside small (lcnPlace found) placed

theorem nearInside {r : Record} (small : file < 2^32) (found : NearFound vol file r) : r ∈ records vol :=
  placedInside small (Or.inl rfl) found.2

theorem nearAnswers (file : Nat) : (Answers fun _ => nearLookup vol file) ↔ vol.recordVcn file = 0 := by
  unfold nearLookup
  by_cases near : vol.recordVcn file = 0
  · simp only [if_pos near]
    exact iff_of_true (answersConst.2 rfl) near
  · simp only [if_neg near]
    exact iff_of_false (fun answers => by simpa using answersConst.1 answers) near

theorem nearGives (file : Nat) (r : Record) : Gives (fun _ => nearLookup vol file) (some r) ↔ NearFound vol file r := by
  rw [givesConst,nearLookup,NearFound]
  split_ifs with near
  · rw [Option.some_inj,and_iff_right near]
  · exact iff_of_false (fun here => by cases here) fun here => near here.1

theorem dataFound (file : Nat) (mrec : Record) :
    Lasting fun n => onFound (ntfsAttrLookup vol (nearLookup vol) atData mrec n) 0 (dataLcn vol file n) :=
  lastingFound (attrLookupLasting (fun file => lastingConst (nearLookup vol file)) vol atData mrec) (dataLasting vol file)

theorem placeFound (file : Nat) (mrec : Record) : Lasting fun n =>
    if isDirectory mrec then some 0 else onFound (ntfsAttrLookup vol (nearLookup vol) atData mrec n) 0 (dataLcn vol file n) := by
  split_ifs
  · exact lastingConst _
  · exact dataFound file mrec

theorem farGives {lcn : Nat} (far : vol.recordVcn file ≠ 0) (some' : lcn ≠ 0) :
    Gives (fun n => recordLcn vol (nearLookup vol) n file) lcn ↔ FarAt vol file lcn := by
  simp only [recordLcnFar far]
  rw [givesFound (lastingConst _) (placeFound file),or_iff_right fun here => some' here.2,FarAt,and_iff_right some']
  refine exists_congr fun mrec => ?_
  rw [nearGives,NearFound,and_iff_right (zeroNear vol)]
  cases directory : isDirectory mrec with
  | true =>
    simp only [if_true]
    refine iff_of_false (fun here => some' (Option.some.inj (givesConst.1 here.2)).symm) ?_
    rintro ⟨_,_,_,other,_⟩
    cases other
  | false =>
    simp only [Bool.false_eq_true,if_false,true_and]
    rw [givesFound (attrLookupLasting (fun file => lastingConst (nearLookup vol file)) vol atData mrec) (dataLasting vol file),
      or_iff_right fun here => some' here.2]
    constructor
    · rintro ⟨zero,⟨found,attr⟩,looked,given⟩
      refine ⟨found,attr,zero,(attrLookupGives (fun file => lastingConst (nearLookup vol file)) nearGives).1 looked,?_⟩
      unfold dataLcn at given
      by_cases away : nonResident found.mem attr
      · simp only [if_pos away] at given
        exact ⟨away,(findGives some').1 given⟩
      · simp only [if_neg away] at given
        exact absurd (Option.some.inj (givesConst.1 given)).symm some'
    · rintro ⟨found,attr,zero,here,away,place⟩
      refine ⟨zero,(found,attr),(attrLookupGives (fun file => lastingConst (nearLookup vol file)) nearGives).2 here,?_⟩
      simp only [dataLcn,if_pos away]
      exact (findGives some').2 place

theorem farAnswers (far : vol.recordVcn file ≠ 0) :
    (Answers fun n => recordLcn vol (nearLookup vol) n file) ↔ FarEnds vol file := by
  simp only [recordLcnFar far]
  rw [answersFound (lastingConst _) (placeFound file),and_iff_right ((nearAnswers 0).mpr (zeroNear vol))]
  unfold FarEnds
  refine forall_congr' fun mrec => imp_congr ?_ ?_
  · rw [givesConst,nearLookup,if_pos (zeroNear vol),Option.some_inj]
  cases directory : isDirectory mrec with
  | true => exact iff_of_true (answersConst.2 rfl) fun other => by cases other
  | false =>
    simp only [Bool.false_eq_true,if_false,true_imp_iff]
    have lookups : ∀ file', Lasting fun _ => nearLookup vol file' := fun file' => lastingConst _
    rw [answersFound (attrLookupLasting lookups vol atData mrec) (dataLasting vol file),
      attrLookupAnswers lookups nearGives nearAnswers (recordsFinite vol) fun _ _ small found => nearInside small found,
      or_iff_right (by decide)]
    simp only [dataAnswers,Prod.forall,attrLookupGives lookups nearGives]

theorem recordAnswers (file : Nat) : (Answers fun n => recordLookup vol n file) ↔ RecordEnds vol file := by
  by_cases far : vol.recordVcn file = 0
  · exact iff_of_true ⟨1,_,nearAt far 1 0⟩ (Or.inl far)
  rw [RecordEnds,or_iff_right far,← farAnswers far]
  constructor
  · rintro ⟨n,r,ok⟩
    exact lookupFar far ok
  · rintro ⟨n,lcn,ok⟩
    refine ⟨n + 2,placedRecord vol file lcn,?_⟩
    simp only [recordLookup]
    rw [lookupPlaced,recordLcnKeeps (fun file' => nearKeeps (n + 2) n file') (by omega) lcn ok]
    rfl

theorem recordGives (file : Nat) (r : Record) : Gives (fun n => recordLookup vol n file) (some r) ↔ RecordFound vol file r := by
  by_cases near : vol.recordVcn file = 0
  · rw [RecordFound,or_iff_left fun here => here.1 near]
    have same : Gives (fun n => recordLookup vol n file) (nearRecord vol file) := ⟨1,nearAt near 1 0⟩
    constructor
    · exact fun given => ⟨near,(givesOnly (recordLookupLasting vol file) same given)⟩
    · exact fun found => found.2 ▸ same
  rw [RecordFound,or_iff_right fun here => near here.1,and_iff_right near]
  have placed {lcn : Nat} (given : Gives (fun n => recordLcn vol (nearLookup vol) n file) lcn) :
      Gives (fun n => recordLookup vol n file) (placedRecord vol file lcn) := by
    obtain ⟨n,here⟩ := given
    refine ⟨n + 2,?_⟩
    simp only [recordLookup]
    rw [lookupPlaced,recordLcnKeeps (fun file' => nearKeeps (n + 2) n file') (by omega) lcn here]
    rfl
  constructor
  · rintro ⟨n,ok⟩
    obtain ⟨m,lcn,here⟩ := lookupFar near ok
    have same := givesOnly (recordLookupLasting vol file) (placed ⟨m,here⟩) ⟨n,ok⟩
    unfold placedRecord at same
    split_ifs at same with none'
    exact ⟨lcn,(farGives near none').1 ⟨m,here⟩,same⟩
  · rintro ⟨lcn,far,loaded⟩
    have given := placed ((farGives near far.1).2 far)
    rwa [placedRecord,if_neg far.1,loaded] at given

theorem recordInside {r : Record} (small : file < 2^32) (found : RecordFound vol file r) : r ∈ records vol := by
  obtain ⟨n,here⟩ := (recordGives file r).2 found
  exact lookupInside small here

theorem lookupAnswers {type : Nat} {mrec : Record} : (Answers fun n => ntfsAttrLookup vol (recordLookup vol n) type mrec n) ↔
    type = atEnd ∨ RecordsEnd vol type (RecordFound vol) (RecordEnds vol) mrec :=
  attrLookupAnswers (recordLookupLasting vol) recordGives recordAnswers (recordsFinite vol) fun _ _ => recordInside

theorem lookupGives {type attr : Nat} {mrec r : Record} :
    Gives (fun n => ntfsAttrLookup vol (recordLookup vol n) type mrec n) (some (r,attr)) ↔
      AttrFound vol type (RecordFound vol) mrec r attr := attrLookupGives (recordLookupLasting vol) recordGives

end
end Syslinux.Ntfs
