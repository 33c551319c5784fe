import Syslinux.SuspReads

/-! susp_rr_check_signatures of core/fs/iso9660/susp_rr.c: the SP entry of the root directory,
and the ER entries behind it. -/
namespace Syslinux.Susp

def suStart (dirRec : Nat → UInt8) : Nat :=
  let lenFi := (dirRec 32).toNat
  33 + lenFi + (if lenFi % 2 = 0 then 1 else 0)

/- The seven bytes of an SP entry, LEN_SKP apart. -/
def isSp (sua : Nat → UInt8) : Bool :=
  sua 0 = letterS ∧ sua 1 = 0x50 ∧ sua 2 = 7 ∧ sua 3 = 1 ∧ sua 4 = 0xbe ∧ sua 5 = 0xef

/- The skip length that is set, where there is an SP entry. -/
def suspRrCheckSp (dirRec : Nat → UInt8) (trySkip : Nat) : Option Nat :=
  let readPos := suStart dirRec + trySkip
  if (dirRec 0).toNat < readPos + 7 then none
  else if ¬ isSp fun i => dirRec (readPos + i) then none
  else some (dirRec 6).toNat

def rrip1991a : List UInt8 := [0x52,0x52,0x49,0x50,0x5f,0x31,0x39,0x39,0x31,0x41]
def ieeeP1282 : List UInt8 := [0x49,0x45,0x45,0x45,0x5f,0x50,0x31,0x32,0x38,0x32]
def ieee1282 : List UInt8 := [0x49,0x45,0x45,0x45,0x5f,0x31,0x32,0x38,0x32]

/- u_data[n], and the len_id bytes from data + 4 on. -/
def dataByte (data : List UInt8) (n : Nat) : Nat := (data.getD n 0).toNat
def erLength (data : List UInt8) : Nat := 4 + dataByte data 0 + dataByte data 1 + dataByte data 2
def erId (data : List UInt8) : List UInt8 := (data.drop 4).take (dataByte data 0)

/- The loop over the ER entries: rrip_112 where it breaks. A turn takes four bytes or more. -/
def scanEr (data : List UInt8) : Nat → Nat → Option Nat
  | 0,_ => none
  | turns+1,i =>
      if data.length ≤ i then none
      else if data.length < i + erLength data then none
      else if dataByte data 0 = 10 ∧ erId data = rrip1991a then some 0
      else if dataByte data 0 = 10 ∧ erId data = ieeeP1282 ∨ dataByte data 0 = 9 ∧ erId data = ieee1282 then some 1
      else scanEr data turns (i + erLength data)

def erSig : UInt8 × UInt8 := (letterE,0x52)

/- rrip_112, of what susp_rr_get_entries has returned; none stands for no_rr. -/
def findRockRidge (ret : Int) (data : List UInt8) : Option Nat :=
  if ret ≤ 0 ∨ data.length < 8 then none else scanEr data data.length 0

/- The return value and what is set in struct iso_sb_info; demand is bit 0 of flag. -/
def suspRrCheckSignatures (r : Reader Unit Nat) (blockSize rootLba : Nat) (demand : Bool) (turns : Nat) :
    Option (Nat × SbInfo) :=
  if blockSize ≠ 2048 then some (0,⟨0,0⟩)
  else
    let dirRec := r.byte (r.get () rootLba).2
    match (suspRrCheckSp dirRec 0).or (suspRrCheckSp dirRec 14) with
    | none => some (0,⟨0,0⟩)
    | some skip =>
        if ¬ demand then some (1,⟨1,skip⟩)
        else
          (suspRrGetEntries r dirRec erSig false ⟨1,skip⟩ turns ()).map fun res : Result Unit Nat =>
            match findRockRidge res.ret (res.data.getD []) with
            | none => (0,⟨0,skip⟩)
            | some rrip112 => (2 + rrip112,⟨1 + rrip112,skip⟩)

section
variable (r : Reader Unit Nat) (dirRec : Nat → UInt8)

/- The System Use area of the record starts with an SP entry, at its beginning or behind the 14
bytes of CD-ROM XA. -/
def SpAt (trySkip : Nat) : Prop :=
  suStart dirRec + trySkip + 7 ≤ (dirRec 0).toNat ∧ isSp fun i => dirRec (suStart dirRec + trySkip + i)

instance (trySkip : Nat) : Decidable (SpAt dirRec trySkip) := by unfold SpAt; infer_instance

def lenSkp (trySkip : Nat) : Nat := (dirRec (suStart dirRec + trySkip + 6)).toNat

def entryBehind (it : Iter Nat) : Option (Iter Nat) :=
  match (suspRrIterate r dirRec () it).2 with
  | .found _ next => some next
  | _ => none

def rockRidgeIds : List (List UInt8) := [rrip1991a,ieeeP1282,ieee1282]

/- An ER entry somewhere behind the SP entry has an identifier of Rock Ridge. -/
def HasRockRidge (trySkip : Nat) : Prop :=
  ∃ it n at' pos next, suspRrIterNew dirRec trySkip = some it ∧ Walk.state (entryBehind r dirRec) it n = some at' ∧
    (suspRrIterate r dirRec () at').2 = .found pos next ∧ pos.matches' r dirRec erSig ∧
    dataByte (pos.payload r dirRec false) 0 = (erId (pos.payload r dirRec false)).length ∧
    erId (pos.payload r dirRec false) ∈ rockRidgeIds

/- LEN_SKP is set, and Rock Ridge is enabled where an ER entry has it. -/
def SignaturesRight (rootLba trySkip : Nat) : Prop :=
  ∃ turns ret sbi, suspRrCheckSignatures r 2048 rootLba true turns = some (ret,sbi) ∧
    sbi.suspSkip = lenSkp dirRec trySkip ∧ (sbi.doRr ≠ 0 ↔ HasRockRidge r dirRec trySkip)

inductive Entries : Iter Nat → List (Iter Nat) → Prop where
  | last {it : Iter Nat} (over' : (suspRrIterate r dirRec () it).2 = .over') : Entries it []
  | entry {it pos next : Iter Nat} {es : List (Iter Nat)} (found : (suspRrIterate r dirRec () it).2 = .found pos next)
      (rest : Entries next es) : Entries it (pos::es)

def erEntries (es : List (Iter Nat)) : List (Iter Nat) := es.filter (Iter.matches' r dirRec erSig)
def erData (es : List (Iter Nat)) : List UInt8 := (erEntries r dirRec es).flatMap (Iter.payload r dirRec false)

/- The ER entries are all there, and take 100 KB at most. -/
structure Collects (it : Iter Nat) (es : List (Iter Nat)) : Prop where
  entries : Entries r dirRec it es
  long : ∀ e ∈ erEntries r dirRec es, 4 ≤ e.len r dirRec
  few : (erData r dirRec es).length ≤ 102400

/- The bytes begin with an ER entry that has an identifier of Rock Ridge. -/
def Announces (data : List UInt8) : Prop :=
  8 ≤ data.length ∧ erLength data ≤ data.length ∧ dataByte data 0 = (erId data).length ∧ erId data ∈ rockRidgeIds

instance (data : List UInt8) : Decidable (Announces data) :=
  decidable_of_iff (8 ≤ data.length ∧ erLength data ≤ data.length ∧ dataByte data 0 = (erId data).length ∧
    ∃ id ∈ rockRidgeIds, erId data = id) (by simp [Announces])

/- The ER entries behind the skip that is set begin with one of Rock Ridge, are all there and take 100 KB at most. -/
def RockRidgeFirst : Prop :=
  ∃ it es, suspRrIterNew dirRec (dirRec 6).toNat = some it ∧ Collects r dirRec it es ∧ Announces (erData r dirRec es)

/- Byte 6 of the record is LEN_SKP, the entries do not come back to where they have been, and
either the ER entries begin with one of Rock Ridge, or there is none among them and their bytes do not look like one. -/
def SignatureFirst (trySkip : Nat) : Prop :=
  (dirRec 6).toNat = lenSkp dirRec trySkip ∧
  (∀ it, suspRrIterNew dirRec (dirRec 6).toNat = some it → Walk.NoRepeat (turn r dirRec erSig false) (it,0)) ∧
  (RockRidgeFirst r dirRec ∧ HasRockRidge r dirRec trySkip ∨ ¬ RockRidgeFirst r dirRec ∧ ¬ HasRockRidge r dirRec trySkip)

end

section
variable {r : Reader Unit Nat} {dirRec : Nat → UInt8}

theorem checkedSp {trySkip : Nat} (sp : SpAt dirRec trySkip) (first : trySkip = 0 ∨ trySkip = 14 ∧ ¬ SpAt dirRec 0) :
    (suspRrCheckSp dirRec 0).or (suspRrCheckSp dirRec 14) = some (dirRec 6).toNat := by
  have found : ∀ skip, SpAt dirRec skip → suspRrCheckSp dirRec skip = some (dirRec 6).toNat := by
    rintro skip ⟨room,sp⟩
    rw [suspRrCheckSp,if_neg (by omega),if_neg (by simpa using sp)]
  have missing : ¬ SpAt dirRec 0 → suspRrCheckSp dirRec 0 = none := by
    intro no
    rw [suspRrCheckSp]
    by_cases short : (dirRec 0).toNat < suStart dirRec + 0 + 7
    · rw [if_pos short]
    · rw [if_neg short,if_pos]
      exact fun sp => no ⟨by omega,sp⟩
  rcases first with rfl | ⟨rfl,no⟩
  · rw [found 0 sp,Option.some_or]
  · rw [missing no,found 14 sp,Option.none_or]

theorem erMatch (r : Reader Unit Nat) (dirRec : Nat → UInt8) (es : List (Iter Nat)) {pos : Iter Nat} (same : pos.matches' r dirRec erSig) :
    erEntries r dirRec (pos::es) = pos::erEntries r dirRec es ∧
    erData r dirRec (pos::es) = pos.payload r dirRec false ++ erData r dirRec es := by
  have entries : erEntries r dirRec (pos::es) = pos::erEntries r dirRec es := List.filter_cons_of_pos same
  exact ⟨entries,by rw [erData,entries]; rfl⟩

theorem erOther (r : Reader Unit Nat) (dirRec : Nat → UInt8) (es : List (Iter Nat)) {pos : Iter Nat} (other : ¬ pos.matches' r dirRec erSig) :
    erEntries r dirRec (pos::es) = erEntries r dirRec es ∧ erData r dirRec (pos::es) = erData r dirRec es := by
  have entries : erEntries r dirRec (pos::es) = erEntries r dirRec es := List.filter_cons_of_neg other
  exact ⟨entries,by rw [erData,entries]; rfl⟩

/- What the loop collects are the ER entries up to a proper end. -/
theorem loopCollects {turns : Nat} {it : Iter Nat} {c : Collected} {res : Result Unit Nat}
    (ok : entriesLoop r dirRec erSig false turns () it c = some res) :
    (0 < res.ret → ∃ es, Entries r dirRec it es ∧ (∀ e ∈ erEntries r dirRec es, 4 ≤ e.len r dirRec) ∧
      (c.count ≤ 102400 → c.count + (erData r dirRec es).length ≤ 102400) ∧
      res.data.getD [] = c.data.getD [] ++ erData r dirRec es) ∧
    ∀ es, Entries r dirRec it es → (∀ e ∈ erEntries r dirRec es, 4 ≤ e.len r dirRec) →
      c.count + (erData r dirRec es).length ≤ 102400 →
      res.data.getD [] = c.data.getD [] ++ erData r dirRec es ∧ (c.data ≠ none ∨ erData r dirRec es ≠ [] → 0 < res.ret) := by
  induction turns generalizing it c res with
  | zero => contradiction
  | succ turns ih =>
    rw [entriesLoop] at ok
    have both : suspRrIterate r dirRec () it = ((),(suspRrIterate r dirRec () it).2) := rfl
    cases outcome : (suspRrIterate r dirRec () it).2 with
    | failed =>
      rw [both,outcome] at ok
      cases ok
      refine ⟨fun positive => by simp at positive,fun es entries => ?_⟩
      cases entries with
      | last over' => rw [outcome] at over'; cases over'
      | entry found _ => rw [outcome] at found; cases found
    | over' =>
      rw [both,outcome] at ok
      cases ok
      refine ⟨fun _ => ⟨[],.last outcome,by simp [erEntries],fun few => by simpa [erData,erEntries] using few,
        by simp [erData,erEntries]⟩,fun es entries _ _ => ?_⟩
      cases entries with
      | last _ =>
        refine ⟨by simp [erData,erEntries],fun some' => ?_⟩
        cases data : c.data with
        | none => simp [data,erData,erEntries] at some'
        | some d => simp [Collected.ret,data]
      | entry found _ => rw [outcome] at found; cases found
    | found pos next =>
      rw [both,outcome] at ok
      have headOf : ∀ es, Entries r dirRec it es → ∃ tail, es = pos::tail ∧ Entries r dirRec next tail := by
        intro es entries
        cases entries with
        | last over' => rw [outcome] at over'; cases over'
        | entry found rest =>
          rw [outcome] at found
          cases found
          exact ⟨_,rfl,rest⟩
      by_cases other : ¬ pos.matches' r dirRec erSig
      · simp only [if_pos other] at ok
        obtain ⟨tail,rest,rfl⟩ := Option.map_eq_some_iff.mp ok
        obtain ⟨forth,back⟩ := ih rest
        constructor
        · intro positive
          obtain ⟨es,entries,long,few,data⟩ := forth positive
          obtain ⟨same,bytes⟩ := erOther r dirRec es other
          exact ⟨pos::es,.entry outcome entries,by rw [same]; exact long,by rw [bytes]; exact few,by rw [bytes]; exact data⟩
        · intro es entries long few
          obtain ⟨later,rfl,rest⟩ := headOf es entries
          obtain ⟨same,bytes⟩ := erOther r dirRec later other
          rw [same] at long
          rw [bytes] at few ⊢
          exact back later rest long few
      · simp only [if_neg other] at ok
        rw [not_not] at other
        have same := fun es => (erMatch r dirRec es other).1
        have bytes := fun es => (erMatch r dirRec es other).2
        have size : (pos.payload r dirRec false).length = pos.len r dirRec - 4 := by simp [Iter.payload,headSkip]
        by_cases short : pos.len r dirRec < headSkip false
        · simp only [if_pos short] at ok
          cases ok
          refine ⟨fun positive => by simp at positive,fun es entries long _ => ?_⟩
          obtain ⟨later,rfl,_⟩ := headOf es entries
          have := long pos (by rw [same]; simp)
          exact absurd this (Nat.not_le_of_lt short)
        simp only [if_neg short] at ok
        have whole : 4 ≤ pos.len r dirRec := Nat.le_of_not_lt short
        by_cases large : 102400 < c.count + (pos.len r dirRec - headSkip false)
        · simp only [if_pos large] at ok
          cases ok
          refine ⟨fun positive => by simp at positive,fun es entries _ few => ?_⟩
          obtain ⟨later,rfl,_⟩ := headOf es entries
          rw [bytes,List.length_append,size] at few
          simp only [headSkip,Bool.false_eq_true,if_false] at large
          omega
        simp only [if_neg large,show isDone r dirRec false pos = false from rfl,Bool.false_eq_true,if_false] at ok
        obtain ⟨tail,rest,rfl⟩ := Option.map_eq_some_iff.mp ok
        obtain ⟨forth,back⟩ := ih rest
        have count : (c.add r dirRec false pos).count = c.count + (pos.len r dirRec - 4) := countAdd c pos
        simp only [headSkip,Bool.false_eq_true,if_false] at large
        have data : (c.add r dirRec false pos).data = some (c.data.getD [] ++ pos.payload r dirRec false) := rfl
        constructor
        · intro positive
          obtain ⟨es,entries,long,few,collected⟩ := forth positive
          refine ⟨pos::es,.entry outcome entries,?_,?_,?_⟩
          · rw [same]
            intro e mem
            rcases List.mem_cons.mp mem with rfl | mem
            · exact whole
            · exact long e mem
          · intro _
            have := few (by rw [count]; omega)
            rw [count] at this
            rw [bytes,List.length_append,size]
            omega
          · rw [bytes,← List.append_assoc]
            rw [data] at collected
            exact collected
        · intro es entries long few
          obtain ⟨later,rfl,rest⟩ := headOf es entries
          rw [same] at long
          rw [bytes,List.length_append,size] at few
          obtain ⟨collected,positive⟩ := back later rest (fun e mem => long e (List.mem_cons_of_mem _ mem))
            (by rw [count]; omega)
          rw [data] at collected
          refine ⟨by rw [bytes,← List.append_assoc]; exact collected,fun _ => positive (Or.inl ?_)⟩
          rw [data]
          simp

theorem idFound (data : List UInt8) : (dataByte data 0 = 10 ∧ erId data = rrip1991a ∨
      (dataByte data 0 = 10 ∧ erId data = ieeeP1282 ∨ dataByte data 0 = 9 ∧ erId data = ieee1282)) ↔
    dataByte data 0 = (erId data).length ∧ erId data ∈ rockRidgeIds := by
  simp only [rockRidgeIds,List.mem_cons,List.not_mem_nil,or_false]
  constructor
  · rintro (⟨len,id⟩ | ⟨len,id⟩ | ⟨len,id⟩)
    · exact ⟨by rw [len,id]; rfl,Or.inl id⟩
    · exact ⟨by rw [len,id]; rfl,Or.inr (Or.inl id)⟩
    · exact ⟨by rw [len,id]; rfl,Or.inr (Or.inr id)⟩
  · rintro ⟨len,id | id | id⟩
    · exact Or.inl ⟨by rw [len,id]; rfl,id⟩
    · exact Or.inr (Or.inl ⟨by rw [len,id]; rfl,id⟩)
    · exact Or.inr (Or.inr ⟨by rw [len,id]; rfl,id⟩)

theorem scanErMisses {data : List UInt8} (other : ¬(dataByte data 0 = (erId data).length ∧ erId data ∈ rockRidgeIds))
    (turns i : Nat) : scanEr data turns i = none := by
  rw [← idFound,not_or] at other
  induction turns generalizing i with
  | zero => rfl
  | succ turns ih =>
    rw [scanEr,if_neg other.1,if_neg other.2]
    split_ifs
    · rfl
    · rfl
    · exact ih _

/- The scan of the ER entries goes by the first one only. -/
theorem scanErFirst {data : List UInt8} (long : 8 ≤ data.length) : (scanEr data data.length 0).isSome ↔ Announces data := by
  by_cases id : dataByte data 0 = (erId data).length ∧ erId data ∈ rockRidgeIds
  · obtain ⟨turns,some'⟩ := Nat.exists_eq_add_of_le' (Nat.le_trans (by omega : 1 ≤ 8) long)
    have first : scanEr data data.length 0 = scanEr data (turns + 1) 0 := by rw [some']
    rw [first,scanEr,if_neg (by omega),Nat.zero_add]
    by_cases fits : data.length < erLength data
    · rw [if_pos fits]
      exact iff_of_false (by simp) fun h => absurd h.2.1 (by omega)
    · rw [if_neg fits]
      refine iff_of_true ?_ ⟨long,by omega,id⟩
      rw [← idFound] at id
      split_ifs with old new
      · rfl
      · rfl
      · exact absurd id (not_or.mpr ⟨old,new⟩)
  · rw [scanErMisses id]
    exact iff_of_false (by simp) fun h => id h.2.2

theorem enabledFirst {turns : Nat} {res : Result Unit Nat} {skip : Nat}
    (ok : suspRrGetEntries r dirRec erSig false ⟨1,skip⟩ turns () = some res) :
    (findRockRidge res.ret (res.data.getD [])).isSome ↔
    ∃ it es, suspRrIterNew dirRec skip = some it ∧ Collects r dirRec it es ∧ Announces (erData r dirRec es) := by
  have split : (findRockRidge res.ret (res.data.getD [])).isSome ↔ ¬(res.ret ≤ 0 ∨ (res.data.getD []).length < 8) ∧
      (scanEr (res.data.getD []) (res.data.getD []).length 0).isSome := by
    unfold findRockRidge
    split_ifs with small
    · simp [small]
    · simp [small]
  rw [split]
  rw [suspRrGetEntries,if_neg (by simp)] at ok
  cases new : suspRrIterNew dirRec skip with
  | none =>
    simp only [new] at ok
    cases ok
    simp
  | some it =>
    simp only [new] at ok
    obtain ⟨forth,back⟩ := loopCollects ok
    constructor
    · rintro ⟨some',scan⟩
      rw [not_or] at some'
      obtain ⟨es,entries,long,few,data⟩ := forth (by omega)
      simp only [Option.getD_none,List.nil_append] at data
      have few := few (by simp [Collected.count])
      refine ⟨it,es,rfl,⟨entries,long,by simpa [Collected.count] using few⟩,?_⟩
      rw [data] at scan some'
      exact (scanErFirst (by omega)).mp scan
    · rintro ⟨it',es,same,collects,announces⟩
      cases same
      obtain ⟨data,positive⟩ := back es collects.entries collects.long (by simpa [Collected.count] using collects.few)
      simp only [Option.getD_none,List.nil_append] at data
      have some' : erData r dirRec es ≠ [] := by
        intro none'
        have := announces.1
        rw [none'] at this
        simp at this
      rw [data]
      have := positive (Or.inr some')
      have := announces.1
      exact ⟨by omega,(scanErFirst announces.1).mpr announces⟩

end

section
variable {block : Nat → Nat → UInt8} {behind dirRec : Nat → UInt8}

theorem entriesReturn (skip : Nat) :
    (∃ turns res, suspRrGetEntries (imageReader block behind) dirRec erSig false ⟨1,skip⟩ turns () = some res) ↔
    ∀ it, suspRrIterNew dirRec skip = some it → Walk.NoRepeat (turn (imageReader block behind) dirRec erSig false) (it,0) := by
  simp only [suspRrGetEntries,if_neg (Nat.succ_ne_zero 0)]
  cases new : suspRrIterNew dirRec skip with
  | none => exact iff_of_true ⟨0,_,rfl⟩ (fun it some' => by cases some')
  | some it =>
    constructor
    · rintro ⟨turns,res,ok⟩ it' same
      cases same
      exact (walkEnds (newIter new).1).mp (loopReads ok).1
    · intro walk
      exact loopReturns (c := ⟨none,none⟩) ((walkEnds (newIter new).1).mpr (walk it rfl))

theorem signaturesSet (rootLba : Nat) {trySkip turns : Nat} (sp : SpAt (block rootLba) trySkip)
    (first : trySkip = 0 ∨ trySkip = 14 ∧ ¬ SpAt (block rootLba) 0) :
    suspRrCheckSignatures (imageReader block behind) 2048 rootLba true turns =
      (suspRrGetEntries (imageReader block behind) (block rootLba) erSig false ⟨1,(block rootLba 6).toNat⟩ turns ()).map
        fun res => match findRockRidge res.ret (res.data.getD []) with
          | none => (0,⟨0,(block rootLba 6).toNat⟩)
          | some rrip112 => (2 + rrip112,⟨1 + rrip112,(block rootLba 6).toNat⟩) := by
  have dirRec : (imageReader block behind).byte ((imageReader block behind).get () rootLba).2 = block rootLba := rfl
  rw [suspRrCheckSignatures,if_neg (by simp),dirRec]
  simp only [checkedSp sp first,not_true,if_false]

/- susp_skip and Rock Ridge are set right just when the bytes and the entries that the source
goes by stand for the ones that count. -/
theorem signaturesChecked (rootLba : Nat) {trySkip : Nat} (sp : SpAt (block rootLba) trySkip)
    (first : trySkip = 0 ∨ trySkip = 14 ∧ ¬ SpAt (block rootLba) 0) :
    SignaturesRight (imageReader block behind) (block rootLba) rootLba trySkip ↔
    SignatureFirst (imageReader block behind) (block rootLba) trySkip := by
  unfold SignaturesRight SignatureFirst RockRidgeFirst
  simp only [signaturesSet rootLba sp first,Option.map_eq_some_iff,← iff_iff_and_or_not_and_not]
  rw [← entriesReturn]
  constructor
  · rintro ⟨turns,ret,sbi,⟨res,got,same⟩,skip,enabled⟩
    have rockRidge := enabledFirst got
    cases found : findRockRidge res.ret (res.data.getD []) with
    | none =>
      rw [found] at same rockRidge
      cases same
      exact ⟨skip,⟨turns,res,got⟩,rockRidge.symm.trans (by simpa using enabled)⟩
    | some rrip112 =>
      rw [found] at same rockRidge
      cases same
      exact ⟨skip,⟨turns,res,got⟩,rockRidge.symm.trans (by simpa using enabled)⟩
  · rintro ⟨skip,⟨turns,res,got⟩,enabled⟩
    have rockRidge := enabledFirst got
    cases found : findRockRidge res.ret (res.data.getD []) with
    | none =>
      rw [found] at rockRidge
      refine ⟨turns,0,⟨0,(block rootLba 6).toNat⟩,⟨res,got,by rw [found]⟩,skip,?_⟩
      exact Iff.trans (by simp) (rockRidge.trans enabled)
    | some rrip112 =>
      rw [found] at rockRidge
      refine ⟨turns,_,⟨1 + rrip112,(block rootLba 6).toNat⟩,⟨res,got,by rw [found]⟩,skip,?_⟩
      exact Iff.trans (by simp) (rockRidge.trans enabled)

end

/- The first record of a root directory has an SP entry and a CE entry; the ER entry is in the Continuation
Area, in block 30. -/
def rootRecord : List UInt8 :=
  69::List.replicate 31 0 ++ [1,0,0x53,0x50,7,1,0xbe,0xef,0,0x43,0x45,28,1,30] ++ List.replicate 15 0 ++
    [18,0,0,0,0,0,0,18]
def rootBlock (lba i : Nat) : UInt8 := if lba = 30 then ([0x45,0x52,18,1,10,0,0,1] ++ rrip1991a).getD i 0 else rootRecord.getD i 0

theorem signaturesCheckedArea : SignaturesRight (imageReader rootBlock fun _ => 0) (rootBlock 20) 20 0 := by
  refine (signaturesChecked 20 (by decide) (Or.inl rfl)).mpr ⟨by decide,?_,Or.inl ⟨?_,?_⟩⟩
  · intro it new
    cases new
    exact Walk.endsNoRepeat ⟨4,by decide⟩
  · refine ⟨⟨false,[],34,69,0,0,0,0,69⟩,[⟨false,[],34,69,0,0,0,0,69⟩,⟨false,[],41,69,0,0,0,0,69⟩,⟨true,[30],0,18,0,0,0,0,18⟩],
      by decide,⟨?_,?_,?_⟩,?_⟩
    · exact .entry rfl (.entry rfl (.entry rfl (.last rfl)))
    · decide
    · decide
    · decide
  · exact ⟨⟨false,[],34,69,0,0,0,0,69⟩,2,⟨false,[],69,69,30,0,18,0,69⟩,⟨true,[30],0,18,0,0,0,0,18⟩,
      ⟨true,[30],18,18,0,0,0,0,18⟩,by decide,rfl,rfl,by decide,by decide,by decide⟩

/- A disc with CD-ROM XA: 14 bytes, and the SP entry with LEN_SKP 14 behind them. -/
def xaRecord : List UInt8 := 55::List.replicate 31 0 ++ [1,0] ++ List.replicate 14 0 ++ [0x53,0x50,7,1,0xbe,0xef,14]

theorem skipMissed : SpAt (fun i => xaRecord.getD i 0) 14 ∧ ¬ SpAt (fun i => xaRecord.getD i 0) 0 ∧
    ¬ SignaturesRight (imageReader (fun _ i => xaRecord.getD i 0) (fun _ => 0)) (fun i => xaRecord.getD i 0) 20 14 := by
  have sp : SpAt (fun i => xaRecord.getD i 0) 14 := by decide
  have none' : ¬ SpAt (fun i => xaRecord.getD i 0) 0 := by decide
  refine ⟨sp,none',?_⟩
  rintro ⟨turns,ret,sbi,ok,skip,_⟩
  rw [signaturesSet 20 sp (Or.inr ⟨rfl,none'⟩)] at ok
  obtain ⟨res,_,same⟩ := Option.map_eq_some_iff.mp ok
  have zero : sbi.suspSkip = 0 := by
    cases found : findRockRidge res.ret (res.data.getD []) with
    | none => rw [found] at same; cases same; rfl
    | some rrip112 => rw [found] at same; cases same; rfl
  rw [zero] at skip
  exact absurd skip (by decide)
end Syslinux.Susp
