import Syslinux.Partiter
import Syslinux.Iterators

/-! Iterating with and without PIF_STEPALL: the flag decides which calls return, not where the
iterator goes. -/
namespace Syslinux.Partiter
open Iterators

inductive EntryType where
  | dos (ostype : Nat)
  | gpt (data1 data2 data3 data4 : Nat)
  deriving DecidableEq, Repr

def EntryType.isData : EntryType → Bool
  | .dos type => !ostIsNondata type
  | .gpt data1 data2 data3 data4 => !(data1 == 0 && data2 == 0 && data3 == 0 && data4 == 0)

structure Entry where
  index : Int
  absLba : Nat
  length : Nat
  type : EntryType
  deriving DecidableEq, Repr

def Entry.isData (e : Entry) : Bool := e.type.isData

def guid (b : Buffer) (gp : Int) : EntryType := .gpt (le b gp 4) (le b (gp+4) 2) (le b (gp+6) 2) (le b (gp+8) 8)

def entryOf {U P : Type} (typeAt : Buffer → Int → EntryType) (it : PartIter U P) : Option Entry := do
  let data ← it.data
  let at1 ← it.record
  some ⟨it.index,it.absLba,it.length,typeAt data at1⟩

def Iter.status : Iter → Status
  | .typedos it => it.status
  | .typegpt it => it.status
  | .typeraw it => it.status

def Iter.entry : Iter → Option Entry
  | .typedos it => entryOf (fun data dp => .dos (ostype data dp)) it
  | .typegpt it => entryOf guid it
  | .typeraw _ => none

/- One turn of `while (!pi_next(iter))`: the entry the body sees, or the status the loop ends with. -/
def advance (d : Disk) (it : Iter) : Option (Answer Iter Entry Status) := do
  let it ← piNext d it
  if it.status = .ok then some (.yield it (← it.entry)) else some (.stop it.status)

def Flags.all (f : Flags) : Flags := { f with stepall := true }
def Flags.plain (f : Flags) : Flags := { f with stepall := false }

variable {d : Disk} {f : Flags} {c c1 c2 : Cursor Dos} {found : Found}

theorem mbrEntrySpec {data : Buffer} {fine : Bool} (here : mbrEntry d f c data = (c1,fine)) :
    c1.index0 = c.index0 ∧ c1.data = c.data ∧ c1.u.bebrLba = c.u.bebrLba ∧
      c1.status = if fine then c.status else .insane := by
  unfold mbrEntry at here
  simp only at here
  split at here
  · cases here
    exact ⟨rfl,rfl,rfl,rfl⟩
  · split at here
    · split at here <;> cases here <;> exact ⟨rfl,rfl,rfl,rfl⟩
    · cases here
      exact ⟨rfl,rfl,rfl,rfl⟩

theorem dosNextMbrTurn (low : c.index0 < 4) : dosNextMbr d f c =
    if c.index0 + 1 < 4 then c.data.bind (fun data =>
      match mbrEntry d f { c with index0 := c.index0 + 1 } data with
      | (c1,false) => some (c1,.failed)
      | (c1,true) =>
        if !ostIsNondata (ostype data (tableEntry (c.index0 + 1))) || f.stepall then
          some (c1,.part (startLba data (tableEntry (c.index0 + 1))) (tableEntry (c.index0 + 1)))
        else dosNextMbr d f c1)
    else some ({ c with index0 := c.index0 + 1 },.nothing) := by
  obtain ⟨n,turns⟩ : ∃ n, (4 - c.index0).toNat = n+1 := ⟨(4 - c.index0).toNat - 1,by omega⟩
  rw [dosNextMbr,turns,mbrTurns]
  simp only
  split
  · rename_i more
    refine congrArg c.data.bind (funext fun data => ?_)
    generalize eq : mbrEntry d f { c with index0 := c.index0 + 1 } data = answer
    obtain ⟨c1,fine⟩ := answer
    cases fine with
    | false => rfl
    | true =>
      have turns1 : (4 - c1.index0).toNat = n := by
        rw [(mbrEntrySpec eq).1]
        show (4 - (c.index0 + 1)).toNat = n
        omega
      simp only [dosNextMbr,turns1]
  · rfl

theorem dosNextMbrAt {data : Buffer} (more : c.index0 + 1 < 4) (loaded : c.data = some data) : dosNextMbr d f c =
    match mbrEntry d f { c with index0 := c.index0 + 1 } data with
    | (c1,false) => some (c1,.failed)
    | (c1,true) =>
      if !ostIsNondata (ostype data (tableEntry (c.index0 + 1))) || f.stepall then
        some (c1,.part (startLba data (tableEntry (c.index0 + 1))) (tableEntry (c.index0 + 1)))
      else dosNextMbr d f c1 := by
  rw [dosNextMbrTurn (by omega),if_pos more]
  exact congrArg (fun o => Option.bind o _) loaded

theorem logicalSane {data : Buffer} {siz : Nat} (sane : notsaneLogical f data siz = none) :
    ostIsExt (ostype data (tableEntry 0)) = false := by
  unfold notsaneLogical at sane
  simp only at sane
  split at sane
  · rename_i empty
    simp [empty,ostIsExt]
  · split at sane
    · cases sane
    · rename_i other
      simpa using other

theorem ebrEntrySpec {data : Option Buffer} (here : ebrEntry d f c = (c1,data)) :
    c1.index0 = c.index0 ∧ c1.u.bebrLba = c.u.bebrLba ∧ c1.u.bebrIndex0 = c.u.bebrIndex0 ∧ c1.data = data.or c1.data ∧
      (data ≠ none → c1.status = c.status) ∧ (data = none → c1.status ≠ .ok) ∧
      ∀ b, data = some b → ostIsExt (ostype b (tableEntry 0)) = false := by
  unfold ebrEntry at here
  split at here
  · cases here
    simp [Cursor.error]
  · simp only at here
    split at here
    · cases here
      simp [Cursor.error]
    · rename_i data sane
      cases here
      have logical := (Option.or_eq_none_iff.mp sane).1
      refine ⟨rfl,?_,?_,rfl,fun _ => rfl,fun none' => (by cases none'),?_⟩
      · simp only
        split <;> split <;> rfl
      · simp only
        split <;> split <;> rfl
      · intro b same
        cases same
        exact logicalSane logical

def ebrLoop (d : Disk) (f : Flags) (c : Cursor Dos) : Option (Cursor Dos × Found) :=
  ebrTurns d f (max 1 (1024 - c.index0).toNat) c

/- Where the entry of an EBR lies, as dos_next_ebr reports it. -/
def ebrLba (c : Cursor Dos) (data : Buffer) : Nat :=
  if startLba data (tableEntry 0) ≠ 0 then (c.u.cebrLba + startLba data (tableEntry 0)) % 2^32 else 0

theorem ebrLoopTurn : ebrLoop d f c =
    if c.index0 + 1 < 1024 ∧ c.u.nebrLba ≠ 0 then
      match ebrEntry d f { c with index0 := c.index0 + 1 } with
      | (c1,none) => some (c1,.failed)
      | (c1,some data) =>
        if ostype data (tableEntry 0) ≠ 0 ∨ f.stepall then some (c1,.part (ebrLba c1 data) (tableEntry 0))
        else ebrLoop d f c1
    else some ({ c with index0 := c.index0 + 1, status := .done },.failed) := by
  obtain ⟨n,turns⟩ : ∃ n, max 1 (1024 - c.index0).toNat = n+1 := ⟨max 1 (1024 - c.index0).toNat - 1,by omega⟩
  rw [ebrLoop,turns,ebrTurns]
  simp only
  split
  · rename_i more
    generalize eq : ebrEntry d f { c with index0 := c.index0 + 1 } = answer
    obtain ⟨c1,data⟩ := answer
    cases data with
    | none => rfl
    | some data =>
      have turns1 : max 1 (1024 - c1.index0).toNat = n := by
        rw [(ebrEntrySpec eq).1]
        show max 1 (1024 - (c.index0 + 1)).toNat = n
        omega
      simp only [ebrLoop,turns1]
      rfl
  · rfl

structure DosInv (c : Cursor Dos) : Prop where
  status : c.status = .ok
  data : c.data ≠ none
  base : 4 ≤ c.index0 → c.u.bebrLba ≠ 0

/- What a search that reports every entry comes to, and a search that does not, from the same
place: the second goes on from the first one's entry where that is a hole. -/
inductive Visit (search : Cursor Dos → Option (Cursor Dos × Found)) (low : Int) (c : Cursor Dos) :
    Option (Cursor Dos × Found) → Prop where
  | failed {c1 : Cursor Dos} (status : c1.status ≠ .ok) (same : search c = some (c1,.failed)) :
      Visit search low c (some (c1,.failed))
  | part {c1 : Cursor Dos} {data : Buffer} {lba : Nat} {dp : Int} (loaded : c1.data = some data) (inv : DosInv c1)
      (moved : low < c1.index0) (bound : c1.index0 < 1024)
      (same : search c = if !ostIsNondata (ostype data dp) then some (c1,.part lba dp) else search c1) :
      Visit search low c (some (c1,.part lba dp))

theorem prepSpec {c : Cursor Dos} {low : Int} (data : c.data ≠ none)
    (lower : low < c.index0 ∨ (low = c.index0 ∧ c.u.bebrLba ≠ 0)) :
    prepBaseEbr c = some (c,-1) ∨ ∃ c1, prepBaseEbr c = some (c1,0) ∧ low ≤ c1.index0 ∧ c1.status = c.status ∧
      0 ≤ c1.u.bebrIndex0 ∧ (c1.u.nebrLba ≠ 0 → c1.u.bebrLba ≠ 0) := by
  obtain ⟨data,loaded⟩ := Option.ne_none_iff_exists'.mp data
  unfold prepBaseEbr
  split
  · exact Or.inl rfl
  rename_i base
  split
  · rename_i unset
    refine Or.inr ⟨setBaseEbr c data,by rw [loaded]; rfl,?_,rfl,?_,id⟩ <;> simp only [setBaseEbr] <;> omega
  · rename_i set1
    exact Or.inr ⟨c,rfl,by omega,rfl,by omega,fun _ => set1⟩

theorem ebrVisit {low : Int} (status : c.status = .ok) (data : c.data ≠ none)
    (lower : low < c.index0 ∨ (low = c.index0 ∧ c.u.bebrLba ≠ 0)) :
    Visit (dosNextEbr d f.plain) low c (dosNextEbr d f.all c) := by
  rcases prepSpec data lower with none1 | ⟨c1,prep,low1,status1,base,chain⟩
  · have both : ∀ f, dosNextEbr d f c = some ({ c with status := .done },.failed) := by
      intro f
      simp [dosNextEbr,none1]
    rw [both]
    exact .failed (by simp) (both _)
  have both : ∀ f, dosNextEbr d f c = ebrLoop d f c1 := by
    intro f
    simp [dosNextEbr,prep,ebrLoop]
  rw [both,ebrLoopTurn]
  have plain := (both f.plain).trans ebrLoopTurn
  split
  case isFalse over1 =>
    rw [if_neg over1] at plain
    exact .failed (by simp) plain
  rename_i more
  rw [if_pos more] at plain
  have sameEntry : ebrEntry d f.all { c1 with index0 := c1.index0 + 1 } =
      ebrEntry d f.plain { c1 with index0 := c1.index0 + 1 } := rfl
  rw [sameEntry]
  generalize eq : ebrEntry d f.plain { c1 with index0 := c1.index0 + 1 } = answer at plain ⊢
  obtain ⟨c2,data2⟩ := answer
  obtain ⟨index2,base2,baseIndex2,loaded2,status2,failed2,logical⟩ := ebrEntrySpec eq
  cases data2 with
  | none => exact .failed (failed2 rfl) plain
  | some data2 =>
    simp only [Flags.all,or_true,if_true]
    simp only at index2 base2 baseIndex2
    have based : c2.u.bebrLba ≠ 0 := by
      rw [base2]
      exact chain more.2
    refine .part (show c2.data = some data2 from loaded2) ⟨?_,?_,fun _ => based⟩ (by omega) (by omega) ?_
    · rw [status2 (by simp),← status,← status1]
    · rw [loaded2]
      simp
    · rw [plain]
      simp only [Flags.plain,Bool.false_eq_true,or_false]
      have again : dosNextEbr d f.plain c2 = ebrLoop d f.plain c2 := by
        have prep2 : prepBaseEbr c2 = some (c2,0) := by
          rw [prepBaseEbr,if_neg (by omega),if_neg based]
        simp [dosNextEbr,prep2,ebrLoop]
      have kind : (!ostIsNondata (ostype data2 (tableEntry 0))) = decide (ostype data2 (tableEntry 0) ≠ 0) := by
        simp [ostIsNondata,logical data2 rfl,beq_eq_decide]
      rw [kind]
      simp only [decide_eq_true_eq]
      by_cases hole : ostype data2 (tableEntry 0) = 0
      · simp only [hole,ne_eq,not_true_eq_false,if_false]
        exact again.symm
      · simp only [hole,ne_eq,not_false_eq_true,if_true]

theorem dosVisit (inv : DosInv c) : Visit (dosSearch d f.plain) c.index0 c (dosSearch d f.all c) := by
  have ebrFrom : ∀ c1, 4 ≤ c1.index0 → ∀ f, dosSearch d f c1 = dosNextEbr d f c1 := by
    intro c1 high f
    simp [dosSearch,thenLogical,show ¬c1.index0 < 4 by omega,high]
  -- a logical partition is followed by logical ones only
  have lift : ∀ {c0 : Cursor Dos} {answer}, 3 ≤ c.index0 → dosSearch d f.plain c = dosNextEbr d f.plain c0 →
      Visit (dosNextEbr d f.plain) c.index0 c0 answer → Visit (dosSearch d f.plain) c.index0 c answer := by
    intro c0 answer high same visit
    cases visit with
    | failed status there => exact .failed status (same.trans there)
    | part loaded inv1 moved bound there =>
      refine .part loaded inv1 moved bound (same.trans (there.trans ?_))
      rw [ebrFrom _ (by omega) f.plain]
  by_cases low : c.index0 < 4
  case neg =>
    rw [ebrFrom c (by omega)]
    exact lift (by omega) (ebrFrom c (by omega) _)
      (ebrVisit inv.status inv.data (Or.inr ⟨rfl,inv.base (by omega)⟩))
  by_cases last : c.index0 + 1 < 4
  case neg =>
    have both : ∀ f, dosSearch d f c = dosNextEbr d f { c with index0 := c.index0 + 1 } := by
      intro f
      rw [dosSearch,if_pos low,dosNextMbrTurn low,if_neg last]
      simp [thenLogical,show (4 : Int) ≤ c.index0 + 1 by omega]
    rw [both]
    refine lift (by omega) (both _) (ebrVisit ?_ ?_ (Or.inl ?_))
    · exact inv.status
    · exact inv.data
    · show c.index0 < c.index0 + 1
      omega
  obtain ⟨data,loaded⟩ := Option.ne_none_iff_exists'.mp inv.data
  have search : ∀ f c, c.index0 < 4 → dosSearch d f c = (dosNextMbr d f c).bind (thenLogical d f) := by
    intro f c low
    rw [dosSearch,if_pos low]
  have plain := search f.plain c low
  rw [search _ _ low,dosNextMbrAt last loaded]
  rw [dosNextMbrAt last loaded] at plain
  have sameEntry : mbrEntry d f.all { c with index0 := c.index0 + 1 } data =
      mbrEntry d f.plain { c with index0 := c.index0 + 1 } data := rfl
  rw [sameEntry]
  generalize eq : mbrEntry d f.plain { c with index0 := c.index0 + 1 } data = answer at plain ⊢
  obtain ⟨c1,fine⟩ := answer
  obtain ⟨index1,loaded1,base1,status1⟩ := mbrEntrySpec eq
  simp only at index1 loaded1 base1 status1
  cases fine with
  | false => exact .failed (by rw [status1]; simp) plain
  | true =>
    have under : ¬4 ≤ c1.index0 := by omega
    simp only [Flags.all,Bool.or_true,if_true,Option.bind_some,thenLogical,if_neg under]
    refine .part (loaded1.trans loaded) ⟨?_,?_,fun high => absurd high under⟩ (by omega) (by omega) ?_
    · rw [status1]
      exact inv.status
    · rw [loaded1]
      exact inv.data
    · rw [plain]
      simp only [Flags.plain,Bool.or_false]
      split
      · simp only [Option.bind_some,thenLogical,if_neg under]
      · exact (search f.plain c1 (by omega)).symm

section
variable {it : PartIter Dos Unit} {data : Buffer} {lba : Nat} {dp : Int}

def dosEntry (c : Cursor Dos) (data : Buffer) (lba : Nat) (dp : Int) : Entry :=
  ⟨if ostype data dp = 0 then -1 else c.index0 + 1 - c.u.logskipcnt,lba,partLength data dp,.dos (ostype data dp)⟩

def dosReach (it : PartIter Dos Unit) (c : Cursor Dos) (data : Buffer) (lba : Nat) (dp : Int) : PartIter Dos Unit :=
  { it with
    toCursor := c
    index := (dosEntry c data lba dp).index
    absLba := lba
    length := partLength data dp
    record := some dp }

theorem advanceFailed (status : it.status = .ok) (search : dosSearch d it.flags it.toCursor = some (c,.failed))
    (failed : c.status ≠ .ok) : advance d (.typedos it) = some (.stop c.status) := by
  simp [advance,piNext,piDosNext,status,search,Iter.status,failed]

theorem advancePart (status : it.status = .ok) (search : dosSearch d it.flags it.toCursor = some (c,.part lba dp))
    (loaded : c.data = some data) (fine : c.status = .ok) :
    advance d (.typedos it) = some (.yield (.typedos (dosReach it c data lba dp)) (dosEntry c data lba dp)) := by
  simp [advance,piNext,piDosNext,status,search,Iter.status,fine,loaded,dosReach,Iter.entry,entryOf,dosEntry]

theorem advanceSame (status : it.status = .ok) (status1 : c.status = .ok)
    (search : dosSearch d it.flags it.toCursor = dosSearch d it.flags c) :
    advance d (.typedos it) = advance d (.typedos { it with toCursor := c }) := by
  have same : piDosNext d it = piDosNext d { it with toCursor := c } := by
    simp only [piDosNext,status,status1,ne_eq,not_true_eq_false,if_false,search]
  simp only [advance,piNext,same]

end

/- Two iterators at the same place, of which the first steps through everything. -/
inductive DosPair (f : Flags) : Iter → Iter → Prop where
  | mk {a b : PartIter Dos Unit} (all : a.flags = f.all) (plain : b.flags = f.plain) (same : a.toCursor = b.toCursor)
      (inv : DosInv a.toCursor) : DosPair f (.typedos a) (.typedos b)

def Iter.dosLeft : Iter → Nat
  | .typedos it => (1024 - it.index0).toNat
  | _ => 0

theorem dosRuns {a b : Iter} (pair : DosPair f a b) :
    ∃ entries status, Runs (advance d) a entries status ∧ Runs (advance d) b (entries.filter Entry.isData) status := by
  refine Runs.filtered (R := DosPair f) Iter.dosLeft ?_ pair
  rintro _ _ ⟨all,plain,same,inv⟩
  rename_i a b
  have visit := dosVisit (d := d) (f := f) inv
  have statusB : b.status = .ok := by
    rw [← same]
    exact inv.status
  rw [← all] at visit
  generalize search : dosSearch d a.flags a.toCursor = answer at visit
  cases visit with
  | failed status there =>
    rw [same,← plain] at there
    exact Or.inl ⟨_,advanceFailed inv.status search status,advanceFailed statusB there status⟩
  | @part c1 data lba dp loaded inv1 moved bound there =>
    rw [same,← plain] at there
    have first := advancePart inv.status search loaded inv1.status
    cases kind : ostIsNondata (ostype data dp) with
    | false =>
      rw [kind] at there
      refine Or.inr ⟨_,_,.typedos (dosReach b c1 data lba dp),first,?_,.mk all plain rfl inv1,?_⟩
      · simp only [Iter.dosLeft,dosReach]
        omega
      · simp only [Entry.isData,dosEntry,EntryType.isData,kind,Bool.not_false,if_true]
        exact advancePart statusB there loaded inv1.status
    | true =>
      rw [kind] at there
      refine Or.inr ⟨_,_,.typedos { b with toCursor := c1 },first,?_,.mk all plain rfl inv1,?_⟩
      · simp only [Iter.dosLeft,dosReach]
        omega
      · simp only [Entry.isData,dosEntry,EntryType.isData,kind,Bool.not_true,Bool.false_eq_true,if_false]
        exact advanceSame statusB inv1.status there

section
variable {g g1 : Cursor Gpt} {data : Buffer} {part : Option Int} {it : PartIter Gpt GptPart}

structure GptInv (g : Cursor Gpt) : Prop where
  status : g.status = .ok
  data : g.data ≠ none
  under : g.index0 < g.u.peCount

def gptLoop (f : Flags) (g : Cursor Gpt) (part : Option Int) : Option (Cursor Gpt × Option Int) :=
  gptTurns f (max 1 (g.u.peCount - g.index0).toNat) g part

theorem gptLoopTurn (more : g.index0 + 1 < g.u.peCount) (loaded : g.data = some data) (part : Option Int) :
    gptLoop f g part =
    match notsaneGpt f data g.u (g.index0 + 1) with
    | some text => some ({ g with index0 := g.index0 + 1 }.error .insane text,some (gptEntry g.u (g.index0 + 1)))
    | none =>
      if !guidIs0 data (gptEntry g.u (g.index0 + 1)) || f.stepall then
        some ({ g with index0 := g.index0 + 1 },some (gptEntry g.u (g.index0 + 1)))
      else gptLoop f { g with index0 := g.index0 + 1 } (some (gptEntry g.u (g.index0 + 1))) := by
  obtain ⟨n,turns⟩ : ∃ n, max 1 (g.u.peCount - g.index0).toNat = n+1 :=
    ⟨max 1 (g.u.peCount - g.index0).toNat - 1,by omega⟩
  have turns1 : max 1 (g.u.peCount - (g.index0 + 1)).toNat = n := by omega
  rw [gptLoop,turns,gptTurns]
  simp only [if_pos more,gptLoop,turns1]
  exact congrArg (fun o => Option.bind o _) loaded

theorem gptLoopOver (last : g.index0 + 1 = g.u.peCount) :
    gptLoop f g part = some ({ g with index0 := g.u.peCount },part) := by
  obtain ⟨n,turns⟩ : ∃ n, max 1 (g.u.peCount - g.index0).toNat = n+1 :=
    ⟨max 1 (g.u.peCount - g.index0).toNat - 1,by omega⟩
  rw [gptLoop,turns,gptTurns]
  simp [last]

theorem gptLoopPart (inv : GptInv g) (part part' : Option Int) : gptLoop f g part = gptLoop f g part' ∨
    ∃ g1, g1.index0 = g1.u.peCount ∧ g1.status = .ok ∧
      gptLoop f g part = some (g1,part) ∧ gptLoop f g part' = some (g1,part') := by
  by_cases last : g.index0 + 1 = g.u.peCount
  · exact Or.inr ⟨{ g with index0 := g.u.peCount },rfl,inv.status,gptLoopOver last,gptLoopOver last⟩
  · obtain ⟨data,loaded⟩ := Option.ne_none_iff_exists'.mp inv.data
    have under := inv.under
    rw [gptLoopTurn (by omega) loaded,gptLoopTurn (by omega) loaded]
    exact Or.inl rfl

def gptPartEntry (g : Cursor Gpt) (data : Buffer) (gp : Int) : Entry :=
  ⟨g.index0 + 1,lbaFirst data gp,(lbaLast data gp + 2^64 - lbaFirst data gp + 1) % 2^64,guid data gp⟩

def gptReach (it : PartIter Gpt GptPart) (g : Cursor Gpt) (data : Buffer) (gp : Int) : PartIter Gpt GptPart :=
  { it with
    toCursor := g
    index := g.index0 + 1
    absLba := lbaFirst data gp
    length := (lbaLast data gp + 2^64 - lbaFirst data gp + 1) % 2^64
    record := some gp
    part := ⟨bytes data (gp+16) 16,gptConvLabel data gp⟩ }

theorem advanceInsane (status : it.status = .ok) (search : gptSearch it.flags it.toCursor = some (g,part))
    (failed : g.status ≠ .ok) : advance d (.typegpt it) = some (.stop g.status) := by
  simp [advance,piNext,piGptNext,status,search,Iter.status,failed]

theorem advanceOver (status : it.status = .ok) (search : gptSearch it.flags it.toCursor = some (g,part))
    (fine : g.status = .ok) (last : g.index0 = g.u.peCount) : advance d (.typegpt it) = some (.stop .done) := by
  simp [advance,piNext,piGptNext,status,search,Iter.status,fine,last]

theorem advanceGpt {gp : Int} (status : it.status = .ok) (search : gptSearch it.flags it.toCursor = some (g,some gp))
    (fine : g.status = .ok) (under : g.index0 < g.u.peCount) (loaded : g.data = some data) :
    advance d (.typegpt it) = some (.yield (.typegpt (gptReach it g data gp)) (gptPartEntry g data gp)) := by
  simp [advance,piNext,piGptNext,status,search,Iter.status,fine,under.ne,loaded,gptReach,Iter.entry,entryOf,gptPartEntry]

theorem advanceGptSame (status : it.status = .ok) (inv : GptInv g)
    (search : gptSearch it.flags it.toCursor = gptLoop it.flags g part) :
    advance d (.typegpt it) = advance d (.typegpt { it with toCursor := g }) := by
  rcases gptLoopPart (f := it.flags) inv part none with same | ⟨g1,last,fine,here,there⟩
  · have next : piGptNext it = piGptNext { it with toCursor := g } := by
      have plain : gptSearch it.flags g = gptLoop it.flags g none := rfl
      simp only [piGptNext,status,inv.status,ne_eq,not_true_eq_false,if_false,search,same,plain]
    simp only [advance,piNext,next]
  · rw [advanceOver status (search.trans here) fine last]
    have other : advance d (.typegpt { it with toCursor := g }) = some (.stop .done) :=
      advanceOver inv.status there fine last
    exact other.symm

theorem gptVisit (inv : GptInv g) :
    (∃ g1, g1.index0 = g1.u.peCount ∧ g1.status = .ok ∧ ∀ f, gptSearch f g = some (g1,none)) ∨
    (∃ g1 part, g1.status ≠ .ok ∧ gptSearch f.all g = some (g1,part) ∧ gptSearch f.plain g = some (g1,part)) ∨
    ∃ g1 data gp, GptInv g1 ∧ g1.data = some data ∧ g.index0 < g1.index0 ∧ g1.u = g.u ∧
      gptSearch f.all g = some (g1,some gp) ∧
      gptSearch f.plain g = if !guidIs0 data gp then some (g1,some gp) else gptLoop f.plain g1 (some gp) := by
  by_cases last : g.index0 + 1 = g.u.peCount
  · exact Or.inl ⟨{ g with index0 := g.u.peCount },rfl,inv.status,fun f => gptLoopOver last⟩
  obtain ⟨data,loaded⟩ := Option.ne_none_iff_exists'.mp inv.data
  have under := inv.under
  have turn := fun f => gptLoopTurn (f := f) (by omega : g.index0 + 1 < g.u.peCount) loaded none
  have all : gptSearch f.all g = _ := turn f.all
  have plain : gptSearch f.plain g = _ := turn f.plain
  have sane : notsaneGpt f.plain data g.u (g.index0 + 1) = notsaneGpt f.all data g.u (g.index0 + 1) := rfl
  rw [sane] at plain
  generalize notsaneGpt f.all data g.u (g.index0 + 1) = answer at all plain
  cases answer with
  | some text => exact Or.inr (Or.inl ⟨_,_,by simp [Cursor.error],all,plain⟩)
  | none =>
    simp only [Flags.all,Bool.or_true,if_true] at all
    simp only [Flags.plain,Bool.or_false] at plain
    refine Or.inr (Or.inr ⟨{ g with index0 := g.index0 + 1 },data,_,⟨inv.status,inv.data,?_⟩,loaded,?_,rfl,all,plain⟩)
    · show g.index0 + 1 < g.u.peCount
      omega
    · show g.index0 < g.index0 + 1
      omega

inductive GptPair (f : Flags) : Iter → Iter → Prop where
  | mk {a b : PartIter Gpt GptPart} (all : a.flags = f.all) (plain : b.flags = f.plain)
      (same : b.toCursor = a.toCursor) (inv : GptInv a.toCursor) : GptPair f (.typegpt a) (.typegpt b)

def Iter.gptLeft : Iter → Nat
  | .typegpt it => (it.u.peCount - it.index0).toNat
  | _ => 0

theorem gptRuns {a b : Iter} (pair : GptPair f a b) :
    ∃ entries status, Runs (advance d) a entries status ∧ Runs (advance d) b (entries.filter Entry.isData) status := by
  refine Runs.filtered (R := GptPair f) Iter.gptLeft ?_ pair
  rintro _ _ ⟨all,plain,same,inv⟩
  rename_i a b
  have statusB : b.status = .ok := by
    rw [same]
    exact inv.status
  rcases gptVisit (f := f) inv with ⟨g,last,fine,search⟩ | ⟨g,part,failed,searchA,searchB⟩ |
    ⟨g,data,gp,inv1,loaded,moved,union1,searchA,searchB⟩
  · refine Or.inl ⟨.done,advanceOver inv.status (search _) fine last,?_⟩
    exact advanceOver statusB (by rw [same]; exact search _) fine last
  · rw [← all] at searchA
    rw [← plain,← same] at searchB
    exact Or.inl ⟨g.status,advanceInsane inv.status searchA failed,advanceInsane statusB searchB failed⟩
  rw [← all] at searchA
  rw [← plain,← same] at searchB
  have first := advanceGpt (d := d) inv.status searchA inv1.status inv1.under loaded
  have under := inv.under
  have kind : (gptPartEntry g data gp).isData = !guidIs0 data gp := rfl
  cases empty : guidIs0 data gp with
  | false =>
    rw [empty] at searchB
    refine Or.inr ⟨_,_,.typegpt (gptReach b g data gp),first,?_,.mk all plain rfl inv1,?_⟩
    · simp only [Iter.gptLeft,gptReach,union1]
      omega
    · rw [kind,empty]
      exact advanceGpt statusB searchB inv1.status inv1.under loaded
  | true =>
    rw [empty] at searchB
    refine Or.inr ⟨_,_,.typegpt { b with toCursor := g },first,?_,.mk all plain rfl inv1,?_⟩
    · simp only [Iter.gptLeft,gptReach,union1]
      omega
    · rw [kind,empty]
      exact advanceGptSame statusB inv1 searchB

end

inductive Begun (f : Flags) : Option Iter → Option Iter → Prop where
  | none : Begun f none none
  | raw {a b : PartIter Unit Unit} : Begun f (some (.typeraw a)) (some (.typeraw b))
  | dos {a b : Iter} (pair : DosPair f a b) : Begun f (some a) (some b)
  | gpt {a b : PartIter Gpt GptPart} (all : a.flags = f.all) (plain : b.flags = f.plain)
      (same : b.toCursor = a.toCursor) (status : a.status = .ok) (data : a.data ≠ none) (first : a.index0 = -1) :
      Begun f (some (.typegpt a)) (some (.typegpt b))

theorem dosBegun (mbr : Buffer) (said : List String) :
    Begun f (piDosCtor d f.all mbr said).1 (piDosCtor d f.plain mbr said).1 := by
  unfold piDosCtor
  split
  · exact .none
  · exact .dos (.mk rfl rfl rfl ⟨rfl,by simp [piCtor],by simp [piCtor]⟩)

theorem gptBegun (gpth gptl : Buffer) (said : List String) :
    Begun f (piGptCtor d f.all gpth gptl said).1 (piGptCtor d f.plain gpth gptl said).1 := by
  unfold piGptCtor
  split
  · exact .none
  · exact .gpt rfl rfl rfl rfl (by simp [piCtor]) rfl

/- Nothing that pi_begin decides depends on the flag. -/
theorem piBegun (d : Disk) (f : Flags) : Begun f (piBegin d f.all).1 (piBegin d f.plain).1 := by
  have flags : f.all.prefmbr = f.prefmbr ∧ f.plain.prefmbr = f.prefmbr := ⟨rfl,rfl⟩
  have header : ∀ gpth, notsaneGptHdr d gpth f.all = notsaneGptHdr d gpth f.plain := fun _ => rfl
  unfold piBegin
  rw [flags.1,flags.2]
  split
  · exact .none
  generalize diskReadSectors d 0 1 = sector
  cases sector with
  | none => exact .none
  | some mbr =>
    simp only
    split
    · exact .raw
    generalize findGptHdr d _ = found
    obtain ⟨found,said⟩ := found
    match found with
    | none => exact .none
    | some none => exact dosBegun mbr said
    | some (some gpth) =>
      simp only [header]
      split
      · split
        · exact .none
        generalize findGptList d gpth = list
        obtain ⟨gptl,more⟩ := list
        cases gptl with
        | none => exact .none
        | some gptl => exact gptBegun gpth gptl _
      · exact dosBegun mbr said

theorem advanceNegative {it : PartIter Gpt GptPart} (status : it.status = .ok) (first : it.index0 = -1)
    (negative : it.u.peCount < 0) : advance d (.typegpt it) = none := by
  have turns : max 1 (it.u.peCount - -1).toNat = 0+1 := by omega
  have search : gptSearch it.flags it.toCursor = some ({ it.toCursor with index0 := 0 },none) := by
    rw [gptSearch,first,turns,gptTurns]
    simp [first,show ¬0 < it.u.peCount by omega]
  simp [advance,piNext,piGptNext,status,search,show ¬0 = it.u.peCount by omega]

end Syslinux.Partiter
