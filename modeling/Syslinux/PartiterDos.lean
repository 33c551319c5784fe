import Syslinux.PartiterRuns

/-! The chain of EBRs under PIF_STRICT: where the logical partitions lie that the iterator reports. -/
namespace Syslinux.Partiter
open Iterators

/- The extended partition of the MBR that was noted as the base. -/
structure Base (mbr : Buffer) (i : Int) : Prop where
  entry : 0 ≤ i ∧ i < 4
  extended : ostIsExt (ostype mbr (tableEntry i)) = true
  start : startLba mbr (tableEntry i) ≠ 0
  noWrap : startLba mbr (tableEntry i) + partLength mbr (tableEntry i) < 2^32

structure InBase (mbr : Buffer) (i : Int) (lba length : Nat) : Prop where
  base : Base mbr i
  behind : startLba mbr (tableEntry i) ≤ lba
  before : lba + length ≤ startLba mbr (tableEntry i) + partLength mbr (tableEntry i)

/- The base is set up from the MBR, and the next frame lies in it. -/
structure Framed (mbr : Buffer) (c : Cursor Dos) : Prop where
  base : 0 ≤ c.u.bebrIndex0 → Base mbr c.u.bebrIndex0
  unset : c.u.bebrLba = 0 → c.data = some mbr ∧ c.u.nebrLba = 0
  first : c.u.bebrLba ≠ 0 → 0 ≤ c.u.bebrIndex0 ∧ c.u.bebrLba = startLba mbr (tableEntry c.u.bebrIndex0) ∧
    c.u.bebrSiz = partLength mbr (tableEntry c.u.bebrIndex0)
  next : c.u.nebrLba ≠ 0 → InBase mbr c.u.bebrIndex0 c.u.nebrLba c.u.nebrSiz

inductive Outcome (mbr : Buffer) : Cursor Dos × Found → Prop where
  | failed {c : Cursor Dos} (status : c.status ≠ .ok) : Outcome mbr (c,.failed)
  | nothing {c : Cursor Dos} (framed : Framed mbr c) (index : c.index0 = 4) : Outcome mbr (c,.nothing)
  | primary {c : Cursor Dos} {lba : Nat} {dp : Int} (framed : Framed mbr c) (unset : c.u.bebrLba = 0)
      (low : 0 ≤ c.index0 ∧ c.index0 < 4) : Outcome mbr (c,.part lba dp)
  | logical {c : Cursor Dos} {data : Buffer} {lba : Nat} {dp : Int} (framed : Framed mbr c) (high : 4 ≤ c.index0)
      (loaded : c.data = some data)
      (inside : ostype data dp ≠ 0 → partLength data dp ≠ 0 ∧ InBase mbr c.u.bebrIndex0 lba (partLength data dp)) :
      Outcome mbr (c,.part lba dp)

section
variable {d : Disk} {f : Flags} {mbr data : Buffer} {c c' : Cursor Dos} {found : Found} {dp : Int} {siz : Nat}

theorem leSmall (b : Buffer) (off : Int) (n : Nat) : le b off n < 2^(8*n) := by
  induction n generalizing off with
  | zero => exact Nat.one_pos
  | succ n ih =>
    have byte := (b off).toNat_lt
    have rest := ih (off + 1)
    rw [le,Nat.mul_succ,Nat.pow_add]
    omega

theorem startSmall (b : Buffer) (dp : Int) : startLba b dp < 2^32 := leSmall b (dp + 8) 4
theorem lengthSmall (b : Buffer) (dp : Int) : partLength b dp < 2^32 := leSmall b (dp + 12) 4

theorem saneNoWrap {s l : Nat} (small : s < 2^32) (low : l < 2^32) (sane : sane32 s l = true) : s + l < 2^32 := by
  have := of_decide_eq_true sane
  omega

theorem primarySane {i : Int} (strict : f.strict = true) (sane : notsanePrimary d f data i = none) (some' : ostype data (tableEntry i) ≠ 0) :
    startLba data (tableEntry i) ≠ 0 ∧ startLba data (tableEntry i) + partLength data (tableEntry i) < 2^32 := by
  unfold notsanePrimary at sane
  simp only [if_neg some',strict,Bool.not_true,Bool.false_eq_true,if_false,ite_eq_right_iff,reduceCtorEq,imp_false,not_or] at sane
  exact ⟨sane.1,saneNoWrap (startSmall _ _) (lengthSmall _ _) (by simpa using sane.2.2.1)⟩

theorem logicalFrame (strict : f.strict = true) (sane : notsaneLogical f data siz = none) (some' : ostype data (tableEntry 0) ≠ 0) :
    startLba data (tableEntry 0) ≠ 0 ∧ partLength data (tableEntry 0) ≠ 0 ∧
      startLba data (tableEntry 0) + partLength data (tableEntry 0) ≤ siz := by
  have extended := logicalSane sane
  unfold notsaneLogical at sane
  simp only [if_neg some',extended,strict,Bool.not_true,Bool.false_eq_true,if_false,ite_eq_right_iff,reduceCtorEq,imp_false,not_or] at sane
  obtain ⟨start,some',wraps,fits⟩ := sane
  have noWrap := saneNoWrap (startSmall _ _) (lengthSmall _ _) (by simpa using wraps)
  exact ⟨start,some',by omega⟩

theorem extendedFrame (strict : f.strict = true) (sane : notsaneExtended f data siz = none) (some' : ostype data (tableEntry 1) ≠ 0) :
    startLba data (tableEntry 1) + partLength data (tableEntry 1) ≤ siz := by
  unfold notsaneExtended at sane
  rw [if_neg some'] at sane
  split at sane
  · cases sane
  simp only [strict,Bool.not_true,Bool.false_eq_true,if_false,ite_eq_right_iff,reduceCtorEq,imp_false,not_or] at sane
  obtain ⟨_,_,wraps,fits⟩ := sane
  have noWrap := saneNoWrap (startSmall _ _) (lengthSmall _ _) (by simpa using wraps)
  omega

theorem mbrEntryFramed (strict : f.strict = true) (framed : Framed mbr c) (unset : c.u.bebrLba = 0) (entry : 0 ≤ c.index0 ∧ c.index0 < 4)
    (here : mbrEntry d f c mbr = (c',true)) : Framed mbr c' := by
  unfold mbrEntry at here
  simp only at here
  split at here
  · cases here
  rename_i sane
  split at here
  · rename_i extended
    split at here
    · cases here
    · cases here
      have some' : ostype mbr (tableEntry c.index0) ≠ 0 := by
        intro zero
        rw [zero] at extended
        exact absurd extended (by decide)
      obtain ⟨start,noWrap⟩ := primarySane strict sane some'
      exact ⟨fun _ => ⟨entry,extended,start,noWrap⟩,framed.unset,fun set => absurd unset set,
        fun more => absurd (framed.unset unset).2 more⟩
  · cases here
    exact framed

theorem mbrOutcome (strict : f.strict = true) (framed : Framed mbr c) (unset : c.u.bebrLba = 0) (index : -1 ≤ c.index0 ∧ c.index0 < 4)
    (ran : dosNextMbr d f c = some (c',found)) : Outcome mbr (c',found) := by
  induction left : (4 - c.index0).toNat generalizing c with
  | zero => omega
  | succ n ih =>
    have moved : Framed mbr { c with index0 := c.index0 + 1 } := ⟨framed.base,framed.unset,framed.first,framed.next⟩
    by_cases more : c.index0 + 1 < 4
    case neg =>
      rw [dosNextMbrTurn index.2,if_neg more] at ran
      cases ran
      refine .nothing moved ?_
      show c.index0 + 1 = 4
      omega
    rw [dosNextMbrAt more (framed.unset unset).1] at ran
    generalize entered : mbrEntry d f { c with index0 := c.index0 + 1 } mbr = answer at ran
    obtain ⟨c₁,fine⟩ := answer
    obtain ⟨index₁,_,base₁,status₁⟩ := mbrEntrySpec entered
    cases fine with
    | false =>
      cases ran
      exact .failed (by simp [status₁])
    | true =>
      have framed₁ := mbrEntryFramed strict moved unset (show 0 ≤ c.index0 + 1 ∧ c.index0 + 1 < 4 by omega) entered
      simp only at ran index₁ base₁
      split at ran
      · cases ran
        exact .primary framed₁ (base₁.trans unset) (by omega)
      · exact ih framed₁ (base₁.trans unset) (by omega) ran (by omega)

theorem prepFramed (framed : Framed mbr c) {r : Int} (prep : prepBaseEbr c = some (c',r)) :
    r < 0 ∨ Framed mbr c' ∧ c'.u.bebrLba ≠ 0 ∧ c.index0 ≤ c'.index0 + 1 := by
  unfold prepBaseEbr at prep
  split at prep
  · cases prep
    exact Or.inl (by decide)
  rename_i noted
  have base := framed.base (by omega)
  split at prep
  · rename_i unset
    rw [(framed.unset unset).1] at prep
    cases prep
    refine Or.inr ⟨⟨fun _ => base,fun zero => absurd zero base.start,fun _ => ⟨base.entry.1,rfl,rfl⟩,fun _ => ⟨base,Nat.le_refl _,Nat.le_refl _⟩⟩,
      base.start,?_⟩
    simp only [setBaseEbr]
    omega
  · rename_i set'
    cases prep
    exact Or.inr ⟨framed,set',by omega⟩

theorem ebrEntryNext (here : ebrEntry d f c = (c',some data)) :
    notsaneLogical f data c.u.nebrSiz = none ∧ notsaneExtended f data c.u.bebrSiz = none ∧ c'.u.bebrSiz = c.u.bebrSiz ∧
      c'.u.cebrLba = c.u.nebrLba ∧ (ostype data (tableEntry 1) = 0 → c'.u.nebrLba = 0) ∧
      (ostype data (tableEntry 1) ≠ 0 → c'.u.nebrLba = (c.u.bebrLba + startLba data (tableEntry 1)) % 2^32 ∧
        c'.u.nebrSiz = partLength data (tableEntry 1)) := by
  unfold ebrEntry at here
  split at here
  · cases here
  simp only at here
  split at here
  · cases here
  rename_i data sane
  cases here
  obtain ⟨logical,extended⟩ := Option.or_eq_none_iff.mp sane
  refine ⟨logical,extended,?_,?_,?_,?_⟩
  · simp only
    split <;> split <;> rfl
  · simp only
    split <;> split <;> rfl
  · intro none'
    rw [if_neg (not_not.mpr none')]
    simp only
    split <;> rfl
  · intro more
    rw [if_pos more]
    simp only
    split <;> exact ⟨rfl,rfl⟩

theorem ebrEntryFramed (strict : f.strict = true) (framed : Framed mbr c) (set' : c.u.bebrLba ≠ 0) (more : c.u.nebrLba ≠ 0)
    (here : ebrEntry d f c = (c',some data)) : Framed mbr c' ∧ c'.u.bebrLba ≠ 0 ∧
      (ostype data (tableEntry 0) ≠ 0 → partLength data (tableEntry 0) ≠ 0 ∧
        InBase mbr c'.u.bebrIndex0 (ebrLba c' data) (partLength data (tableEntry 0))) := by
  obtain ⟨_,baseLba,baseIndex,_,_,_,_⟩ := ebrEntrySpec here
  obtain ⟨logical,extended,baseSiz,current,last,next⟩ := ebrEntryNext here
  obtain ⟨noted,lba,size⟩ := framed.first set'
  obtain ⟨base,behind,before⟩ := framed.next more
  have noWrap := base.noWrap
  rw [baseLba,baseIndex]
  refine ⟨⟨?_,?_,?_,?_⟩,set',?_⟩
  · exact fun _ => baseIndex ▸ base
  · exact fun zero => absurd (baseLba ▸ zero) set'
  · intro _
    rw [baseLba,baseIndex,baseSiz]
    exact ⟨noted,lba,size⟩
  · intro goes
    have some' : ostype data (tableEntry 1) ≠ 0 := fun none' => goes (last none')
    have fits := extendedFrame strict extended some'
    rw [baseIndex,(next some').1,(next some').2]
    refine ⟨base,?_,?_⟩ <;> omega
  · intro some'
    obtain ⟨start,length,fits⟩ := logicalFrame strict logical some'
    refine ⟨length,?_⟩
    rw [ebrLba,if_pos start,current]
    refine ⟨base,?_,?_⟩ <;> omega

theorem ebrOutcome (strict : f.strict = true) (framed : Framed mbr c) (set' : c.u.bebrLba ≠ 0) (index : 3 ≤ c.index0)
    (ran : ebrLoop d f c = some (c',found)) : Outcome mbr (c',found) := by
  induction left : (1024 - c.index0).toNat using Nat.strong_induction_on generalizing c with
  | _ n ih =>
    rw [ebrLoopTurn] at ran
    split at ran
    case isFalse last =>
      cases ran
      exact .failed (by simp)
    rename_i more
    have moved : Framed mbr { c with index0 := c.index0 + 1 } := ⟨framed.base,framed.unset,framed.first,framed.next⟩
    generalize entered : ebrEntry d f { c with index0 := c.index0 + 1 } = answer at ran
    obtain ⟨c₁,data⟩ := answer
    obtain ⟨index₁,_,_,loaded,_,failed,_⟩ := ebrEntrySpec entered
    cases data with
    | none =>
      cases ran
      exact .failed (failed rfl)
    | some data =>
      obtain ⟨framed₁,set₁,inside⟩ := ebrEntryFramed strict moved set' more.2 entered
      simp only at ran index₁
      split at ran
      · cases ran
        exact .logical framed₁ (by omega) loaded inside
      · exact ih _ (by omega) framed₁ set₁ (by omega) ran rfl

theorem nextEbrOutcome (strict : f.strict = true) (framed : Framed mbr c) (index : 4 ≤ c.index0)
    (ran : dosNextEbr d f c = some (c',found)) : Outcome mbr (c',found) := by
  unfold dosNextEbr at ran
  simp only [Option.bind_eq_bind,Option.bind_eq_some_iff] at ran
  obtain ⟨⟨c₁,r⟩,prep,ran⟩ := ran
  rcases prepFramed framed prep with none' | ⟨framed₁,set₁,index₁⟩
  · rw [if_pos none'] at ran
    cases ran
    exact .failed (by simp)
  · split at ran
    · cases ran
      exact .failed (by simp)
    · exact ebrOutcome strict framed₁ set₁ (by omega) ran

theorem thenLogicalEq (some' : found ≠ .failed) : thenLogical d f (c,found) = if 4 ≤ c.index0 then dosNextEbr d f c else some (c,found) := by
  cases found with
  | failed => exact absurd rfl some'
  | nothing => rfl
  | part lba dp => rfl

theorem searchOutcome (strict : f.strict = true) (framed : Framed mbr c) (index : -1 ≤ c.index0) (unset : c.index0 < 4 → c.u.bebrLba = 0)
    (ran : dosSearch d f c = some (c',found)) : Outcome mbr (c',found) := by
  rw [dosSearch,Option.bind_eq_some_iff] at ran
  obtain ⟨⟨c₁,first⟩,mbrRan,ran⟩ := ran
  have outcome : Outcome mbr (c₁,first) ∨ 4 ≤ c.index0 ∧ c₁ = c ∧ first = .nothing := by
    split at mbrRan
    · rename_i low
      exact Or.inl (mbrOutcome strict framed (unset low) ⟨index,low⟩ mbrRan)
    · cases mbrRan
      exact Or.inr ⟨by omega,rfl,rfl⟩
  rcases outcome with outcome | ⟨high,rfl,rfl⟩
  · cases outcome with
    | failed status =>
      cases ran
      exact .failed status
    | nothing framed₁ index₁ =>
      rw [thenLogicalEq (by simp),if_pos (by omega)] at ran
      exact nextEbrOutcome strict framed₁ (by omega) ran
    | primary framed₁ unset₁ low =>
      rw [thenLogicalEq (by simp),if_neg (Int.not_le.mpr low.2)] at ran
      cases ran
      exact .primary framed₁ unset₁ low
    | logical framed₁ high loaded inside =>
      rw [thenLogicalEq (by simp),if_pos high] at ran
      exact nextEbrOutcome strict framed₁ high ran
  · rw [thenLogicalEq (by simp),if_pos high] at ran
    exact nextEbrOutcome strict framed high ran

/- The entry of an EBR that the iterator stands at, with its type and where the iterator says that it lies. -/
structure Logical (it : PartIter Dos Unit) (data : Buffer) (dp : Int) : Prop where
  high : 4 ≤ it.index0
  loaded : it.data = some data
  record : it.record = some dp
  some' : ostype data dp ≠ 0

structure Standing (mbr : Buffer) (it : PartIter Dos Unit) : Prop where
  framed : Framed mbr it.toCursor
  index : -1 ≤ it.index0
  unset : it.index0 < 4 → it.u.bebrLba = 0
  reported : ∀ data dp, Logical it data dp → it.length ≠ 0 ∧ InBase mbr it.u.bebrIndex0 it.absLba it.length

theorem nextStanding {it it' : PartIter Dos Unit} (strict : it.flags.strict = true) (standing : it.status = .ok → Standing mbr it)
    (next : piDosNext d it = some it') : it'.flags = it.flags ∧ (it'.status = .ok → Standing mbr it') := by
  unfold piDosNext at next
  split at next
  · rename_i failed
    cases next
    exact ⟨rfl,standing⟩
  rename_i okay
  have standing := standing (not_not.mp okay)
  simp only [Option.bind_eq_bind,Option.bind_eq_some_iff] at next
  obtain ⟨⟨c,found⟩,ran,next⟩ := next
  have outcome := searchOutcome strict standing.framed standing.index standing.unset ran
  cases outcome with
  | failed status =>
    cases next
    exact ⟨rfl,fun fine => absurd fine status⟩
  | nothing => cases next
  | @primary c lba dp framed unset low =>
    obtain ⟨data,loaded,next⟩ := Option.bind_eq_some_iff.mp next
    cases next
    refine ⟨rfl,fun _ => ⟨framed,?_,fun _ => unset,fun data dp logical => ?_⟩⟩
    · show -1 ≤ c.index0
      omega
    · have high := logical.high
      simp only at high
      omega
  | @logical c data lba dp framed high loaded inside =>
    simp only [loaded,Option.bind_some] at next
    cases next
    refine ⟨rfl,fun _ => ⟨framed,?_,fun low => ?_,fun data' dp' logical => ?_⟩⟩
    · show -1 ≤ c.index0
      omega
    · have low : c.index0 < 4 := low
      omega
    · obtain ⟨_,loaded',record,some'⟩ := logical
      cases loaded.symm.trans loaded'
      cases record
      exact inside some'

def Calls (d : Disk) : PartIter Dos Unit → PartIter Dos Unit → Prop := Relation.ReflTransGen fun it it' => piDosNext d it = some it'

theorem callsStanding {it it' : PartIter Dos Unit} (strict : it.flags.strict = true) (standing : Standing mbr it) (calls : Calls d it it') :
    it'.flags = it.flags ∧ (it'.status = .ok → Standing mbr it') := by
  induction calls with
  | refl => exact ⟨rfl,fun _ => standing⟩
  | tail _ next ih =>
    obtain ⟨flags,more⟩ := nextStanding (ih.1 ▸ strict) ih.2 next
    exact ⟨flags.trans ih.1,more⟩

theorem runsCalls {a : Iter} {entries : List Entry} {status : Status} (runs : Runs (advance d) a entries status) :
    ∀ it, a = .typedos it → ∃ it', Calls d it it' ∧ it'.status ≠ .ok := by
  induction runs with
  | @stop a status here =>
    rintro it rfl
    simp only [advance,piNext,Option.bind_eq_bind,Option.bind_eq_some_iff,Option.map_eq_some_iff] at here
    obtain ⟨_,⟨it',next,rfl⟩,here⟩ := here
    refine ⟨it',.single next,fun okay => ?_⟩
    rw [if_pos (show (Iter.typedos it').status = .ok from okay)] at here
    obtain ⟨_,_,other⟩ := Option.bind_eq_some_iff.mp here
    cases other
  | @more a a' e entries status here _ ih =>
    rintro it rfl
    simp only [advance,piNext,Option.bind_eq_bind,Option.bind_eq_some_iff,Option.map_eq_some_iff] at here
    obtain ⟨_,⟨it',next,rfl⟩,here⟩ := here
    split at here
    · obtain ⟨_,_,same⟩ := Option.bind_eq_some_iff.mp here
      cases same
      obtain ⟨last,calls,stopped⟩ := ih it' rfl
      exact ⟨last,.head next calls,stopped⟩
    · cases here

theorem dosStops {it : PartIter Dos Unit} (inv : DosInv it.toCursor) : ∃ it', Calls d it it' ∧ it'.status ≠ .ok := by
  have flags : it.flags = it.flags.all ∨ it.flags = it.flags.plain := by
    cases every : it.flags.stepall
    · exact Or.inr (by rw [Flags.plain,← every])
    · exact Or.inl (by rw [Flags.all,← every])
  rcases flags with same | same
  · obtain ⟨entries,status,runs,_⟩ := dosRuns (d := d) (.mk same rfl rfl inv : DosPair it.flags (.typedos it) (.typedos { it with flags := it.flags.plain }))
    exact runsCalls runs it rfl
  · obtain ⟨entries,status,_,runs⟩ := dosRuns (d := d) (.mk rfl same rfl inv : DosPair it.flags (.typedos { it with flags := it.flags.all }) (.typedos it))
    exact runsCalls runs it rfl

theorem piBeginDos {it : PartIter Dos Unit} (begun : (piBegin d f).1 = some (.typedos it)) :
    ∃ mbr said, diskReadSectors d 0 1 = some mbr ∧ it = piCtor d f ⟨le mbr 440 4,0,0,0,0,0,0,-1,0⟩ () (some mbr) said := by
  have ctor {mbr : Buffer} {said : List String} (made : (piDosCtor d f mbr said).1 = some (.typedos it)) :
      it = piCtor d f ⟨le mbr 440 4,0,0,0,0,0,0,-1,0⟩ () (some mbr) said := by
    unfold piDosCtor at made
    split at made
    · cases made
    · cases made
      rfl
  unfold piBegin at begun
  split at begun
  · cases begun
  split at begun
  · cases begun
  rename_i mbr read
  split at begun
  · cases begun
  simp only at begun
  split at begun
  · cases begun
  split at begun
  · exact ⟨mbr,_,read,ctor begun⟩
  split at begun
  · split at begun
    · cases begun
    split at begun
    · cases begun
    · unfold piGptCtor at begun
      split at begun <;> cases begun
  · exact ⟨mbr,_,read,ctor begun⟩

theorem dosIterates {it : PartIter Dos Unit} (begun : (piBegin d f).1 = some (.typedos it)) :
    (∃ it', Calls d it it' ∧ it'.status ≠ .ok) ∧ (f.strict = true → ∃ mbr, diskReadSectors d 0 1 = some mbr ∧
      ∀ it', Calls d it it' → it'.status = .ok → ∀ data dp, Logical it' data dp →
        it'.length ≠ 0 ∧ it'.absLba + it'.length < 2^32 ∧ InBase mbr it'.u.bebrIndex0 it'.absLba it'.length) := by
  obtain ⟨mbr,said,read,rfl⟩ := piBeginDos begun
  refine ⟨dosStops ⟨rfl,by simp [piCtor],by simp [piCtor]⟩,fun strict => ⟨mbr,read,fun it' calls fine data dp logical => ?_⟩⟩
  have start : Standing mbr (piCtor d f ⟨le mbr 440 4,0,0,0,0,0,0,-1,0⟩ () (some mbr) said) :=
    ⟨⟨fun noted => absurd noted (by simp [piCtor]),fun _ => ⟨rfl,rfl⟩,fun set' => absurd rfl set',fun more => absurd rfl more⟩,
      Int.le_refl _,fun _ => rfl,fun data dp logical => absurd logical.high (by simp [piCtor])⟩
  obtain ⟨length,inside⟩ := ((callsStanding strict start calls).2 fine).reported data dp logical
  have noWrap := inside.base.noWrap
  have before := inside.before
  exact ⟨length,by omega,inside⟩

/- An MBR with an extended partition at 10, and an EBR whose second entry leads back to it. -/
def sectorOf (set' : List (Int × UInt8)) : Buffer := fun off => ((set'.find? (·.1 == off)).map Prod.snd).getD 0

def loopingDisk : Disk where
  bps := 512
  lbacnt := 1000
  int13 := fun lba _ =>
    if lba = 0 then some (sectorOf [(450,5),(454,10),(458,100),(510,0x55),(511,0xAA)])
    else some (sectorOf [(450,0x83),(454,1),(458,4),(466,5),(470,20),(474,10)])
  malloc := fun _ => true
  crc32 := fun _ _ => 0

def strictly : Flags := ⟨false,false,true,false⟩

theorem dosIteratesLooping : ∃ it, (piBegin loopingDisk strictly).1 = some (.typedos it) ∧
    (∃ it', Calls loopingDisk it it' ∧ it'.status ≠ .ok) ∧ (strictly.strict = true → ∃ mbr, diskReadSectors loopingDisk 0 1 = some mbr ∧
      ∀ it', Calls loopingDisk it it' → it'.status = .ok → ∀ data dp, Logical it' data dp →
        it'.length ≠ 0 ∧ it'.absLba + it'.length < 2^32 ∧ InBase mbr it'.u.bebrIndex0 it'.absLba it'.length) := by
  have begun : ∃ it, (piBegin loopingDisk strictly).1 = some (.typedos it) := ⟨_,rfl⟩
  obtain ⟨it,begun⟩ := begun
  exact ⟨it,begun,dosIterates begun⟩

end
end Syslinux.Partiter
