import Syslinux.Strides
import Syslinux.NtfsIndex

/-! The walks of an attribute lookup within a record: through its attributes, and through the
entries, blocks and runs of its $ATTRIBUTE_LIST. What each of them comes to, and when it ends, is
said of the lengths that the image has. -/
namespace Syslinux.Ntfs
open Fat (le16 le32 le64)
open Relation (ReflTransGen)
open Loops Strides

section
variable (mem : Nat → UInt8) (type : Nat)

def attrLength (attr : Nat) : Nat := le32 mem (attr + 4)

/- An $ATTRIBUTE_LIST is passed by, whatever is looked for. -/
def AttrPassed (attr : Nat) : Prop := attrType mem attr ≠ atEnd ∧ (attrType mem attr = atAttrList ∨ attrType mem attr ≠ type)

instance : DecidablePred (AttrPassed mem type) := fun _ => by unfold AttrPassed; infer_instance

def AttrsEnd (attr : Nat) : Prop := Advances (attrLength mem) (AttrPassed mem type) attr

/- The next attribute, and the $ATTRIBUTE_LIST seen last. -/
def attrsNext (at' : Nat × Option Nat) : Nat × Option Nat :=
  (attrNext mem at'.1,if attrType mem at'.1 = atAttrList then some at'.1 else at'.2)

def AttrsStop (first : Nat) (at' : Nat × Option Nat) : Prop :=
  Reached (attrsNext mem) (fun at' => AttrPassed mem type at'.1) (first,none) at' ∧ ¬ AttrPassed mem type at'.1

def entryLength (entry : Nat) : Nat := le16 mem (entry + 4)

def EntryPassed (bound entry : Nat) : Prop := entry < bound ∧ le32 mem entry ≠ type

instance (bound) : DecidablePred (EntryPassed mem type bound) := fun _ => by unfold EntryPassed; infer_instance

def EntriesEnd (bound start : Nat) : Prop := Advances (entryLength mem) (EntryPassed mem type bound) start

def EntryFound (bound start entry : Nat) : Prop :=
  Reached (further (entryLength mem)) (EntryPassed mem type bound) start entry ∧ entry < bound ∧ le32 mem entry = type

def EntriesOver (bound start : Nat) : Prop :=
  ∃ entry, Reached (further (entryLength mem)) (EntryPassed mem type bound) start entry ∧ bound ≤ entry

end

section
variable {mem : Nat → UInt8} {type bound attr entry first : Nat}

theorem walkAttrsLoop (mem : Nat → UInt8) (type turns attr : Nat) (list : Option Nat) : walkAttrs mem type turns attr list =
    loop (fun c => some (stride (fun at' => AttrPassed mem type at'.1) (attrsNext mem) id c)) turns (attr,list) := by
  induction turns generalizing attr list with
  | zero => rfl
  | succ turns ih =>
    rw [walkAttrs,loop,stride]
    by_cases over' : attrType mem attr = atEnd
    · rw [if_pos over',if_neg fun pass => pass.1 over']
      rfl
    by_cases isList : attrType mem attr = atAttrList
    · rw [if_neg over',if_pos isList,if_pos ⟨over',Or.inl isList⟩]
      simp only [attrsNext,if_pos isList]
      exact ih _ _
    by_cases same : attrType mem attr = type
    · rw [if_neg over',if_neg isList,if_pos same,if_neg fun pass => pass.2.elim isList fun other => other same]
      rfl
    · rw [if_neg over',if_neg isList,if_neg same,if_pos ⟨over',Or.inr same⟩]
      simp only [attrsNext,if_neg isList]
      exact ih _ _

theorem walkEntriesLoop (mem : Nat → UInt8) (type bound turns entry : Nat) : walkEntries mem type bound turns entry =
    loop (fun c => some (stride (EntryPassed mem type bound) (further (entryLength mem))
      (fun entry => if bound ≤ entry then none else some entry) c)) turns entry := by
  induction turns generalizing entry with
  | zero => rfl
  | succ turns ih =>
    rw [walkEntries,loop,stride]
    by_cases over' : bound ≤ entry
    · rw [if_pos over',if_neg fun pass => absurd pass.1 (by omega)]
      simp only [if_pos over']
    by_cases same : le32 mem entry = type
    · rw [if_neg over',if_pos same,if_neg fun pass => pass.2 same]
      simp only [if_neg over']
    · rw [if_neg over',if_neg same,if_pos ⟨by omega,same⟩]
      exact ih _

theorem attrsLasting (mem : Nat → UInt8) (type attr : Nat) (list : Option Nat) :
    Lasting fun n => walkAttrs mem type n attr list := by
  simp only [walkAttrsLoop]
  exact plainLasting _ _

theorem entriesLasting (mem : Nat → UInt8) (type bound entry : Nat) : Lasting fun n => walkEntries mem type bound n entry := by
  simp only [walkEntriesLoop]
  exact plainLasting _ _

theorem add32Small (a b : Nat) : add32 a b < 2^32 := Nat.mod_lt _ (by norm_num)

theorem attrsAnswers (list : Option Nat) : Answers (fun n => walkAttrs mem type n attr list) ↔ AttrsEnd mem type attr := by
  simp only [walkAttrsLoop]
  -- The course of the walk does not depend on the $ATTRIBUTE_LIST seen last.
  have course : Answers (fun n => loop (fun c => some (stride (AttrPassed mem type) (further (attrLength mem)) (fun _ => ()) c)) n attr) ↔
      AttrsEnd mem type attr := strideAnswers
  refine (plainProject Prod.fst ?_ ?_ _).trans course
  · intro c b stop
    unfold stride at stop ⊢
    split_ifs at stop ⊢
    exact ⟨(),rfl⟩
  · intro c d go
    unfold stride at go ⊢
    split_ifs at go ⊢
    cases go
    rfl

theorem attrsGives {at' : Nat × Option Nat} : Gives (fun n => walkAttrs mem type n first none) at' ↔ AttrsStop mem type first at' := by
  simp only [walkAttrsLoop]
  refine strideGives.trans ⟨?_,fun ⟨reached,stop⟩ => ⟨at',reached,stop,rfl⟩⟩
  rintro ⟨_,reached,stop,rfl⟩
  exact ⟨reached,stop⟩

theorem entriesAnswers : Answers (fun n => walkEntries mem type bound n entry) ↔ EntriesEnd mem type bound entry := by
  simp only [walkEntriesLoop]
  exact strideAnswers

theorem entriesGives : Gives (fun n => walkEntries mem type bound n first) (some entry) ↔ EntryFound mem type bound first entry := by
  simp only [walkEntriesLoop]
  refine strideGives.trans ⟨?_,fun ⟨reached,inside,same⟩ => ⟨entry,reached,fun pass => pass.2 same,if_neg (by omega)⟩⟩
  rintro ⟨e,reached,stop,found⟩
  split_ifs at found with inside
  cases found
  refine ⟨reached,by omega,?_⟩
  by_contra other
  exact stop ⟨by omega,other⟩

theorem entriesOver : Gives (fun n => walkEntries mem type bound n first) none ↔ EntriesOver mem type bound first := by
  simp only [walkEntriesLoop]
  refine strideGives.trans ⟨?_,fun ⟨entry,reached,behind⟩ => ⟨entry,reached,fun pass => absurd pass.1 (by omega),if_pos behind⟩⟩
  rintro ⟨e,reached,_,found⟩
  split_ifs at found with behind
  exact ⟨e,reached,behind⟩

end

def Volume.blockClusters (vol : Volume) : Nat := vol.blockSize / vol.clustSize

section
variable {ρ : Type} (vol : Volume) (chunk : MappingChunk) (over' : ρ)

def nextVcn (vcn : Nat) : Nat := (vcn + vol.blockClusters) % 2^64

/- A turn of a loop over the blocks of a run: `visit` is what is done with a block. -/
def blocksBody (visit : Nat → Option (Option ρ)) (vcn : Nat) : Option (ρ ⊕ Nat) :=
  if chunk.len ≤ vcn then some (.inl over')
  else (visit vcn).map fun found => found.elim (.inr (nextVcn vol vcn)) .inl

def blocksSteps (visit : Nat → Nat → Option (Option ρ)) : Nat → ρ ⊕ Nat → Prop :=
  Steps fun n => blocksBody vol chunk over' (visit n)

def BlockComes (Passed : Nat → Prop) (vcn : Nat) : Prop :=
  vcn < 2^64 ∧ vol.blockClusters ∣ vcn ∧ ∀ before < vcn, vol.blockClusters ∣ before → before < chunk.len ∧ Passed before

/- The blocks that are come to can be dealt with, and the 64 bits of vcn are enough for one that is
behind the run or not passed by. -/
def BlocksEnd (Passed Ends : Nat → Prop) : Prop :=
  (∀ vcn, BlockComes vol chunk Passed vcn → vcn < chunk.len → Ends vcn) ∧
  ∃ vcn < 2^64, vol.blockClusters ∣ vcn ∧ ¬ (vcn < chunk.len ∧ Passed vcn)

variable {vol : Volume} {chunk : MappingChunk} {over' : ρ} {visit : Nat → Nat → Option (Option ρ)} {Passed : Nat → Prop} {vcn : Nat}

theorem vcnAt (vol : Volume) (k : Nat) : (nextVcn vol)^[k] 0 = k*vol.blockClusters % 2^64 := by
  induction k with
  | zero => simp
  | succ k ih => rw [Function.iterate_succ_apply',ih,nextVcn,Nat.mod_add_mod,Nat.succ_mul]

theorem clustersAligned (vol : Volume) (k : Nat) : vol.blockClusters ∣ k*vol.blockClusters % 2^64 := by
  unfold Volume.blockClusters Volume.blockSize Volume.clustSize
  rcases Nat.lt_or_ge vol.blockShift vol.clustByteShift with small | large
  · rw [Nat.div_eq_of_lt (Nat.pow_lt_pow_right (by norm_num) small),Nat.mul_zero,Nat.zero_mod]
  rw [Nat.pow_div large (by norm_num)]
  rcases Nat.le_total (vol.blockShift - vol.clustByteShift) 64 with fits | wide
  · exact (Nat.dvd_mod_iff (Nat.pow_dvd_pow 2 fits)).2 (Nat.dvd_mul_left _ _)
  · rw [Nat.mod_eq_zero_of_dvd (Nat.dvd_mul_left_of_dvd (Nat.pow_dvd_pow 2 wide) k)]
    exact Nat.dvd_zero _

theorem blockReached : Reached (nextVcn vol) (fun vcn => vcn < chunk.len ∧ Passed vcn) 0 vcn ↔ BlockComes vol chunk Passed vcn := by
  constructor
  · rintro ⟨k,comes,rfl⟩
    rw [vcnAt]
    refine ⟨Nat.mod_lt _ (by norm_num),clustersAligned vol k,fun before less aligned => ?_⟩
    obtain ⟨m,rfl⟩ := aligned
    rw [Nat.mul_comm] at less ⊢
    have less' : m < k := Nat.lt_of_mul_lt_mul_right (Nat.lt_of_lt_of_le less (Nat.mod_le _ _))
    have here := comes m less'
    rwa [vcnAt,Nat.mod_eq_of_lt (Nat.lt_trans less (Nat.mod_lt _ (by norm_num)))] at here
  · rintro ⟨small,⟨m,rfl⟩,before⟩
    rcases Nat.eq_zero_or_pos vol.blockClusters with none' | some'
    · exact ⟨0,fun j less => by omega,by rw [none',Nat.zero_mul]; rfl⟩
    rw [Nat.mul_comm] at small before ⊢
    refine ⟨m,fun j less => ?_,by rw [vcnAt,Nat.mod_eq_of_lt small]⟩
    have less' : j*vol.blockClusters < m*vol.blockClusters := Nat.mul_lt_mul_of_pos_right less some'
    rw [vcnAt,Nat.mod_eq_of_lt (Nat.lt_trans less' small)]
    exact before _ less' (Nat.dvd_mul_left _ _)

theorem blocksDistinct : Distinct (nextVcn vol) (fun vcn => vcn < chunk.len ∧ Passed vcn) 0 ↔
    ∃ vcn < 2^64, vol.blockClusters ∣ vcn ∧ ¬ (vcn < chunk.len ∧ Passed vcn) := by
  constructor
  · intro distinct
    by_contra none'
    push Not at none'
    refine distinct 0 (2^64) (by norm_num) (fun j _ => ?_) ?_
    · rw [vcnAt]
      exact none' _ (Nat.mod_lt _ (by norm_num)) (clustersAligned vol j)
    · rw [vcnAt,vcnAt,Nat.zero_add,Nat.mul_mod_right,Nat.zero_mul,Nat.zero_mod]
  · rintro ⟨vcn,small,⟨m,rfl⟩,stops⟩ k n some' comes again
    rw [Nat.mul_comm] at small stops
    have behind : k + n ≤ m := by
      by_contra before
      have here := comes m (by omega)
      rw [vcnAt,Nat.mod_eq_of_lt small] at here
      exact stops here
    have first := comes 0 (by omega)
    rcases Nat.eq_zero_or_pos vol.blockClusters with none' | more
    · rw [none'] at stops
      exact stops first
    have most : (k + n)*vol.blockClusters ≤ m*vol.blockClusters := Nat.mul_le_mul_right _ behind
    have less : k*vol.blockClusters < (k + n)*vol.blockClusters := Nat.mul_lt_mul_of_pos_right (by omega) more
    rw [vcnAt,vcnAt,Nat.mod_eq_of_lt (by omega),Nat.mod_eq_of_lt (by omega)] at again
    omega

theorem blocksBodyLasting (lasting : ∀ vcn, Lasting fun n => visit n vcn) (vcn : Nat) :
    Lasting fun n => blocksBody vol chunk over' (visit n) vcn := by
  unfold blocksBody
  by_cases done : chunk.len ≤ vcn
  · simp only [if_pos done]
    exact lastingConst _
  · simp only [if_neg done]
    exact lastingMap (lasting vcn) _

theorem blocksGoes (passes : ∀ vcn, Gives (fun n => visit n vcn) none ↔ Passed vcn) (c d : Nat) :
    Goes (blocksSteps vol chunk over' visit) c d ↔ (c < chunk.len ∧ Passed c) ∧ d = nextVcn vol c := by
  unfold Goes blocksSteps Steps blocksBody
  by_cases done : chunk.len ≤ c
  · simp only [if_pos done]
    refine iff_of_false (fun here => ?_) fun here => absurd here.1.1 (by omega)
    cases givesConst.1 here
  simp only [if_neg done]
  rw [← passes]
  constructor
  · rintro ⟨n,here⟩
    obtain ⟨found,given,same⟩ := Option.map_eq_some_iff.1 here
    cases found with
    | some r => cases same
    | none => exact ⟨⟨by omega,n,given⟩,(Sum.inr.inj same).symm⟩
  · rintro ⟨⟨_,n,given⟩,rfl⟩
    exact ⟨n,by simp only [given]; rfl⟩

theorem blocksAnswers (lasting : ∀ vcn, Lasting fun n => visit n vcn) {Ends : Nat → Prop}
    (passes : ∀ vcn, Gives (fun n => visit n vcn) none ↔ Passed vcn) (ends : ∀ vcn, (Answers fun n => visit n vcn) ↔ Ends vcn) :
    Answers (fun n => loop (blocksBody vol chunk over' (visit n)) n 0) ↔ BlocksEnd vol chunk Passed Ends := by
  have small : ∀ c d, Goes (blocksSteps vol chunk over' visit) c d → d < 2^64 := by
    intro c d go
    rw [((blocksGoes passes c d).1 go).2]
    exact Nat.mod_lt _ (by norm_num)
  rw [loopAnswers (blocksBodyLasting lasting) (fun _ _ => Iff.rfl) (numbersFinite _ small _)]
  refine and_congr (forall_congr' fun vcn => ?_) ((noReturnDistinct (blocksGoes passes)).trans blocksDistinct)
  refine imp_congr ((goesReach (blocksGoes passes)).trans blockReached) ?_
  unfold blocksBody
  by_cases done : chunk.len ≤ vcn
  · simp only [if_pos done]
    exact iff_of_true (answersConst.2 rfl) fun less => absurd less (by omega)
  · simp only [if_neg done,answersMap,ends]
    exact ⟨fun here _ => here,fun here => here (by omega)⟩

theorem blocksGives (lasting : ∀ vcn, Lasting fun n => visit n vcn) (passes : ∀ vcn, Gives (fun n => visit n vcn) none ↔ Passed vcn)
    {r : ρ} : Gives (fun n => loop (blocksBody vol chunk over' (visit n)) n 0) r ↔ ∃ vcn, BlockComes vol chunk Passed vcn ∧
      (chunk.len ≤ vcn ∧ r = over' ∨ vcn < chunk.len ∧ Gives (fun n => visit n vcn) (some r)) := by
  rw [loopGives (blocksBodyLasting lasting) fun _ _ => Iff.rfl]
  refine (stopsReached (blocksGoes passes) r).trans (exists_congr fun vcn => and_congr blockReached ?_)
  unfold blocksSteps Steps blocksBody
  by_cases done : chunk.len ≤ vcn
  · simp only [if_pos done]
    rw [givesConst,Option.some_inj,Sum.inl.injEq,eq_comm]
    exact ⟨fun same => Or.inl ⟨done,same⟩,fun here => here.elim And.right fun inside => absurd inside.1 (by omega)⟩
  simp only [if_neg done]
  constructor
  · rintro ⟨n,here⟩
    obtain ⟨found,given,same⟩ := Option.map_eq_some_iff.1 here
    cases found with
    | none => cases same
    | some r' =>
      cases same
      exact Or.inr ⟨by omega,n,given⟩
  · rintro (⟨done',_⟩ | ⟨_,n,given⟩)
    · exact absurd done' done
    · exact ⟨n,by simp only [given]; rfl⟩

end

/- The fields of a chunk are of 64 bits. -/
structure ChunkFits (chunk : MappingChunk) : Prop where
  vcn : chunk.vcn < 2^64
  low : -2^63 ≤ chunk.lcn
  high : chunk.lcn < 2^63
  len : chunk.len < 2^64

theorem chunksFinite : {c : Nat × MappingChunk | c.1 < 2^32 ∧ ChunkFits c.2}.Finite := by
  have boxes := (((Set.finite_Iio (2^32)).prod (Set.finite_Iio (2^64))).prod
    ((Set.finite_Ico (-2^63 : Int) (2^63)).prod (Set.finite_Iio (2^64)))).prod
    (Set.finite_univ : (Set.univ : Set ((Bool × Bool) × (Bool × Bool))).Finite)
  refine (boxes.image fun b => (b.1.1.1,⟨b.1.1.2,b.1.2.1,b.1.2.2,b.2.1.1,b.2.1.2,b.2.2.1,b.2.2.2⟩)).subset ?_
  rintro ⟨offset,chunk⟩ ⟨small,fits⟩
  exact ⟨(((offset,chunk.vcn),(chunk.lcn,chunk.len)),((chunk.mapStart,chunk.mapEnd),(chunk.mapAllocated,chunk.mapUnallocated))),
    ⟨⟨⟨small,fits.vcn⟩,⟨⟨fits.low,fits.high⟩,fits.len⟩⟩,trivial⟩,rfl⟩

theorem int64Range (n : Int) : -2^63 ≤ toInt64 n ∧ toInt64 n < 2^63 := by
  unfold toInt64
  rw [Int.bmod_def]
  split_ifs <;> omega

theorem parsed {mem : Nat → UInt8} {stream offset attrLen o : Nat} {chunk c : MappingChunk}
    (ok : parseDataRun mem stream offset attrLen chunk = some (o,c)) :
    (c.mapEnd ∧ c.mapUnallocated = false) ∨
    (c.mapEnd = false ∧ o < 2^32 ∧ c.vcn = chunk.vcn ∧ -2^63 ≤ c.lcn ∧ c.lcn < 2^63 ∧ c.len < 2^64) := by
  unfold parseDataRun at ok
  simp only at ok
  by_cases over' : attrLen < stream + offset ∨ mem (stream + offset) = 0
  · rw [if_pos over'] at ok
    cases ok
    exact Or.inl ⟨rfl,rfl⟩
  rw [if_neg over'] at ok
  by_cases wide : 8 < (mem (stream + offset)).toNat % 16 ∨ 8 < (mem (stream + offset)).toNat / 16
  · rw [if_pos wide] at ok
    cases ok
  · rw [if_neg wide] at ok
    cases ok
    refine Or.inr ⟨rfl,add32Small _ _,rfl,(int64Range _).1,(int64Range _).2,?_⟩
    simp only
    omega

theorem endNoHole {mem : Nat → UInt8} {stream offset attrLen o : Nat} {chunk c : MappingChunk}
    (ok : parseDataRun mem stream offset attrLen chunk = some (o,c)) (over' : c.mapEnd) : ¬ c.mapUnallocated := by
  rcases parsed ok with ⟨_,hole⟩ | ⟨more,_⟩
  · rw [hole]
    exact Bool.false_ne_true
  · rw [more] at over'
    cases over'

section
variable {ρ : Type} (mem : Nat → UInt8) (stream attrLen : Nat) (stop : ρ) (after : MappingChunk → MappingChunk)
  (Passed : MappingChunk → Prop)

/- A turn of a loop over the runs: `visit` is what is done for an allocated run. -/
def runsBody (visit : MappingChunk → Option (ρ ⊕ MappingChunk)) (at' : Nat × MappingChunk) : Option (ρ ⊕ (Nat × MappingChunk)) :=
  match parseDataRun mem stream at'.1 attrLen at'.2 with
  | none => some (.inl stop)
  | some (offset,chunk) =>
      if chunk.mapEnd then some (.inl stop)
      else if chunk.mapUnallocated then some (.inr (offset,chunk))
      else (visit chunk).map (Sum.map id fun chunk => (offset,chunk))

def runsSteps (visit : Nat → MappingChunk → Option (ρ ⊕ MappingChunk)) : Nat × MappingChunk → ρ ⊕ (Nat × MappingChunk) → Prop :=
  Steps fun n => runsBody mem stream attrLen stop (visit n)

/- The place behind a run: `after` is how an allocated run leaves the chunk. -/
def runNext (at' : Nat × MappingChunk) : Nat × MappingChunk :=
  match parseDataRun mem stream at'.1 attrLen at'.2 with
  | none => at'
  | some (offset,chunk) => (offset,if chunk.mapUnallocated then chunk else after chunk)

def RunPassed (at' : Nat × MappingChunk) : Prop := ∃ offset chunk, parseDataRun mem stream at'.1 attrLen at'.2 = some (offset,chunk) ∧
  ¬ chunk.mapEnd ∧ (chunk.mapUnallocated ∨ Passed chunk)

/- The list of runs has this allocated one, and those before it are passed by. -/
def RunComes (chunk : MappingChunk) : Prop := ∃ at' offset,
  Reached (runNext mem stream attrLen after) (RunPassed mem stream attrLen Passed) (0,mappingChunkInit) at' ∧
  parseDataRun mem stream at'.1 attrLen at'.2 = some (offset,chunk) ∧ ¬ chunk.mapEnd ∧ ¬ chunk.mapUnallocated

/- The list of runs comes to an end, with allocated runs that are passed by. -/
def RunsOver : Prop := ∃ at',
  Reached (runNext mem stream attrLen after) (RunPassed mem stream attrLen Passed) (0,mappingChunkInit) at' ∧
  ∀ offset chunk, parseDataRun mem stream at'.1 attrLen at'.2 = some (offset,chunk) → chunk.mapEnd

/- The runs that are come to can be dealt with, and none comes up again: at the same offset in the list, with
the same LCN and VCN. -/
def RunsEnd (Ends : MappingChunk → Prop) : Prop :=
  (∀ chunk, RunComes mem stream attrLen after Passed chunk → Ends chunk) ∧
  Distinct (runNext mem stream attrLen after) (RunPassed mem stream attrLen Passed) (0,mappingChunkInit)

variable {mem : Nat → UInt8} {stream attrLen : Nat} {stop : ρ} {after : MappingChunk → MappingChunk}
  {Passed : MappingChunk → Prop} {visit : Nat → MappingChunk → Option (ρ ⊕ MappingChunk)}

theorem runsBodyLasting (lasting : ∀ c, Lasting fun n => visit n c) (at' : Nat × MappingChunk) :
    Lasting fun n => runsBody mem stream attrLen stop (visit n) at' := by
  unfold runsBody
  cases parseDataRun mem stream at'.1 attrLen at'.2 with
  | none => exact lastingConst _
  | some run =>
    obtain ⟨offset,chunk⟩ := run
    simp only
    split_ifs
    · exact lastingConst _
    · exact lastingConst _
    · exact lastingMap (lasting chunk) _

section
variable (passes : ∀ c x, Gives (fun n => visit n c) (.inr x) ↔ Passed c ∧ x = after c)
include passes

theorem runsGoes (c d : Nat × MappingChunk) : Goes (runsSteps mem stream attrLen stop visit) c d ↔
    RunPassed mem stream attrLen Passed c ∧ d = runNext mem stream attrLen after c := by
  change Gives (fun n => runsBody mem stream attrLen stop (visit n) c) (.inr d) ↔ _
  unfold runsBody RunPassed runNext
  cases parseDataRun mem stream c.1 attrLen c.2 with
  | none =>
    refine iff_of_false (fun here => ?_) fun here => ?_
    · cases givesConst.1 here
    · obtain ⟨⟨_,_,none',_⟩,_⟩ := here
      cases none'
  | some run =>
    obtain ⟨offset,chunk⟩ := run
    simp only
    by_cases over' : chunk.mapEnd
    · simp only [if_pos over']
      refine iff_of_false (fun here => ?_) fun here => ?_
      · cases givesConst.1 here
      · obtain ⟨⟨_,_,same,more,_⟩,_⟩ := here
        cases same
        exact more over'
    simp only [if_neg over']
    by_cases hole : chunk.mapUnallocated
    · simp only [if_pos hole]
      rw [givesConst,Option.some_inj,Sum.inr.injEq,eq_comm]
      exact (and_iff_right ⟨offset,chunk,rfl,over',Or.inl hole⟩).symm
    simp only [if_neg hole]
    constructor
    · rintro ⟨n,here⟩
      obtain ⟨x,given,same⟩ := Option.map_eq_some_iff.1 here
      cases x with
      | inl r => cases same
      | inr next =>
        cases same
        obtain ⟨passed,rfl⟩ := (passes chunk next).1 ⟨n,given⟩
        exact ⟨⟨offset,chunk,rfl,over',Or.inr passed⟩,rfl⟩
    · rintro ⟨⟨_,_,same,_,passed⟩,rfl⟩
      cases same
      obtain ⟨n,given⟩ := (passes chunk (after chunk)).2 ⟨passed.resolve_left hole,rfl⟩
      exact ⟨n,by simp only [given]; rfl⟩

theorem runsAnswers (lasting : ∀ c, Lasting fun n => visit n c) (fits : ∀ c, ChunkFits c → ChunkFits (after c))
    {Ends : MappingChunk → Prop} (ends : ∀ c, (Answers fun n => visit n c) ↔ Ends c) :
    Answers (fun n => loop (runsBody mem stream attrLen stop (visit n)) n (0,mappingChunkInit)) ↔
      RunsEnd mem stream attrLen after Passed Ends := by
  have closed : ∀ c ∈ {c : Nat × MappingChunk | c.1 < 2^32 ∧ ChunkFits c.2}, ∀ d,
      Goes (runsSteps mem stream attrLen stop visit) c d → d ∈ {c : Nat × MappingChunk | c.1 < 2^32 ∧ ChunkFits c.2} := by
    rintro c ⟨_,old⟩ d go
    obtain ⟨⟨offset,chunk,parse,more,_⟩,rfl⟩ := (runsGoes passes c d).1 go
    rcases parsed parse with ⟨over',_⟩ | ⟨_,small,vcn,low,high,len⟩
    · exact absurd over' more
    have chunkFits : ChunkFits chunk := ⟨by rw [vcn]; exact old.vcn,low,high,len⟩
    rw [runNext,parse]
    refine ⟨small,?_⟩
    simp only
    split_ifs
    · exact chunkFits
    · exact fits chunk chunkFits
  have start : ((0,mappingChunkInit) : Nat × MappingChunk) ∈ {c : Nat × MappingChunk | c.1 < 2^32 ∧ ChunkFits c.2} :=
    ⟨by norm_num,by norm_num [mappingChunkInit],by norm_num [mappingChunkInit],by norm_num [mappingChunkInit],
      by norm_num [mappingChunkInit]⟩
  rw [loopAnswers (runsBodyLasting lasting) (fun _ _ => Iff.rfl) (reachFinite chunksFinite start closed)]
  refine and_congr ?_ (noReturnDistinct (runsGoes passes))
  have each (at' : Nat × MappingChunk) : (Answers fun n => runsBody mem stream attrLen stop (visit n) at') ↔
      ∀ offset chunk, parseDataRun mem stream at'.1 attrLen at'.2 = some (offset,chunk) → ¬ chunk.mapEnd →
        ¬ chunk.mapUnallocated → Ends chunk := by
    unfold runsBody
    cases parseDataRun mem stream at'.1 attrLen at'.2 with
    | none => exact iff_of_true (answersConst.2 rfl) fun _ _ none' => by cases none'
    | some run =>
      obtain ⟨offset,chunk⟩ := run
      simp only
      by_cases over' : chunk.mapEnd
      · simp only [if_pos over']
        refine iff_of_true (answersConst.2 rfl) fun o c same more => ?_
        cases same
        exact absurd over' more
      simp only [if_neg over']
      by_cases hole : chunk.mapUnallocated
      · simp only [if_pos hole]
        refine iff_of_true (answersConst.2 rfl) fun o c same _ more => ?_
        cases same
        exact absurd hole more
      simp only [if_neg hole,answersMap,ends]
      constructor
      · intro here o c same _ _
        cases same
        exact here
      · exact fun all => all offset chunk rfl over' hole
  constructor
  · rintro all chunk ⟨at',offset,reached,parse,more,some'⟩
    exact (each at').1 (all at' ((goesReach (runsGoes passes)).2 reached)) offset chunk parse more some'
  · intro all at' reach
    exact (each at').2 fun offset chunk parse more some' =>
      all chunk ⟨at',offset,(goesReach (runsGoes passes)).1 reach,parse,more,some'⟩

theorem runsGives (lasting : ∀ c, Lasting fun n => visit n c) {r : ρ} :
    Gives (fun n => loop (runsBody mem stream attrLen stop (visit n)) n (0,mappingChunkInit)) r ↔
      RunsOver mem stream attrLen after Passed ∧ r = stop ∨
      ∃ chunk, RunComes mem stream attrLen after Passed chunk ∧ Gives (fun n => visit n chunk) (.inl r) := by
  rw [loopGives (runsBodyLasting lasting) fun _ _ => Iff.rfl]
  refine (stopsReached (runsGoes passes) r).trans ?_
  have each (at' : Nat × MappingChunk) : Steps (fun n => runsBody mem stream attrLen stop (visit n)) at' (.inl r) ↔
      ((∀ offset chunk, parseDataRun mem stream at'.1 attrLen at'.2 = some (offset,chunk) → chunk.mapEnd) ∧ r = stop) ∨
      ∃ offset chunk, parseDataRun mem stream at'.1 attrLen at'.2 = some (offset,chunk) ∧ ¬ chunk.mapEnd ∧
        ¬ chunk.mapUnallocated ∧ Gives (fun n => visit n chunk) (.inl r) := by
    change Gives (fun n => runsBody mem stream attrLen stop (visit n) at') (.inl r) ↔ _
    unfold runsBody
    cases parseDataRun mem stream at'.1 attrLen at'.2 with
    | none =>
      constructor
      · rintro ⟨_,here⟩
        cases here
        exact Or.inl ⟨fun _ _ none' => (by cases none'),rfl⟩
      · rintro (⟨_,rfl⟩ | ⟨_,_,none',_⟩)
        · exact ⟨0,rfl⟩
        · cases none'
    | some run =>
      obtain ⟨offset,chunk⟩ := run
      simp only [Option.some_inj,Prod.mk.injEq]
      by_cases over' : chunk.mapEnd
      · simp only [if_pos over']
        rw [givesConst,Option.some_inj,Sum.inl.injEq,eq_comm]
        refine ⟨fun same => Or.inl ⟨?_,same⟩,fun here => here.elim And.right ?_⟩
        · rintro _ _ ⟨rfl,rfl⟩
          exact over'
        · rintro ⟨_,_,⟨rfl,rfl⟩,more,_⟩
          exact absurd over' more
      simp only [if_neg over']
      by_cases hole : chunk.mapUnallocated
      · simp only [if_pos hole]
        refine iff_of_false (fun here => ?_) ?_
        · cases givesConst.1 here
        · rintro (⟨all,_⟩ | ⟨_,_,⟨rfl,rfl⟩,_,more,_⟩)
          · exact over' (all offset chunk ⟨rfl,rfl⟩)
          · exact more hole
      simp only [if_neg hole]
      constructor
      · rintro ⟨n,here⟩
        obtain ⟨x,given,same⟩ := Option.map_eq_some_iff.1 here
        cases x with
        | inr next => cases same
        | inl r' =>
          cases same
          exact Or.inr ⟨offset,chunk,⟨rfl,rfl⟩,over',hole,n,given⟩
      · rintro (⟨all,_⟩ | ⟨_,_,⟨rfl,rfl⟩,_,_,n,given⟩)
        · exact absurd (all offset chunk ⟨rfl,rfl⟩) over'
        · exact ⟨n,by simp only [given]; rfl⟩
  constructor
  · rintro ⟨at',reached,here⟩
    rcases (each at').1 here with ⟨over',rfl⟩ | ⟨offset,chunk,parse,more,some',given⟩
    · exact Or.inl ⟨⟨at',reached,over'⟩,rfl⟩
    · exact Or.inr ⟨chunk,⟨at',offset,reached,parse,more,some'⟩,given⟩
  · rintro (⟨⟨at',reached,over'⟩,rfl⟩ | ⟨chunk,⟨at',offset,reached,parse,more,some'⟩,given⟩)
    · exact ⟨at',reached,(each at').2 (Or.inl ⟨over',rfl⟩)⟩
    · exact ⟨at',reached,(each at').2 (Or.inr ⟨offset,chunk,parse,more,some',given⟩)⟩

end
end

section
variable (vol : Volume) (type len : Nat) (chunk : MappingChunk)

def listBlock (vcn : Nat) : Nat → UInt8 := readBuf vol (toInt64 (chunk.lcn + vcn))

def entriesVisit (turns vcn : Nat) : Option (Option (Option (Nat × (Nat → UInt8)))) :=
  (walkEntries (listBlock vol chunk vcn) type (add32 vol.stack len) turns vol.stack).map
    (Option.map fun entry => some (entry,listBlock vol chunk vcn))

def BlockPassed (vcn : Nat) : Prop := EntriesOver (listBlock vol chunk vcn) type (add32 vol.stack len) vol.stack

def BlockEntriesEnd : Prop := BlocksEnd vol chunk (BlockPassed vol type len chunk) fun vcn =>
  EntriesEnd (listBlock vol chunk vcn) type (add32 vol.stack len) vol.stack

def listVisit (turns : Nat) (chunk : MappingChunk) : Option (Option (Nat × (Nat → UInt8)) ⊕ MappingChunk) :=
  (listBlocks vol type len chunk turns turns 0).map fun found => found.elim (.inr chunk) fun entry => .inl (some entry)

def ListRunPassed (chunk : MappingChunk) : Prop :=
  ∃ vcn, BlockComes vol chunk (BlockPassed vol type len chunk) vcn ∧ chunk.len ≤ vcn

/- The walk through an $ATTRIBUTE_LIST. -/
def ListEnds (mrec : Record) (attr : Nat) : Prop :=
  if nonResident mrec.mem attr then
    RunsEnd mrec.mem (mappingPairs mrec.mem attr) (attrNext mrec.mem attr) id (ListRunPassed vol type (le32 mrec.mem (attr + 48)))
      (BlockEntriesEnd vol type (le32 mrec.mem (attr + 48)))
  else EntriesEnd mrec.mem type (add32 attr (le32 mrec.mem (attr + 16))) (valueOffset mrec.mem attr)

def ListNames (mrec : Record) (attr entry : Nat) (mem : Nat → UInt8) : Prop :=
  if nonResident mrec.mem attr then
    ∃ chunk vcn, RunComes mrec.mem (mappingPairs mrec.mem attr) (attrNext mrec.mem attr) id
        (ListRunPassed vol type (le32 mrec.mem (attr + 48))) chunk ∧
      BlockComes vol chunk (BlockPassed vol type (le32 mrec.mem (attr + 48)) chunk) vcn ∧ vcn < chunk.len ∧
      mem = listBlock vol chunk vcn ∧ EntryFound mem type (add32 vol.stack (le32 mrec.mem (attr + 48))) vol.stack entry
  else mem = mrec.mem ∧ EntryFound mem type (add32 attr (le32 mrec.mem (attr + 16))) (valueOffset mrec.mem attr) entry

end

section
variable {vol : Volume} {mrec : Record} {attr type len entry : Nat} {chunk : MappingChunk} {mem : Nat → UInt8}

theorem listBlocksLoop (vol : Volume) (type len : Nat) (chunk : MappingChunk) (turns more vcn : Nat) :
    listBlocks vol type len chunk turns more vcn =
      loop (blocksBody vol chunk none (entriesVisit vol type len chunk turns)) more vcn := by
  induction more generalizing vcn with
  | zero => rfl
  | succ more ih =>
    unfold listBlocks loop blocksBody entriesVisit
    by_cases done : chunk.len ≤ vcn
    · rw [if_pos done,if_pos done]
    · rw [if_neg done,if_neg done]
      simp only
      rw [show readBuf vol (toInt64 (chunk.lcn + vcn)) = listBlock vol chunk vcn from rfl]
      cases walkEntries (listBlock vol chunk vcn) type (add32 vol.stack len) turns vol.stack with
      | none => rfl
      | some found =>
        cases found with
        | none => exact ih _
        | some entry => rfl

theorem entriesVisitLasting (vol : Volume) (type len : Nat) (chunk : MappingChunk) (vcn : Nat) :
    Lasting fun n => entriesVisit vol type len chunk n vcn := lastingMap (entriesLasting _ _ _ _) _

theorem listBlocksLasting (vol : Volume) (type len : Nat) (chunk : MappingChunk) :
    Lasting fun n => listBlocks vol type len chunk n n 0 := by
  simp only [listBlocksLoop]
  exact loopLasting (blocksBodyLasting (entriesVisitLasting vol type len chunk)) 0

theorem blockPasses (vcn : Nat) : Gives (fun n => entriesVisit vol type len chunk n vcn) none ↔ BlockPassed vol type len chunk vcn := by
  refine givesMap.trans (Iff.trans ?_ entriesOver)
  constructor
  · rintro ⟨found,given,same⟩
    rwa [Option.map_eq_none_iff.1 same] at given
  · exact fun given => ⟨none,given,rfl⟩

theorem listBlocksAnswers : Answers (fun n => listBlocks vol type len chunk n n 0) ↔ BlockEntriesEnd vol type len chunk := by
  simp only [listBlocksLoop]
  exact blocksAnswers (entriesVisitLasting vol type len chunk) blockPasses fun vcn => (answersMap _ _).trans entriesAnswers

theorem listBlocksGives {found : Option (Nat × (Nat → UInt8))} : Gives (fun n => listBlocks vol type len chunk n n 0) found ↔
    ∃ vcn, BlockComes vol chunk (BlockPassed vol type len chunk) vcn ∧ (chunk.len ≤ vcn ∧ found = none ∨ vcn < chunk.len ∧
      ∃ entry, EntryFound (listBlock vol chunk vcn) type (add32 vol.stack len) vol.stack entry ∧
        found = some (entry,listBlock vol chunk vcn)) := by
  simp only [listBlocksLoop]
  refine (blocksGives (entriesVisitLasting vol type len chunk) blockPasses).trans (exists_congr fun vcn => and_congr_right fun _ => ?_)
  refine or_congr_right (and_congr_right fun _ => givesMap.trans ?_)
  constructor
  · rintro ⟨entry',given,same⟩
    obtain ⟨entry,rfl,rfl⟩ := Option.map_eq_some_iff.1 same
    exact ⟨entry,entriesGives.1 given,rfl⟩
  · rintro ⟨entry,found',rfl⟩
    exact ⟨some entry,entriesGives.2 found',rfl⟩

theorem listRunsLoop (vol : Volume) (mem : Nat → UInt8) (type len stream attrLen turns more : Nat) (at' : Nat × MappingChunk) :
    listRuns vol mem type len stream attrLen turns more at'.1 at'.2 =
      loop (runsBody mem stream attrLen none (listVisit vol type len turns)) more at' := by
  induction more generalizing at' with
  | zero => rfl
  | succ more ih =>
    unfold listRuns loop runsBody listVisit
    cases parseDataRun mem stream at'.1 attrLen at'.2 with
    | none => rfl
    | some run =>
      obtain ⟨offset,chunk⟩ := run
      simp only
      by_cases over' : chunk.mapEnd
      · rw [if_pos over',if_pos over']
      rw [if_neg over',if_neg over']
      by_cases hole : chunk.mapUnallocated
      · rw [if_pos hole,if_pos hole]
        exact ih (offset,chunk)
      rw [if_neg hole,if_neg hole]
      cases listBlocks vol type len chunk turns turns 0 with
      | none => rfl
      | some found =>
        cases found with
        | none => exact ih (offset,chunk)
        | some entry => rfl

theorem listRunPasses (vol : Volume) (type len : Nat) (chunk next : MappingChunk) :
    Gives (fun n => listVisit vol type len n chunk) (.inr next) ↔ ListRunPassed vol type len chunk ∧ next = id chunk := by
  refine givesMap.trans ?_
  constructor
  · rintro ⟨found,given,same⟩
    cases found with
    | some entry => cases same
    | none =>
      obtain ⟨vcn,comes,⟨behind,_⟩ | ⟨_,_,_,none'⟩⟩ := listBlocksGives.1 given
      · exact ⟨⟨vcn,comes,behind⟩,(Sum.inr.inj same).symm⟩
      · cases none'
  · rintro ⟨⟨vcn,comes,behind⟩,rfl⟩
    exact ⟨none,listBlocksGives.2 ⟨vcn,comes,Or.inl ⟨behind,rfl⟩⟩,rfl⟩

theorem listVisitLasting (vol : Volume) (type len : Nat) (chunk : MappingChunk) :
    Lasting fun n => listVisit vol type len n chunk := lastingMap (listBlocksLasting vol type len chunk) _

theorem listLasting (vol : Volume) (mrec : Record) (attr type : Nat) : Lasting fun n => listEntry vol mrec attr type n := by
  unfold listEntry
  by_cases away : nonResident mrec.mem attr
  · simp only [if_pos away,listRunsLoop vol _ _ _ _ _ _ _ (0,mappingChunkInit)]
    exact loopLasting (runsBodyLasting (listVisitLasting vol _ _)) _
  · simp only [if_neg away]
    exact lastingMap (entriesLasting _ _ _ _) _

theorem listAnswers : Answers (fun n => listEntry vol mrec attr type n) ↔ ListEnds vol type mrec attr := by
  unfold listEntry ListEnds
  by_cases away : nonResident mrec.mem attr
  · simp only [if_pos away,listRunsLoop vol _ _ _ _ _ _ _ (0,mappingChunkInit)]
    exact runsAnswers (listRunPasses vol _ _) (listVisitLasting vol _ _) (fun _ fits => fits) fun c =>
      (answersMap _ _).trans listBlocksAnswers
  · simp only [if_neg away,answersMap,entriesAnswers]

theorem listGives : Gives (fun n => listEntry vol mrec attr type n) (some (entry,mem)) ↔ ListNames vol type mrec attr entry mem := by
  unfold listEntry ListNames
  by_cases away : nonResident mrec.mem attr
  · simp only [if_pos away,listRunsLoop vol _ _ _ _ _ _ _ (0,mappingChunkInit)]
    refine (runsGives (listRunPasses vol _ _) (listVisitLasting vol _ _)).trans ?_
    constructor
    · rintro (⟨_,none'⟩ | ⟨chunk,comes,given⟩)
      · cases none'
      obtain ⟨found,given,same⟩ := givesMap.1 given
      cases found with
      | none => cases same
      | some at' =>
        cases same
        obtain ⟨vcn,block,⟨_,none'⟩ | ⟨inside,e,found',same⟩⟩ := listBlocksGives.1 given
        · cases none'
        · cases same
          exact ⟨chunk,vcn,comes,block,inside,rfl,found'⟩
    · rintro ⟨chunk,vcn,comes,block,inside,rfl,found⟩
      exact Or.inr ⟨chunk,comes,givesMap.2 ⟨some (entry,_),listBlocksGives.2 ⟨vcn,block,Or.inr ⟨inside,entry,found,rfl⟩⟩,rfl⟩⟩
  · simp only [if_neg away]
    refine givesMap.trans ?_
    constructor
    · rintro ⟨found,given,same⟩
      obtain ⟨e,rfl,same⟩ := Option.map_eq_some_iff.1 same
      cases same
      exact ⟨rfl,entriesGives.1 given⟩
    · rintro ⟨rfl,found⟩
      exact ⟨some entry,entriesGives.2 found,rfl⟩

end

end Syslinux.Ntfs
