import Syslinux.NtfsRecords

/-! The walks of a search for a name in the index of a directory: through the entries of the root
and of the blocks, the runs of $INDEX_ALLOCATION, and those of the file that has been found. -/
namespace Syslinux.Ntfs
open Fat (le16 le32 le64)
open Searchdir (Bytes)
open Loops Strides

section
variable (mem : Nat → UInt8) (stream attrLen : Nat)

/- The loop of index_inode_setup takes every run up into the runlist. -/
def MapEnds : Prop := RunsEnd mem stream attrLen vcnAfter (fun _ => True) fun _ => True

def mapVisit (chunk : MappingChunk) : Option (Unit ⊕ MappingChunk) := some (.inr (vcnAfter chunk))

variable {mem : Nat → UInt8} {stream attrLen : Nat}

theorem mapCourse (turns : Nat) (at' : Nat × MappingChunk) (mapped : Mapped) :
    (mapRuns mem stream attrLen turns at'.1 at'.2 mapped).isSome ↔
      (loop (runsBody mem stream attrLen () mapVisit) turns at').isSome := by
  induction turns generalizing at' mapped with
  | zero => rfl
  | succ turns ih =>
    unfold mapRuns loop runsBody mapVisit
    cases parseDataRun mem stream at'.1 attrLen at'.2 with
    | none => rfl
    | some run =>
      obtain ⟨offset,chunk⟩ := run
      simp only
      by_cases over' : chunk.mapEnd
      · rw [if_pos over',if_pos over']
        rfl
      rw [if_neg over',if_neg over']
      by_cases hole : chunk.mapUnallocated
      · rw [if_pos hole,if_pos hole]
        exact ih (offset,chunk) _
      · rw [if_neg hole,if_neg hole]
        exact ih (offset,vcnAfter chunk) _

theorem mapKeeps (turns : Nat) (at' : Nat × MappingChunk) (mapped : Mapped) :
    Keeps (mapRuns mem stream attrLen turns at'.1 at'.2 mapped) (mapRuns mem stream attrLen (turns + 1) at'.1 at'.2 mapped) := by
  induction turns generalizing at' mapped with
  | zero =>
    intro r here
    cases here
  | succ turns ih =>
    rw [mapRuns,mapRuns]
    cases parseDataRun mem stream at'.1 attrLen at'.2 with
    | none => exact keepsSelf _
    | some run =>
      obtain ⟨offset,chunk⟩ := run
      simp only
      by_cases over' : chunk.mapEnd
      · rw [if_pos over',if_pos over']
        exact keepsSelf _
      rw [if_neg over',if_neg over']
      by_cases hole : chunk.mapUnallocated
      · rw [if_pos hole,if_pos hole]
        exact ih (offset,chunk) _
      · rw [if_neg hole,if_neg hole]
        exact ih (offset,vcnAfter chunk) _

theorem mapLasting (mem : Nat → UInt8) (stream attrLen : Nat) : Lasting fun n => indexRuns mem stream attrLen n :=
  fun n => mapKeeps n (0,mappingChunkInit) ⟨[],[]⟩

theorem mapAnswers : Answers (fun n => indexRuns mem stream attrLen n) ↔ MapEnds mem stream attrLen := by
  have passes (c x : MappingChunk) : Gives (fun _ => mapVisit c) (Sum.inr x) ↔ True ∧ x = vcnAfter c := by
    rw [givesConst,mapVisit,Option.some_inj,Sum.inr.injEq,true_and,eq_comm]
  have visits : Answers (fun n => loop (runsBody mem stream attrLen () mapVisit) n (0,mappingChunkInit)) ↔ MapEnds mem stream attrLen :=
    runsAnswers passes (fun c => lastingConst (mapVisit c)) (fun c fits => ⟨Nat.mod_lt _ (by norm_num),fits.low,fits.high,fits.len⟩)
      fun c => iff_of_true (answersConst.2 rfl) trivial
  have course (n : Nat) : (indexRuns mem stream attrLen n).isSome ↔
      (loop (runsBody mem stream attrLen () mapVisit) n (0,mappingChunkInit)).isSome := mapCourse n (0,mappingChunkInit) ⟨[],[]⟩
  simp only [Option.isSome_iff_exists] at course
  exact (exists_congr course).trans visits

end

section
variable (mem : Nat → UInt8) (dname : Bytes) (low bound : Nat)

/- An entry that lies within the index, and is neither the last one nor the one looked for. -/
def IndexInside (ie : Nat) : Prop := ¬ (ie < low ∨ bound < add32 ie idxEntryHeaderSize ∨ bound < add32 ie (idxEntryLen mem ie))

instance : DecidablePred (IndexInside mem low bound) := fun _ => by unfold IndexInside; infer_instance

def IndexPassed (ie : Nat) : Prop := IndexInside mem low bound ie ∧ ¬ idxEntryEnd mem ie ∧ ¬ ntfsFilenameCmp mem dname ie

instance : DecidablePred (IndexPassed mem dname low bound) := fun _ => by unfold IndexPassed; infer_instance

def IndexEnds (ie : Nat) : Prop := Advances (idxEntryLen mem) (IndexPassed mem dname low bound) ie

/- Where the walk stops: at an entry that does not lie within the index, at the last one, or at the one looked for. -/
def IndexStops (start ie : Nat) : Prop :=
  Reached (further (idxEntryLen mem)) (IndexPassed mem dname low bound) start ie ∧ ¬ IndexPassed mem dname low bound ie

def indexStop (ie : Nat) : IndexStop :=
  if IndexInside mem low bound ie then if idxEntryEnd mem ie then .last ie else .found ie
  else .corrupt

variable {mem : Nat → UInt8} {dname : Bytes} {low bound start ie : Nat}

theorem walkIndexLoop (mem : Nat → UInt8) (dname : Bytes) (low bound turns ie : Nat) : walkIndex mem dname low bound turns ie =
    loop (fun c => some (stride (IndexPassed mem dname low bound) (further (idxEntryLen mem)) (indexStop mem low bound) c)) turns ie := by
  induction turns generalizing ie with
  | zero => rfl
  | succ turns ih =>
    rw [walkIndex,loop,stride]
    by_cases outside : ie < low ∨ bound < add32 ie idxEntryHeaderSize ∨ bound < add32 ie (idxEntryLen mem ie)
    · have corrupt : ¬ IndexInside mem low bound ie := fun inside => inside outside
      rw [if_pos outside,if_neg fun pass => corrupt pass.1]
      simp only [indexStop,if_neg corrupt]
    have inside : IndexInside mem low bound ie := outside
    by_cases over' : idxEntryEnd mem ie
    · rw [if_neg outside,if_pos over',if_neg fun pass => pass.2.1 over']
      simp only [indexStop,if_pos inside,if_pos over']
    by_cases same : ntfsFilenameCmp mem dname ie
    · rw [if_neg outside,if_neg over',if_pos same,if_neg fun pass => pass.2.2 same]
      simp only [indexStop,if_pos inside,if_neg over']
    · rw [if_neg outside,if_neg over',if_neg same,if_pos ⟨inside,over',same⟩]
      exact ih _

theorem indexLasting (mem : Nat → UInt8) (dname : Bytes) (low bound ie : Nat) :
    Lasting fun n => walkIndex mem dname low bound n ie := by
  simp only [walkIndexLoop]
  exact plainLasting _ _

theorem indexAnswers : Answers (fun n => walkIndex mem dname low bound n ie) ↔ IndexEnds mem dname low bound ie := by
  simp only [walkIndexLoop]
  exact strideAnswers

theorem indexGives {stop : IndexStop} : Gives (fun n => walkIndex mem dname low bound n start) stop ↔
    ∃ ie, IndexStops mem dname low bound start ie ∧ indexStop mem low bound ie = stop := by
  simp only [walkIndexLoop]
  exact strideGives.trans (exists_congr fun ie => and_assoc.symm)

end

section
variable (vol : Volume) (dname : Bytes)

def NodeEnds (mem : Nat → UInt8) (low index : Nat) : Prop :=
  IndexEnds mem dname low (indexBound mem index) (indexStart mem index)

def nodeVisit (chunk : MappingChunk) (turns vcn : Nat) : Option (Option Search) :=
  let mem := indexBlock vol chunk vcn
  if le32 mem vol.stack ≠ magicIndx then some (some .failed)
  else (walkIndex mem dname vol.stack (indexBound mem (vol.stack + 24)) turns (indexStart mem (vol.stack + 24))).map fun
    | .corrupt => some .failed
    | .found ie => some (.found (indexedFile mem ie % 2^32))
    | .last _ => none

def NodePassed (chunk : MappingChunk) (vcn : Nat) : Prop := le32 (indexBlock vol chunk vcn) vol.stack = magicIndx ∧
  ∃ ie, IndexStops (indexBlock vol chunk vcn) dname vol.stack (indexBound (indexBlock vol chunk vcn) (vol.stack + 24))
      (indexStart (indexBlock vol chunk vcn) (vol.stack + 24)) ie ∧
    IndexInside (indexBlock vol chunk vcn) vol.stack (indexBound (indexBlock vol chunk vcn) (vol.stack + 24)) ie ∧
    idxEntryEnd (indexBlock vol chunk vcn) ie

def NodeNames (chunk : MappingChunk) (vcn mftNo : Nat) : Prop := le32 (indexBlock vol chunk vcn) vol.stack = magicIndx ∧
  ∃ ie, IndexStops (indexBlock vol chunk vcn) dname vol.stack (indexBound (indexBlock vol chunk vcn) (vol.stack + 24))
      (indexStart (indexBlock vol chunk vcn) (vol.stack + 24)) ie ∧
    IndexInside (indexBlock vol chunk vcn) vol.stack (indexBound (indexBlock vol chunk vcn) (vol.stack + 24)) ie ∧
    ¬ idxEntryEnd (indexBlock vol chunk vcn) ie ∧ mftNo = indexedFile (indexBlock vol chunk vcn) ie % 2^32

def NodesEnd (chunk : MappingChunk) : Prop := BlocksEnd vol chunk (NodePassed vol dname chunk) fun vcn =>
  le32 (indexBlock vol chunk vcn) vol.stack = magicIndx → NodeEnds dname (indexBlock vol chunk vcn) vol.stack (vol.stack + 24)

def NodesPassed (chunk : MappingChunk) : Prop := ∃ vcn, BlockComes vol chunk (NodePassed vol dname chunk) vcn ∧ chunk.len ≤ vcn

def allocationVisit (turns : Nat) (chunk : MappingChunk) : Option (Search ⊕ MappingChunk) :=
  (indexBlocks vol dname chunk turns turns 0).map fun search => if search = .more then .inr chunk else .inl search

def AllocationEnds (mem : Nat → UInt8) (attr : Nat) : Prop :=
  RunsEnd mem (mappingPairs mem attr) (attrNext mem attr) id (NodesPassed vol dname) (NodesEnd vol dname)

def AllocationNames (mem : Nat → UInt8) (attr mftNo : Nat) : Prop := ∃ chunk vcn,
  RunComes mem (mappingPairs mem attr) (attrNext mem attr) id (NodesPassed vol dname) chunk ∧
  BlockComes vol chunk (NodePassed vol dname chunk) vcn ∧ vcn < chunk.len ∧ NodeNames vol dname chunk vcn mftNo

variable {vol : Volume} {dname : Bytes} {chunk : MappingChunk}

theorem indexBlocksLoop (vol : Volume) (dname : Bytes) (chunk : MappingChunk) (turns more vcn : Nat) :
    indexBlocks vol dname chunk turns more vcn = loop (blocksBody vol chunk .more (nodeVisit vol dname chunk turns)) more vcn := by
  induction more generalizing vcn with
  | zero => rfl
  | succ more ih =>
    unfold indexBlocks loop blocksBody nodeVisit
    by_cases done : chunk.len ≤ vcn
    · rw [if_pos done,if_pos done]
    rw [if_neg done,if_neg done]
    simp only
    by_cases foreign : le32 (indexBlock vol chunk vcn) vol.stack ≠ magicIndx
    · rw [if_pos foreign,if_pos foreign]
      rfl
    rw [if_neg foreign,if_neg foreign]
    cases walkIndex (indexBlock vol chunk vcn) dname vol.stack (indexBound (indexBlock vol chunk vcn) (vol.stack + 24)) turns
        (indexStart (indexBlock vol chunk vcn) (vol.stack + 24)) with
    | none => rfl
    | some stop =>
      cases stop with
      | corrupt => rfl
      | found ie => rfl
      | last ie => exact ih _

theorem nodeLasting (vol : Volume) (dname : Bytes) (chunk : MappingChunk) (vcn : Nat) :
    Lasting fun n => nodeVisit vol dname chunk n vcn := by
  unfold nodeVisit
  simp only
  split_ifs
  · exact lastingConst _
  · exact lastingMap (indexLasting _ _ _ _ _) _

theorem nodeAnswers (vcn : Nat) : (Answers fun n => nodeVisit vol dname chunk n vcn) ↔
    (le32 (indexBlock vol chunk vcn) vol.stack = magicIndx → NodeEnds dname (indexBlock vol chunk vcn) vol.stack (vol.stack + 24)) := by
  unfold nodeVisit
  by_cases foreign : le32 (indexBlock vol chunk vcn) vol.stack = magicIndx
  · simp only [foreign,ne_eq,not_true,if_false,answersMap,indexAnswers,true_imp_iff]
    rfl
  · simp only [foreign,ne_eq,not_false_eq_true,if_true]
    exact iff_of_true (answersConst.2 rfl) fun same => same.elim

theorem nodeGives (vcn : Nat) (found : Option Search) : Gives (fun n => nodeVisit vol dname chunk n vcn) found ↔
    le32 (indexBlock vol chunk vcn) vol.stack ≠ magicIndx ∧ found = some .failed ∨
    le32 (indexBlock vol chunk vcn) vol.stack = magicIndx ∧ ∃ ie,
      IndexStops (indexBlock vol chunk vcn) dname vol.stack (indexBound (indexBlock vol chunk vcn) (vol.stack + 24))
        (indexStart (indexBlock vol chunk vcn) (vol.stack + 24)) ie ∧
      found = if IndexInside (indexBlock vol chunk vcn) vol.stack (indexBound (indexBlock vol chunk vcn) (vol.stack + 24)) ie then
        if idxEntryEnd (indexBlock vol chunk vcn) ie then none else some (.found (indexedFile (indexBlock vol chunk vcn) ie % 2^32))
        else some .failed := by
  unfold nodeVisit
  by_cases foreign : le32 (indexBlock vol chunk vcn) vol.stack = magicIndx
  · simp only [foreign,ne_eq,not_true,if_false,false_and,false_or,true_and]
    refine givesMap.trans ?_
    simp only [indexGives]
    constructor
    · rintro ⟨_,⟨ie,stops,rfl⟩,rfl⟩
      refine ⟨ie,stops,?_⟩
      unfold indexStop
      split_ifs <;> rfl
    · rintro ⟨ie,stops,rfl⟩
      refine ⟨_,⟨ie,stops,rfl⟩,?_⟩
      unfold indexStop
      split_ifs <;> rfl
  · simp only [foreign,ne_eq,not_false_eq_true,if_true,true_and,false_and,or_false]
    rw [givesConst,Option.some_inj,eq_comm]

theorem nodePasses (vcn : Nat) : Gives (fun n => nodeVisit vol dname chunk n vcn) none ↔ NodePassed vol dname chunk vcn := by
  rw [nodeGives,or_iff_right fun here => by cases here.2]
  refine and_congr_right fun _ => exists_congr fun ie => and_congr_right fun _ => ?_
  split_ifs with inside over'
  · exact iff_of_true rfl ⟨inside,over'⟩
  · exact iff_of_false (fun here => by cases here) fun here => over' here.2
  · exact iff_of_false (fun here => by cases here) fun here => inside here.1

theorem nodeNames (vcn mftNo : Nat) : Gives (fun n => nodeVisit vol dname chunk n vcn) (some (.found mftNo)) ↔
    NodeNames vol dname chunk vcn mftNo := by
  rw [nodeGives,or_iff_right fun here => by cases here.2]
  refine and_congr_right fun _ => exists_congr fun ie => and_congr_right fun _ => ?_
  split_ifs with inside over'
  · exact iff_of_false (fun here => by cases here) fun here => here.2.1 over'
  · rw [Option.some_inj,Search.found.injEq,and_iff_right inside,and_iff_right over']
  · exact iff_of_false (fun here => by cases here) fun here => inside here.1

theorem nodeMore (vcn : Nat) : ¬ Gives (fun n => nodeVisit vol dname chunk n vcn) (some .more) := by
  rw [nodeGives]
  rintro (⟨_,here⟩ | ⟨_,ie,_,here⟩)
  · cases here
  · split_ifs at here
    · cases here
    · cases here

theorem nodesGives {search : Search} : Gives (fun n => indexBlocks vol dname chunk n n 0) search ↔
    ∃ vcn, BlockComes vol chunk (NodePassed vol dname chunk) vcn ∧ (chunk.len ≤ vcn ∧ search = .more ∨
      vcn < chunk.len ∧ Gives (fun n => nodeVisit vol dname chunk n vcn) (some search)) := by
  simp only [indexBlocksLoop]
  exact blocksGives (nodeLasting vol dname chunk) nodePasses

theorem allocationPasses (vol : Volume) (dname : Bytes) (chunk next : MappingChunk) :
    Gives (fun n => allocationVisit vol dname n chunk) (.inr next) ↔ NodesPassed vol dname chunk ∧ next = id chunk := by
  refine givesMap.trans ?_
  constructor
  · rintro ⟨search,given,same⟩
    split_ifs at same with more
    cases same
    subst more
    obtain ⟨vcn,comes,⟨behind,_⟩ | ⟨_,visited⟩⟩ := nodesGives.1 given
    · exact ⟨⟨vcn,comes,behind⟩,rfl⟩
    · exact absurd visited (nodeMore vcn)
  · rintro ⟨⟨vcn,comes,behind⟩,rfl⟩
    exact ⟨.more,nodesGives.2 ⟨vcn,comes,Or.inl ⟨behind,rfl⟩⟩,if_pos rfl⟩

theorem allocationLasting (vol : Volume) (dname : Bytes) (chunk : MappingChunk) : Lasting fun n => allocationVisit vol dname n chunk := by
  refine lastingMap ?_ _
  simp only [indexBlocksLoop]
  exact loopLasting (blocksBodyLasting (nodeLasting vol dname chunk)) 0

theorem allocationRunsLoop (vol : Volume) (dname : Bytes) (mem : Nat → UInt8) (stream attrLen turns more : Nat) (at' : Nat × MappingChunk) :
    allocationRuns vol dname mem stream attrLen turns more at'.1 at'.2 =
      loop (runsBody mem stream attrLen .failed (allocationVisit vol dname turns)) more at' := by
  induction more generalizing at' with
  | zero => rfl
  | succ more ih =>
    unfold allocationRuns loop runsBody allocationVisit
    cases parse : parseDataRun mem stream at'.1 attrLen at'.2 with
    | none => rfl
    | some run =>
      obtain ⟨offset,chunk⟩ := run
      simp only
      by_cases over' : chunk.mapEnd
      · rw [if_neg (endNoHole parse over'),if_pos over',if_pos over']
      rw [if_neg over',if_neg over']
      by_cases hole : chunk.mapUnallocated
      · rw [if_pos hole,if_pos hole]
        exact ih (offset,chunk)
      rw [if_neg hole,if_neg hole]
      cases indexBlocks vol dname chunk turns turns 0 with
      | none => rfl
      | some search =>
        cases search with
        | more => exact ih (offset,chunk)
        | failed => rfl
        | found mftNo => rfl

theorem allocationRunsLasting (vol : Volume) (dname : Bytes) (mem : Nat → UInt8) (attr : Nat) : Lasting fun n =>
    allocationRuns vol dname mem (mappingPairs mem attr) (attrNext mem attr) n n 0 mappingChunkInit := by
  simp only [allocationRunsLoop _ _ _ _ _ _ _ (0,mappingChunkInit)]
  exact loopLasting (runsBodyLasting (allocationLasting vol dname)) _

theorem allocationAnswers {mem : Nat → UInt8} {attr : Nat} :
    Answers (fun n => allocationRuns vol dname mem (mappingPairs mem attr) (attrNext mem attr) n n 0 mappingChunkInit) ↔
      AllocationEnds vol dname mem attr := by
  simp only [allocationRunsLoop _ _ _ _ _ _ _ (0,mappingChunkInit)]
  refine runsAnswers (allocationPasses vol dname) (allocationLasting vol dname) (fun _ fits => fits) fun chunk => ?_
  unfold allocationVisit
  simp only [answersMap,indexBlocksLoop]
  exact blocksAnswers (nodeLasting vol dname chunk) nodePasses nodeAnswers

theorem allocationGives {mem : Nat → UInt8} {attr mftNo : Nat} :
    Gives (fun n => allocationRuns vol dname mem (mappingPairs mem attr) (attrNext mem attr) n n 0 mappingChunkInit) (.found mftNo) ↔
      AllocationNames vol dname mem attr mftNo := by
  simp only [allocationRunsLoop _ _ _ _ _ _ _ (0,mappingChunkInit)]
  rw [runsGives (allocationPasses vol dname) (allocationLasting vol dname),or_iff_right fun here => by cases here.2]
  constructor
  · rintro ⟨chunk,comes,given⟩
    obtain ⟨search,given,same⟩ := givesMap.1 given
    split_ifs at same
    cases same
    obtain ⟨vcn,block,⟨_,none'⟩ | ⟨inside,visited⟩⟩ := nodesGives.1 given
    · cases none'
    · exact ⟨chunk,vcn,comes,block,inside,(nodeNames vcn mftNo).1 visited⟩
  · rintro ⟨chunk,vcn,comes,block,inside,names⟩
    refine ⟨chunk,comes,givesMap.2 ⟨.found mftNo,nodesGives.2 ⟨vcn,block,Or.inr ⟨inside,(nodeNames vcn mftNo).2 names⟩⟩,?_⟩⟩
    exact if_neg (by simp)

end

end Syslinux.Ntfs
