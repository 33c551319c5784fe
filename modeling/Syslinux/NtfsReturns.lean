import Syslinux.NtfsEnds

/-! When __ntfs_attr_lookup, ntfs_attr_list_lookup and ntfs_index_lookup return. The lengths that
they go by are those of the image, and may be 0; a list of attributes may name a record again. -/
namespace Syslinux.Ntfs
open Fat (le16 le32 le64)
open Searchdir (Bytes)
open Loops Strides

section
variable (vol : Volume)

/- The lookup of an attribute: $END is not looked for. -/
def AttrLookupEnds (type : Nat) (mrec : Record) : Prop := type = atEnd ∨ RecordsEnd vol type (RecordFound vol) (RecordEnds vol) mrec

def InodeEnds (mftNo : Nat) : Prop :=
  RecordEnds vol mftNo ∧ ∀ mrec, RecordFound vol mftNo mrec →
    if isDirectory mrec then AttrLookupEnds vol atIndexRoot mrec
    else AttrLookupEnds vol atData mrec ∧ ∀ found attr, AttrFound vol atData (RecordFound vol) mrec found attr →
      nonResident found.mem attr → MapEnds found.mem (mappingPairs found.mem attr) (attrNext found.mem attr)

def ChildrenEnd (dname : Bytes) (mrec : Record) : Prop :=
  AttrLookupEnds vol atIndexAllocation mrec ∧ ∀ found attr, AttrFound vol atIndexAllocation (RecordFound vol) mrec found attr →
    nonResident found.mem attr → AllocationEnds vol dname found.mem attr ∧
      ∀ mftNo, AllocationNames vol dname found.mem attr mftNo → InodeEnds vol mftNo

def rootIndex (root : Record) (attr : Nat) : Nat := valueOffset root.mem attr + 16

/- What follows on the entry of the root at which the walk stops, if that lies within the index. -/
def RootEnds (dname : Bytes) (mrec root : Record) (attr ie : Nat) : Prop :=
  IndexInside root.mem mrec.addr (indexBound root.mem (rootIndex root attr)) ie →
    if idxEntryEnd root.mem ie then idxEntryNode root.mem ie → ChildrenEnd vol dname mrec
    else InodeEnds vol (indexedFile root.mem ie % 2^32)

def IndexLookupEnds (dname : Bytes) (mftNo : Nat) : Prop :=
  RecordEnds vol mftNo ∧ ∀ mrec, RecordFound vol mftNo mrec → AttrLookupEnds vol atIndexRoot mrec ∧
    ∀ root attr, AttrFound vol atIndexRoot (RecordFound vol) mrec root attr → NodeEnds dname root.mem mrec.addr (rootIndex root attr) ∧
      ∀ ie, IndexStops root.mem dname mrec.addr (indexBound root.mem (rootIndex root attr)) (indexStart root.mem (rootIndex root attr)) ie →
        RootEnds vol dname mrec root attr ie

def rootWalk (dname : Bytes) (mrec root : Record) (attr turns : Nat) : Option IndexStop :=
  walkIndex root.mem dname mrec.addr (indexBound root.mem (rootIndex root attr)) turns (indexStart root.mem (rootIndex root attr))

/- A call returns if it answers with enough turns of its loops and lookups within lookups. -/
def Returns {γ : Type} (call : (Nat → Option (Option Record)) → Nat → Option γ) : Prop :=
  ∃ turns depth answer, call (ntfsMftRecordLookupAny vol turns depth) turns = some answer

end

section
variable (vol : Volume) (dname : Bytes)

def dirInode (mftNo : Nat) (mrec : Record) : NtfsInode :=
  ⟨.dir,0,mftNo,le16 mrec.mem (mrec.addr + 16),
    mftNo*vol.mftRecordSize % 2^32 / vol.blockSize / 2^(vol.clustByteShift - vol.sectorShift) % 2^32,
    mftNo*vol.mftRecordSize % 2^32 / vol.blockSize,0,.none'⟩

def dataInode (inode : NtfsInode) (turns : Nat) (at' : Record × Nat) : Option (Option NtfsInode) :=
  let inode := { inode with mode := .reg, type := attrType at'.1.mem at'.2 }
  if nonResident at'.1.mem at'.2 then
    onFound (indexRuns at'.1.mem (mappingPairs at'.1.mem at'.2) (attrNext at'.1.mem at'.2) turns) none fun mapped =>
      if mapped.rlist = [] then some none
      else some (some { inode with size := le64 at'.1.mem (at'.2 + 56), data := .nonResident mapped.rlist })
  else some (some { inode with size := le32 at'.1.mem (at'.2 + 16), data := .resident (valueOffset at'.1.mem at'.2) })

def recordInode (lookup : Nat → Option (Option Record)) (mftNo turns : Nat) (mrec : Record) : Option (Option NtfsInode) :=
  if isDirectory mrec then
    onFound (ntfsAttrLookup vol lookup atIndexRoot mrec turns) none fun _ => some (some (dirInode vol mftNo mrec))
  else onFound (ntfsAttrLookup vol lookup atData mrec turns) none (dataInode (dirInode vol mftNo mrec) turns)

theorem inodeSetupFound (lookup : Nat → Option (Option Record)) (mftNo turns : Nat) :
    indexInodeSetup vol lookup mftNo turns = onFound (lookup mftNo) none (recordInode vol lookup mftNo turns) := by
  unfold indexInodeSetup
  cases lookup mftNo with
  | none => rfl
  | some found =>
    cases found with
    | none => rfl
    | some mrec =>
      simp only [onFound,Option.bind_some,Option.elim,recordInode]
      by_cases directory : isDirectory mrec
      · rw [if_pos directory,if_pos directory]
        cases ntfsAttrLookup vol lookup atIndexRoot mrec turns with
        | none => rfl
        | some root =>
          cases root with
          | none => rfl
          | some at' => rfl
      rw [if_neg directory,if_neg directory]
      cases ntfsAttrLookup vol lookup atData mrec turns with
      | none => rfl
      | some data =>
        cases data with
        | none => rfl
        | some at' =>
          simp only [Option.bind_some,dataInode]
          by_cases away : nonResident at'.1.mem at'.2
          · rw [if_pos away,if_pos away]
            cases indexRuns at'.1.mem (mappingPairs at'.1.mem at'.2) (attrNext at'.1.mem at'.2) turns with
            | none => rfl
            | some mapped =>
              cases mapped with
              | none => rfl
              | some mapped => rfl
          · rw [if_neg away,if_neg away]
            rfl

theorem dataInodeLasting (inode : NtfsInode) (at' : Record × Nat) : Lasting fun n => dataInode inode n at' := by
  unfold dataInode
  simp only
  split_ifs
  · exact lastingFound (mapLasting _ _ _) fun _ => lastingConst _
  · exact lastingConst _

theorem dataInodeAnswers (inode : NtfsInode) (at' : Record × Nat) : (Answers fun n => dataInode inode n at') ↔
    (nonResident at'.1.mem at'.2 → MapEnds at'.1.mem (mappingPairs at'.1.mem at'.2) (attrNext at'.1.mem at'.2)) := by
  unfold dataInode
  by_cases away : nonResident at'.1.mem at'.2
  · simp only [if_pos away]
    rw [imp_iff_right away,← mapAnswers]
    refine answersFoundAt (mapLasting _ _ _) fun mapped => ?_
    split_ifs
    · rfl
    · rfl
  · simp only [if_neg away]
    exact iff_of_true (answersConst.2 rfl) fun away' => absurd away' away

def rootNext (lookup : Nat → Option (Option Record)) (mrec root : Record) (turns : Nat) : IndexStop → Option (Option NtfsInode)
  | .corrupt => some none
  | .found ie => indexInodeSetup vol lookup (indexedFile root.mem ie % 2^32) turns
  | .last ie => if idxEntryNode root.mem ie then indexChildren vol lookup dname mrec turns else some none

def searchNext (lookup : Nat → Option (Option Record)) (turns : Nat) : Search → Option (Option NtfsInode)
  | .found mftNo => indexInodeSetup vol lookup mftNo turns
  | _ => some none

def childNext (lookup : Nat → Option (Option Record)) (turns : Nat) (at' : Record × Nat) : Option (Option NtfsInode) :=
  if nonResident at'.1.mem at'.2 then
    (allocationRuns vol dname at'.1.mem (mappingPairs at'.1.mem at'.2) (attrNext at'.1.mem at'.2) turns turns 0
      mappingChunkInit).bind (searchNext vol lookup turns)
  else some none

def rootSearch (lookup : Nat → Option (Option Record)) (mrec : Record) (turns : Nat) (at' : Record × Nat) :
    Option (Option NtfsInode) :=
  (rootWalk dname mrec at'.1 at'.2 turns).bind (rootNext vol dname lookup mrec at'.1 turns)

def recordSearch (lookup : Nat → Option (Option Record)) (turns : Nat) (mrec : Record) : Option (Option NtfsInode) :=
  onFound (ntfsAttrLookup vol lookup atIndexRoot mrec turns) none (rootSearch vol dname lookup mrec turns)

theorem rootWalkLasting (mrec root : Record) (attr : Nat) : Lasting fun n => rootWalk dname mrec root attr n :=
  indexLasting _ _ _ _ _

theorem childrenFound (lookup : Nat → Option (Option Record)) (mrec : Record) (turns : Nat) :
    indexChildren vol lookup dname mrec turns =
      onFound (ntfsAttrLookup vol lookup atIndexAllocation mrec turns) none (childNext vol dname lookup turns) := by
  unfold indexChildren
  cases ntfsAttrLookup vol lookup atIndexAllocation mrec turns with
  | none => rfl
  | some found =>
    cases found with
    | none => rfl
    | some at' =>
      simp only [onFound,Option.bind_some,Option.elim,childNext]
      by_cases away : nonResident at'.1.mem at'.2
      · rw [if_pos away,if_pos away]
        cases allocationRuns vol dname at'.1.mem (mappingPairs at'.1.mem at'.2) (attrNext at'.1.mem at'.2) turns turns 0
          mappingChunkInit with
        | none => rfl
        | some search =>
          cases search with
          | more => rfl
          | failed => rfl
          | found mftNo => rfl
      · rw [if_neg away,if_neg away]

theorem indexLookupFound (lookup : Nat → Option (Option Record)) (mftNo turns : Nat) :
    ntfsIndexLookup vol lookup dname mftNo turns = onFound (lookup mftNo) none (recordSearch vol dname lookup turns) := by
  unfold ntfsIndexLookup
  cases lookup mftNo with
  | none => rfl
  | some found =>
    cases found with
    | none => rfl
    | some mrec =>
      simp only [onFound,Option.bind_some,Option.elim,recordSearch]
      cases ntfsAttrLookup vol lookup atIndexRoot mrec turns with
      | none => rfl
      | some found =>
        cases found with
        | none => rfl
        | some at' =>
          simp only [Option.bind_some,rootSearch]
          rw [show walkIndex at'.1.mem dname mrec.addr (indexBound at'.1.mem (valueOffset at'.1.mem at'.2 + 16)) turns
            (indexStart at'.1.mem (valueOffset at'.1.mem at'.2 + 16)) = rootWalk dname mrec at'.1 at'.2 turns from rfl]
          cases rootWalk dname mrec at'.1 at'.2 turns with
          | none => rfl
          | some stop =>
            cases stop with
            | corrupt => rfl
            | found ie => rfl
            | last ie => rfl

end

section
variable {vol : Volume} {dname : Bytes} {lookup lookup' : Nat → Option (Option Record)} {turns turns' : Nat}
  (keeps : ∀ file, Keeps (lookup file) (lookup' file)) (le : turns ≤ turns')
include keeps le

theorem recordInodeKeeps (mftNo : Nat) (mrec : Record) :
    Keeps (recordInode vol lookup mftNo turns mrec) (recordInode vol lookup' mftNo turns' mrec) := by
  unfold recordInode
  split_ifs
  · exact keepsFound (attrLookupKeeps keeps le _ _) fun at' => keepsSelf _
  · exact keepsFound (attrLookupKeeps keeps le _ _) fun at' => lastingLe (dataInodeLasting _ at') le

theorem inodeSetupKeeps (mftNo : Nat) :
    Keeps (indexInodeSetup vol lookup mftNo turns) (indexInodeSetup vol lookup' mftNo turns') := by
  rw [inodeSetupFound,inodeSetupFound]
  exact keepsFound (keeps mftNo) (recordInodeKeeps keeps le mftNo)

theorem searchNextKeeps (search : Search) : Keeps (searchNext vol lookup turns search) (searchNext vol lookup' turns' search) := by
  cases search with
  | more => exact keepsSelf _
  | failed => exact keepsSelf _
  | found mftNo => exact inodeSetupKeeps keeps le mftNo

theorem childNextKeeps (at' : Record × Nat) : Keeps (childNext vol dname lookup turns at') (childNext vol dname lookup' turns' at') := by
  unfold childNext
  split_ifs
  · exact keepsBind (lastingLe (allocationRunsLasting vol dname _ _) le) (searchNextKeeps keeps le)
  · exact keepsSelf _

theorem childrenKeeps (mrec : Record) : Keeps (indexChildren vol lookup dname mrec turns) (indexChildren vol lookup' dname mrec turns') := by
  rw [childrenFound,childrenFound]
  exact keepsFound (attrLookupKeeps keeps le _ _) (childNextKeeps keeps le)

theorem rootNextKeeps (mrec root : Record) (stop : IndexStop) :
    Keeps (rootNext vol dname lookup mrec root turns stop) (rootNext vol dname lookup' mrec root turns' stop) := by
  cases stop with
  | corrupt => exact keepsSelf _
  | found ie => exact inodeSetupKeeps keeps le _
  | last ie =>
    simp only [rootNext]
    split_ifs
    · exact childrenKeeps keeps le mrec
    · exact keepsSelf _

theorem rootSearchKeeps (mrec : Record) (at' : Record × Nat) :
    Keeps (rootSearch vol dname lookup mrec turns at') (rootSearch vol dname lookup' mrec turns' at') :=
  keepsBind (lastingLe (rootWalkLasting dname mrec at'.1 at'.2) le) (rootNextKeeps keeps le mrec at'.1)

theorem recordSearchKeeps (mrec : Record) : Keeps (recordSearch vol dname lookup turns mrec) (recordSearch vol dname lookup' turns' mrec) :=
  keepsFound (attrLookupKeeps keeps le _ _) (rootSearchKeeps keeps le mrec)

theorem indexLookupKeeps (mftNo : Nat) :
    Keeps (ntfsIndexLookup vol lookup dname mftNo turns) (ntfsIndexLookup vol lookup' dname mftNo turns') := by
  rw [indexLookupFound,indexLookupFound]
  exact keepsFound (keeps mftNo) (recordSearchKeeps keeps le)

end

section
variable {vol : Volume} {dname : Bytes}

theorem laterLookup (vol : Volume) (n : Nat) (file : Nat) : Keeps (recordLookup vol n file) (recordLookup vol (n + 1) file) :=
  recordLookupLasting vol file n

theorem lookupLasting (vol : Volume) (type : Nat) (mrec : Record) :
    Lasting fun n => ntfsAttrLookup vol (recordLookup vol n) type mrec n := attrLookupLasting (recordLookupLasting vol) vol type mrec

theorem inodeAnswers (mftNo : Nat) : (Answers fun n => indexInodeSetup vol (recordLookup vol n) mftNo n) ↔ InodeEnds vol mftNo := by
  have second : ∀ mrec, Lasting fun n => recordInode vol (recordLookup vol n) mftNo n mrec := fun mrec n =>
    recordInodeKeeps (laterLookup vol n) (Nat.le_succ n) mftNo mrec
  simp only [inodeSetupFound]
  rw [answersFound (recordLookupLasting vol mftNo) second,recordAnswers]
  refine and_congr_right fun _ => forall_congr' fun mrec => imp_congr (recordGives mftNo mrec) ?_
  unfold recordInode
  by_cases directory : isDirectory mrec
  · simp only [if_pos directory]
    exact (answersFoundAt (lookupLasting vol _ _) fun _ => rfl).trans lookupAnswers
  · simp only [if_neg directory]
    rw [answersFound (lookupLasting vol _ _) (dataInodeLasting _),lookupAnswers]
    simp only [dataInodeAnswers,Prod.forall,lookupGives]
    rfl

theorem searchNextLasting (vol : Volume) (search : Search) : Lasting fun n => searchNext vol (recordLookup vol n) n search :=
  fun n => searchNextKeeps (laterLookup vol n) (Nat.le_succ n) search

theorem childrenAnswers (mrec : Record) : (Answers fun n => indexChildren vol (recordLookup vol n) dname mrec n) ↔
    ChildrenEnd vol dname mrec := by
  have second : ∀ at', Lasting fun n => childNext vol dname (recordLookup vol n) n at' := fun at' n =>
    childNextKeeps (laterLookup vol n) (Nat.le_succ n) at'
  simp only [childrenFound]
  rw [answersFound (lookupLasting vol _ _) second,lookupAnswers]
  refine and_congr_right fun _ => Prod.forall.trans <| forall₂_congr fun found attr => imp_congr lookupGives ?_
  unfold childNext
  by_cases away : nonResident found.mem attr
  · simp only [if_pos away]
    rw [imp_iff_right away,answersBind (allocationRunsLasting vol dname _ _) (searchNextLasting vol),allocationAnswers]
    refine and_congr_right fun _ => ⟨fun all mftNo names => ?_,fun all search given => ?_⟩
    · exact (inodeAnswers mftNo).1 (all (.found mftNo) (allocationGives.2 names))
    · cases search with
      | more => exact answersConst.2 rfl
      | failed => exact answersConst.2 rfl
      | found mftNo => exact (inodeAnswers mftNo).2 (all mftNo (allocationGives.1 given))
  · simp only [if_neg away]
    exact iff_of_true (answersConst.2 rfl) fun away' => absurd away' away

theorem rootNextAnswers (mrec root : Record) (attr ie : Nat) : (Answers fun n => rootNext vol dname (recordLookup vol n) mrec root n
    (indexStop root.mem mrec.addr (indexBound root.mem (rootIndex root attr)) ie)) ↔ RootEnds vol dname mrec root attr ie := by
  unfold RootEnds indexStop
  by_cases inside : IndexInside root.mem mrec.addr (indexBound root.mem (rootIndex root attr)) ie
  · rw [imp_iff_right inside,if_pos inside]
    by_cases over' : idxEntryEnd root.mem ie
    · rw [if_pos over',if_pos over']
      simp only [rootNext]
      by_cases node : idxEntryNode root.mem ie
      · simp only [if_pos node]
        rw [imp_iff_right node]
        exact childrenAnswers mrec
      · simp only [if_neg node]
        exact iff_of_true (answersConst.2 rfl) fun node' => absurd node' node
    · rw [if_neg over',if_neg over']
      exact inodeAnswers _
  · rw [if_neg inside]
    exact iff_of_true (answersConst.2 rfl) fun inside' => absurd inside' inside

theorem rootSearchAnswers (mrec : Record) (at' : Record × Nat) :
    (Answers fun n => rootSearch vol dname (recordLookup vol n) mrec n at') ↔
      NodeEnds dname at'.1.mem mrec.addr (rootIndex at'.1 at'.2) ∧
        ∀ ie, IndexStops at'.1.mem dname mrec.addr (indexBound at'.1.mem (rootIndex at'.1 at'.2))
          (indexStart at'.1.mem (rootIndex at'.1 at'.2)) ie → RootEnds vol dname mrec at'.1 at'.2 ie := by
  have second : ∀ stop, Lasting fun n => rootNext vol dname (recordLookup vol n) mrec at'.1 n stop := fun stop n =>
    rootNextKeeps (laterLookup vol n) (Nat.le_succ n) mrec at'.1 stop
  unfold rootSearch
  rw [answersBind (rootWalkLasting dname mrec at'.1 at'.2) second]
  refine and_congr indexAnswers ⟨fun all ie stops => ?_,fun all stop given => ?_⟩
  · exact (rootNextAnswers mrec at'.1 at'.2 ie).1 (all _ (indexGives.2 ⟨ie,stops,rfl⟩))
  · obtain ⟨ie,stops,rfl⟩ := indexGives.1 given
    exact (rootNextAnswers mrec at'.1 at'.2 ie).2 (all ie stops)

theorem indexLookupAnswers (mftNo : Nat) : (Answers fun n => ntfsIndexLookup vol (recordLookup vol n) dname mftNo n) ↔
    IndexLookupEnds vol dname mftNo := by
  have third : ∀ mrec at', Lasting fun n => rootSearch vol dname (recordLookup vol n) mrec n at' := fun mrec at' n =>
    rootSearchKeeps (laterLookup vol n) (Nat.le_succ n) mrec at'
  have second : ∀ mrec, Lasting fun n => recordSearch vol dname (recordLookup vol n) n mrec := fun mrec n =>
    recordSearchKeeps (laterLookup vol n) (Nat.le_succ n) mrec
  simp only [indexLookupFound]
  rw [answersFound (recordLookupLasting vol mftNo) second,recordAnswers]
  refine and_congr_right fun _ => forall_congr' fun mrec => imp_congr (recordGives mftNo mrec) ?_
  unfold recordSearch
  rw [answersFound (lookupLasting vol atIndexRoot mrec) (third mrec),lookupAnswers]
  simp only [rootSearchAnswers,Prod.forall,lookupGives]
  rfl

theorem returnsAnswers {γ : Type} {call : (Nat → Option (Option Record)) → Nat → Option γ}
    (keeps : ∀ lookup lookup' turns turns', (∀ file, Keeps (lookup file) (lookup' file)) → turns ≤ turns' →
      Keeps (call lookup turns) (call lookup' turns')) : Returns vol call ↔ Answers fun n => call (recordLookup vol n) n := by
  constructor
  · rintro ⟨turns,depth,answer,here⟩
    refine ⟨turns + depth,answer,keeps _ _ _ _ (fun file => ?_) (Nat.le_add_right turns depth) answer here⟩
    exact recordLookupKeeps (Nat.le_add_right turns depth) (Nat.le_add_left depth turns) file
  · rintro ⟨n,answer,here⟩
    exact ⟨n,n,answer,here⟩

/- Each of the three lookups returns just when the lengths that it goes by lead on, and no record is named again.
Larger blocks are not read: the cache's block size is a uint16_t. -/
theorem lookupsReturn : ∀ vol : Volume, vol.blockShift ≤ 15 →
    (∀ type mrec, Returns vol (fun lookup turns => ntfsAttrLookup vol lookup type mrec turns) ↔ AttrLookupEnds vol type mrec) ∧
    (∀ attr type mrec, Returns vol (fun lookup turns => ntfsAttrListLookup vol lookup attr type mrec turns) ↔
      ListLookupEnds vol type (RecordEnds vol) attr mrec) ∧
    ∀ dname mftNo, Returns vol (fun lookup turns => ntfsIndexLookup vol lookup dname mftNo turns) ↔ IndexLookupEnds vol dname mftNo := by
  intro vol _
  refine ⟨fun type mrec => ?_,fun attr type mrec => ?_,fun dname mftNo => ?_⟩
  · rw [returnsAnswers fun _ _ _ _ keeps le => attrLookupKeeps keeps le type mrec]
    exact lookupAnswers
  · rw [returnsAnswers fun _ _ _ _ keeps le => listLookupKeeps keeps le attr type mrec]
    exact listLookupAnswers (recordLookupLasting vol) recordAnswers
  · rw [returnsAnswers fun _ _ _ _ keeps le => indexLookupKeeps keeps le mftNo]
    exact indexLookupAnswers mftNo

end

/- Clusters of 8192 bytes, one to a block, and $MFT from cluster 4 on: record 5 is the root directory. -/
def volumeOf (record : List UInt8) : Volume :=
  ntfsFsInit 9 ⟨16,-10,1,4⟩ (fun blk offset => if blk = 4 ∧ 5120 ≤ offset then record.getD (offset - 5120) 0 else 0)
    (fun _ => 0) (fun file => 0x100000 + 1024*file) 0x200000

/- A directory up to its attributes. -/
def directoryHeader : List UInt8 :=
  [0x46,0x49,0x4c,0x45,48,0,3,0] ++ List.replicate 8 0 ++ [5,0,1,0,56,0,3,0] ++ List.replicate 20 0 ++ [5] ++
  List.replicate 11 0

/- $STANDARD_INFORMATION, and an $INDEX_ROOT with one name, "a" for record 5 itself. -/
def namedRecord5 : List UInt8 :=
  directoryHeader ++ [0x10,0,0,0,24,0,0,0] ++ List.replicate 16 0 ++
  [0x90,0,0,0,160,0,0,0] ++ List.replicate 8 0 ++ [136,0,0,0,24,0,0,0] ++ List.replicate 16 0 ++
  [16,0,0,0,120,0,0,0] ++ List.replicate 8 0 ++
  [5,0,0,0,0,0,0,0,88,0,0,0,0,0,0,0] ++ List.replicate 64 0 ++ [1,1,0x61,0,0,0,0,0] ++
  List.replicate 8 0 ++ [16,0,0,0,2,0,0,0] ++ [0xff,0xff,0xff,0xff]

def namedVolume : Volume := volumeOf namedRecord5

theorem lookupsReturnNamed : IndexLookupEnds namedVolume [0x61] 5 :=
  ((lookupsReturn namedVolume (by decide)).2.2 [0x61] 5).1 ⟨3,1,some ⟨.dir,0,5,5,0,0,0,.none'⟩,by decide⟩

/- The first attribute, $STANDARD_INFORMATION, has the length 0. -/
def directoryVolume : Volume := volumeOf (directoryHeader ++ [0x10])

theorem directoryRead : ∃ mrec, nearRecord directoryVolume 5 = some mrec ∧ attrType mrec.mem (firstAttr mrec) = 0x10 ∧
    attrLength mrec.mem (firstAttr mrec) = 0 := by
  refine ⟨⟨directoryVolume.heap 5,ntfsFixupsWriteback directoryVolume (directoryVolume.heap 5)
    (placeBuffer directoryVolume.memory (directoryVolume.heap 5) (mftRecordRead directoryVolume directoryVolume.block
      (fun i => directoryVolume.memory (directoryVolume.heap 5 + i)) 5 4))⟩,?_,?_,?_⟩
  · rw [nearRecord,if_neg (by decide),show directoryVolume.mftLcn = 4 from rfl,loadRecord,checkRecord,
      if_neg (by decide),if_neg (by decide)]
  · decide
  · decide

/- The search for a name in that directory does not return. -/
theorem lengthZeroStays : ¬ Returns directoryVolume fun lookup turns => ntfsIndexLookup directoryVolume lookup [0x61] 5 turns := by
  rw [returnsAnswers fun _ _ _ _ keeps le => indexLookupKeeps keeps le 5,indexLookupAnswers]
  rintro ⟨_,all⟩
  obtain ⟨mrec,read,type,zero⟩ := directoryRead
  obtain ⟨none' | records,_⟩ := all mrec (Or.inl ⟨by decide,read⟩)
  · exact absurd none' (by decide)
  have passed : AttrPassed mrec.mem atIndexRoot (firstAttr mrec) := by
    unfold AttrPassed
    rw [type]
    decide
  refine lengthZero (k := 0) ?_ (add32Small _ _) zero (records mrec .refl).attrs
  intro j less
  rwa [show j = 0 by omega]

end Syslinux.Ntfs
