import Syslinux.Ntfs

/-! Where ntfs_mft_record_lookup_any finds a record of $MFT: the place that the source works
out from the record number, against the place that the runs of the data stream give. -/
namespace Syslinux.Ntfs
open Fat (le16 le32 le64)

def Run.len : Run → Nat
  | .allocated _ len _ _ => len
  | .sparse len _ => len

def clusters (runs : List Run) : Nat := (runs.map Run.len).sum

/- The LCN of a cluster of the stream, or 0. -/
@[grind =] def lcnAt : List Run → Nat → Nat
  | [],_ => 0
  | .allocated lcn len _ _::runs,vcn => if vcn < len then lcn.toNat + vcn else lcnAt runs (vcn - len)
  | .sparse len _::runs,vcn => if vcn < len then 0 else lcnAt runs (vcn - len)

def streamAddr (vol : Volume) (runs : List Run) (pos : Nat) : Nat :=
  lcnAt runs (pos / vol.clustSize)*vol.clustSize + pos % vol.clustSize

/- $MFT has no holes, and cluster 0 has the boot sector. -/
def Run.InVolume (vol : Volume) : Run → Prop
  | .allocated lcn len _ _ => 0 < lcn ∧ (lcn.toNat + len)*vol.clustSize ≤ 2^64
  | .sparse _ _ => False

inductive FirstAttr (mem : Nat → UInt8) (type : Nat) : Nat → Nat → Prop where
  | here {attr : Nat} (same : attrType mem attr = type) : FirstAttr mem type attr attr
  | later {attr found : Nat} (other : attrType mem attr ≠ type) (more : attrType mem attr ≠ atEnd)
      (rest : FirstAttr mem type (attrNext mem attr) found) : FirstAttr mem type attr found

theorem firstAt {mem : Nat → UInt8} {type start attr : Nat} (at' : start = attr) (same : attrType mem attr = type) :
    FirstAttr mem type start attr := by
  rw [at']
  exact .here same

/- The buffer of record 0 with the bytes that the record has on the disk. -/
def recordZero (vol : Volume) (runs : List Run) (i : Nat) : UInt8 :=
  if i < vol.mftRecordSize then vol.block (streamAddr vol runs i / vol.blockSize) (streamAddr vol runs i % vol.blockSize)
  else vol.memory (vol.heap 0 + i)

/- $MFT as it is on the disk: the base record has the runs of its $DATA attribute, and
further records may have more of them. Blocks of more than 32 KB are never read. -/
structure MftLaid (vol : Volume) (base more : List Run) : Prop where
  block : vol.blockShift ≤ 15
  runs : ∀ run ∈ base ++ more, run.InVolume vol
  size : clusters (base ++ more)*vol.clustSize < 2^63
  first : vol.mftLcn = lcnAt (base ++ more) 0
  zero : ∃ mrec attr, checkRecord vol 0 (recordZero vol (base ++ more)) = some mrec ∧ isDirectory mrec = false ∧
    FirstAttr mrec.mem atData (add32 mrec.addr (le16 mrec.mem (mrec.addr + 20))) attr ∧ nonResident mrec.mem attr ∧
    Encodes mrec.mem (attrNext mrec.mem attr) (mappingPairs mrec.mem attr) 0 base

/- Each byte of the buffer is the byte of the disk that has this byte of the record: the
block it is taken from, and the place in the block. -/
def ReadsRecord (vol : Volume) (runs : List Run) (file : Nat) : Prop :=
  ∃ turns depth lcn, recordLcn vol (ntfsMftRecordLookupAny vol turns depth) turns file = some lcn ∧ lcn ≠ 0 ∧
    ∀ buf k, k < vol.mftRecordSize → mftRecordRead vol Prod.mk buf file lcn k =
      (streamAddr vol runs (file*vol.mftRecordSize + k) / vol.blockSize,
        streamAddr vol runs (file*vol.mftRecordSize + k) % vol.blockSize)

/- A record is in one piece on the disk, and ends in the block after the one it begins in. -/
def Together (vol : Volume) (runs : List Run) (file : Nat) : Prop :=
  (∀ k < vol.mftRecordSize,
    streamAddr vol runs (file*vol.mftRecordSize + k) = streamAddr vol runs (file*vol.mftRecordSize) + k) ∧
  streamAddr vol runs (file*vol.mftRecordSize) % vol.blockSize + vol.mftRecordSize ≤ 2*vol.blockSize

/- The cluster of a position of 32 bits, which the base record maps, begins at the record, or
is in its block, and there the record lies as in a block of the stream. -/
def Located (vol : Volume) (base more : List Run) (file : Nat) : Prop :=
  let pos := file*vol.mftRecordSize % 2^32
  let found := lcnAt (base ++ more) (pos / vol.clustSize)*vol.clustSize
  let addr := streamAddr vol (base ++ more) (file*vol.mftRecordSize)
  (pos / vol.clustSize = 0 ∨ pos / vol.clustSize < clusters base) ∧
  (if pos % vol.blockSize = 0 then found = addr
    else found / vol.blockSize = addr / vol.blockSize ∧ addr % vol.blockSize = pos % vol.blockSize) ∧
  Together vol (base ++ more) file

section
variable {α : Type}

theorem copyBlocksDone (blkSize : Nat) (content : Nat → Nat → α) (turns : Nat) (buf : Nat → α) (k blk offset lbytes : Nat) :
    copyBlocks blkSize content turns buf k blk offset lbytes 0 = buf := by
  cases turns with
  | zero => rfl
  | succ turns => rw [copyBlocks,if_pos rfl]

/- The two turns of the loop: what is left of the block, and all else from the next one. -/
theorem ntfsReadAt (vol : Volume) (content : Nat → Nat → α) (buf : Nat → α) {count blk offset lcn off : Nat}
    (start : off = if offset = 0 then lcn*vol.clustSize % 2^64 % vol.blockSize else offset) (inside : off < vol.blockSize)
    (i : Nat) : ntfsRead vol content buf count blk offset lcn i =
      if i < count then
        if i < vol.blockSize - off then content blk (off + i) else content (blk + 1) (i - (vol.blockSize - off))
      else buf i := by
  rw [ntfsRead]
  simp only [← start]
  by_cases one : count ≤ vol.blockSize - off
  · rw [if_pos one,memcpy]
    by_cases within : i < count
    · rw [if_pos (by omega),if_pos within,if_pos (by omega),Nat.sub_zero]
    · rw [if_neg (by omega),if_neg within]
  · obtain ⟨turns,two⟩ : ∃ turns, count = turns + 2 := ⟨count - 2,by omega⟩
    rw [if_neg one]
    have first : copyBlocks vol.blockSize content count buf 0 blk off (vol.blockSize - off) count =
        copyBlocks vol.blockSize content (turns + 1) (memcpy buf 0 (fun i => content blk (off + i)) (vol.blockSize - off))
          (vol.blockSize - off) (blk + 1) 0 (count - (vol.blockSize - off)) (count - (vol.blockSize - off)) := by
      rw [show copyBlocks vol.blockSize content count = copyBlocks vol.blockSize content (turns + 2) by rw [two],
        copyBlocks,if_neg (by omega)]
      simp only
      rw [if_pos (by omega),Nat.zero_add]
    rw [first,copyBlocks,if_neg (by omega)]
    simp only [Nat.sub_self,copyBlocksDone,ite_self,Nat.zero_add]
    by_cases within : i < count
    · rw [if_pos within,memcpy]
      by_cases low : i < vol.blockSize - off
      · rw [if_neg (by omega),memcpy,if_pos (by omega),if_pos low,Nat.sub_zero]
      · rw [if_pos (by omega),if_neg low]
    · rw [if_neg within,memcpy,if_neg (by omega),memcpy,if_neg (by omega)]

end

section
variable {vol : Volume} {base more : List Run} {file : Nat}

theorem blockPos (vol : Volume) : 0 < vol.blockSize := Nat.two_pow_pos _
theorem clustPos (vol : Volume) : 0 < vol.clustSize := Nat.two_pow_pos _
theorem mftRecordPos (vol : Volume) : 0 < vol.mftRecordSize := Nat.two_pow_pos _

theorem clustersCons (run : Run) (runs : List Run) : clusters (run::runs) = run.len + clusters runs := by
  simp [clusters]

theorem lcnInside {runs : List Run} (volume : ∀ run ∈ runs, run.InVolume vol) {vcn : Nat} (inside : vcn < clusters runs) :
    0 < lcnAt runs vcn := by
  induction runs generalizing vcn with
  | nil => simp [clusters] at inside
  | cons run runs ih =>
    have here := volume run (by simp)
    rw [clustersCons] at inside
    cases run with
    | sparse len v => exact absurd here id
    | allocated lcn len v l =>
      have positive := here.1
      simp only [Run.len] at inside
      rw [lcnAt]
      split_ifs with within
      · omega
      · exact ih (fun r mem => volume r (List.mem_cons_of_mem _ mem)) (by omega)

theorem lcnSmall {runs : List Run} (volume : ∀ run ∈ runs, run.InVolume vol) (vcn : Nat) :
    lcnAt runs vcn*vol.clustSize < 2^64 := by
  induction runs generalizing vcn with
  | nil => simp [lcnAt]
  | cons run runs ih =>
    have here := volume run (by simp)
    cases run with
    | sparse len v => exact absurd here id
    | allocated lcn len v l =>
      rw [lcnAt]
      split_ifs with within
      · refine Nat.lt_of_lt_of_le ?_ here.2
        exact Nat.mul_lt_mul_of_pos_right (by omega) (clustPos vol)
      · exact ih (fun r mem => volume r (List.mem_cons_of_mem _ mem)) _

theorem lcnOutside {runs : List Run} {vcn : Nat} (outside : clusters runs ≤ vcn) : lcnAt runs vcn = 0 := by
  induction runs generalizing vcn with
  | nil => rfl
  | cons run runs ih =>
    rw [clustersCons] at outside
    cases run <;> simp only [Run.len] at outside <;> rw [lcnAt,if_neg (by omega)] <;> exact ih (by omega)

theorem lcnAppend (base more : List Run) (vcn : Nat) : lcnAt (base ++ more) vcn =
    if vcn < clusters base then lcnAt base vcn else lcnAt more (vcn - clusters base) := by
  induction base generalizing vcn with
  | nil => simp [clusters]
  | cons run runs ih =>
    rw [clustersCons]
    cases run <;> simp only [List.cons_append,lcnAt,Run.len,ih] <;> split_ifs <;> first | rfl | omega | skip
    all_goals rw [Nat.sub_sub]

theorem findLcnRuns {mem : Nat → UInt8} {stream attrLen vcn turns offset : Nat} {chunk : MappingChunk} {runs : List Run}
    (volume : ∀ run ∈ runs, run.InVolume vol) (small : attrLen < 2^32)
    (encoded : Encodes mem attrLen (stream + offset) chunk.lcn runs) (low : chunk.vcn ≤ vcn)
    (size : chunk.vcn + clusters runs < 2^64) :
    findLcn mem stream attrLen vcn turns offset chunk = some (lcnAt runs (vcn - chunk.vcn)) ∨
    findLcn mem stream attrLen vcn turns offset chunk = none ∧ turns ≤ runs.length := by
  induction runs generalizing turns offset chunk with
  | nil =>
    cases turns with
    | zero => exact Or.inr ⟨rfl,Nat.zero_le _⟩
    | succ turns =>
      rw [findLcn,parseEnd encoded]
      exact Or.inl rfl
  | cons run runs ih =>
    cases turns with
    | zero => exact Or.inr ⟨rfl,Nat.zero_le _⟩
    | succ turns =>
      have here := volume run (by simp)
      rw [clustersCons] at size
      cases run with
      | sparse len v => exact absurd here id
      | allocated lcn len v l =>
        obtain ⟨positive,fits⟩ := here
        simp only [Run.len] at size
        have tail : Encodes mem attrLen (stream + (offset + (v + l + 1))) lcn runs := by
          rw [show stream + (offset + (v + l + 1)) = stream + offset + 1 + v + l by omega]
          exact encoded.2.2.2.2.2.2.2.2.2.2
        have sum : chunk.vcn + len < 2^64 := by omega
        rw [findLcn,parseAllocated small encoded (encodesInside tail)]
        simp only [show ¬ lcn = 0 by omega,decide_false,Bool.false_eq_true,if_false,low,true_and,Nat.mod_eq_of_lt sum]
        rw [lcnAt]
        by_cases within : vcn < chunk.vcn + len
        · have clust := clustPos vol
          have word : lcn.toNat + len ≤ 2^64 := Nat.le_trans (Nat.le_mul_of_pos_right _ clust) fits
          rw [if_pos within,if_pos (by omega)]
          refine Or.inl (congrArg some ?_)
          rw [Int.emod_eq_of_lt (by omega) (by omega)]
          omega
        · rw [if_neg within,if_neg (by omega)]
          have tail' : Encodes mem attrLen (stream + (offset + (v + l + 1)))
              (MappingChunk.lcn ⟨chunk.vcn + len,lcn,len,decide (offset = 0),false,true,false⟩) runs := tail
          have less : chunk.vcn + len + clusters runs < 2^64 := by omega
          rw [Nat.sub_sub]
          exact Or.imp id (fun h => ⟨h.1,Nat.succ_le_succ h.2⟩)
            (ih (fun r mem => volume r (List.mem_cons_of_mem _ mem)) tail' (Nat.le_of_not_lt fun h => within h) less)

/- The walk stops at the first attribute of the type, unless the turns run out. -/
theorem walkFirst {mem : Nat → UInt8} {type start found : Nat} (end' : type ≠ atEnd) (list' : type ≠ atAttrList)
    (first : FirstAttr mem type start found) : attrType mem found = type ∧
    (∀ turns list stop, walkAttrs mem type turns start list = some stop → stop.1 = found) ∧
    ∃ enough, ∀ turns list, enough ≤ turns → ∃ stop, walkAttrs mem type turns start list = some stop := by
  induction first with
  | @here attr same =>
    refine ⟨same,?_,1,?_⟩
    · intro turns list stop walk
      cases turns with
      | zero => contradiction
      | succ turns =>
        rw [walkAttrs,same,if_neg end',if_neg list',if_pos rfl] at walk
        exact (congrArg Prod.fst (Option.some.inj walk)).symm
    · intro turns list enough
      obtain ⟨turns,rfl⟩ := Nat.exists_eq_add_of_le' enough
      exact ⟨(attr,list),by rw [walkAttrs,same,if_neg end',if_neg list',if_pos rfl]⟩
  | @later attr found other more rest ih =>
    obtain ⟨same,unique,enough,ends⟩ := ih
    refine ⟨same,?_,enough + 1,?_⟩
    · intro turns list stop walk
      cases turns with
      | zero => contradiction
      | succ turns =>
        rw [walkAttrs,if_neg more] at walk
        split_ifs at walk
        · exact unique _ _ _ walk
        · exact unique _ _ _ walk
    · intro turns list more'
      obtain ⟨turns,rfl⟩ := Nat.exists_eq_add_of_le' (Nat.le_trans (Nat.le_add_left 1 enough) more')
      rw [walkAttrs,if_neg more]
      split_ifs
      · exact ends _ _ (by omega)
      · exact ends _ _ (by omega)

theorem lookupFirst (vol : Volume) {mrec : Record} {type attr : Nat} (end' : type ≠ atEnd) (list' : type ≠ atAttrList)
    (first : FirstAttr mrec.mem type (add32 mrec.addr (le16 mrec.mem (mrec.addr + 20))) attr) :
    (∀ lookup turns found, ntfsAttrLookup vol lookup type mrec turns = some found → found = some (mrec,attr)) ∧
    ∃ enough, ∀ lookup turns, enough ≤ turns → ntfsAttrLookup vol lookup type mrec turns = some (some (mrec,attr)) := by
  obtain ⟨same,unique,enough,ends⟩ := walkFirst end' list' first
  have there : attrType mrec.mem attr ≠ atEnd := by rw [same]; exact end'
  constructor
  · intro lookup turns found ok
    rw [ntfsAttrLookup,if_neg end'] at ok
    cases turns with
    | zero => contradiction
    | succ turns =>
      rw [lookupAgain] at ok
      cases walk : walkAttrs mrec.mem type (turns + 1) (add32 mrec.addr (le16 mrec.mem (mrec.addr + 20))) none with
      | none => rw [walk] at ok; simp at ok
      | some stop =>
        obtain rfl := unique _ _ _ walk
        rw [walk] at ok
        simp only [if_neg there] at ok
        exact (Option.some.inj ok).symm
  · refine ⟨enough + 1,fun lookup turns le => ?_⟩
    obtain ⟨stop,walk⟩ := ends turns none (by omega)
    obtain rfl := unique _ _ _ walk
    obtain ⟨more,rfl⟩ := Nat.exists_eq_add_of_le' (Nat.le_trans (Nat.le_add_left 1 enough) le)
    rw [ntfsAttrLookup,if_neg end',lookupAgain,walk]
    simp only [if_neg there]

theorem blockStep {blkSize a k : Nat} (some' : 0 < blkSize) (next : k < blkSize - a % blkSize ∨ k - (blkSize - a % blkSize) < blkSize) :
    (if k < blkSize - a % blkSize then (a / blkSize,a % blkSize + k) else (a / blkSize + 1,k - (blkSize - a % blkSize))) =
      ((a + k) / blkSize,(a + k) % blkSize) := by
  have split := Nat.div_add_mod a blkSize
  have less := Nat.mod_lt a some'
  by_cases low : k < blkSize - a % blkSize
  · obtain ⟨div,mod⟩ := (Nat.div_mod_unique some').mpr (⟨by omega,by omega⟩ :
      a % blkSize + k + blkSize*(a / blkSize) = a + k ∧ a % blkSize + k < blkSize)
    rw [if_pos low,div,mod]
  · obtain ⟨div,mod⟩ := (Nat.div_mod_unique some').mpr (⟨by rw [Nat.mul_add]; omega,by omega⟩ :
      k - (blkSize - a % blkSize) + blkSize*(a / blkSize + 1) = a + k ∧ k - (blkSize - a % blkSize) < blkSize)
    rw [if_neg low,div,mod]

def Starts (vol : Volume) (runs : List Run) (file lcn : Nat) : Prop :=
  if file*vol.mftRecordSize % 2^32 % vol.blockSize = 0 then
    lcn*vol.clustSize = streamAddr vol runs (file*vol.mftRecordSize)
  else lcn*vol.clustSize / vol.blockSize = streamAddr vol runs (file*vol.mftRecordSize) / vol.blockSize ∧
    streamAddr vol runs (file*vol.mftRecordSize) % vol.blockSize = file*vol.mftRecordSize % 2^32 % vol.blockSize

def startOffset (vol : Volume) (file lcn : Nat) : Nat :=
  if file*vol.mftRecordSize % 2^32 % vol.blockSize = 0 then lcn*vol.clustSize % vol.blockSize
  else file*vol.mftRecordSize % 2^32 % vol.blockSize

theorem startsAt {runs : List Run} {lcn : Nat} : Starts vol runs file lcn ↔
    (lcn*vol.clustSize / vol.blockSize,startOffset vol file lcn) =
      (streamAddr vol runs (file*vol.mftRecordSize) / vol.blockSize,
        streamAddr vol runs (file*vol.mftRecordSize) % vol.blockSize) := by
  unfold Starts startOffset
  rw [Prod.mk.injEq]
  split_ifs
  · constructor
    · intro same
      rw [same]
      exact ⟨rfl,rfl⟩
    · rintro ⟨div,mod⟩
      rw [← Nat.div_add_mod (lcn*vol.clustSize) vol.blockSize,div,mod,Nat.div_add_mod]
  · exact and_congr_right fun _ => eq_comm

theorem mftRecordReadAt {α : Type} (content : Nat → Nat → α) (buf : Nat → α) {lcn : Nat}
    (small : lcn*vol.clustSize < 2^64) (i : Nat) : mftRecordRead vol content buf file lcn i =
      if i < vol.mftRecordSize then
        if i < vol.blockSize - startOffset vol file lcn then
          content (lcn*vol.clustSize / vol.blockSize) (startOffset vol file lcn + i)
        else content (lcn*vol.clustSize / vol.blockSize + 1) (i - (vol.blockSize - startOffset vol file lcn))
      else buf i := by
  have inside : startOffset vol file lcn < vol.blockSize := by
    unfold startOffset
    split_ifs
    · exact Nat.mod_lt _ (blockPos vol)
    · exact Nat.mod_lt _ (blockPos vol)
  rw [mftRecordRead,Nat.mod_eq_of_lt small]
  refine ntfsReadAt vol content buf ?_ inside i
  rw [startOffset,Nat.mod_eq_of_lt small]

theorem recordContent {α : Type} (content : Nat → Nat → α) (buf : Nat → α) {runs : List Run} {lcn : Nat}
    (small : lcn*vol.clustSize < 2^64) (starts : Starts vol runs file lcn) (together : Together vol runs file) {k : Nat}
    (inside : k < vol.mftRecordSize) : mftRecordRead vol content buf file lcn k =
      content (streamAddr vol runs (file*vol.mftRecordSize + k) / vol.blockSize)
        (streamAddr vol runs (file*vol.mftRecordSize + k) % vol.blockSize) := by
  obtain ⟨block,offset⟩ := Prod.mk.inj (startsAt.1 starts)
  obtain ⟨piece,fits⟩ := together
  have less := Nat.mod_lt (streamAddr vol runs (file*vol.mftRecordSize)) (blockPos vol)
  have step := blockStep (k := k) (blockPos vol) (a := streamAddr vol runs (file*vol.mftRecordSize)) (by omega)
  rw [mftRecordReadAt content buf small,if_pos inside,block,offset,piece k inside]
  split_ifs at step ⊢
  · exact (congrArg (fun place : Nat × Nat => content place.1 place.2) step)
  · exact (congrArg (fun place : Nat × Nat => content place.1 place.2) step)

theorem recordPlaces {runs : List Run} {lcn : Nat} (small : lcn*vol.clustSize < 2^64) :
    (∀ buf k, k < vol.mftRecordSize → mftRecordRead vol Prod.mk buf file lcn k =
      (streamAddr vol runs (file*vol.mftRecordSize + k) / vol.blockSize,
        streamAddr vol runs (file*vol.mftRecordSize + k) % vol.blockSize)) ↔
    Starts vol runs file lcn ∧ Together vol runs file := by
  constructor
  · intro reads
    have read : ∀ k, k < vol.mftRecordSize →
        (if k < vol.blockSize - startOffset vol file lcn then
          (lcn*vol.clustSize / vol.blockSize,startOffset vol file lcn + k)
        else (lcn*vol.clustSize / vol.blockSize + 1,k - (vol.blockSize - startOffset vol file lcn))) =
        (streamAddr vol runs (file*vol.mftRecordSize + k) / vol.blockSize,
          streamAddr vol runs (file*vol.mftRecordSize + k) % vol.blockSize) := by
      intro k inside
      rw [← reads (fun _ => (0,0)) k inside,mftRecordReadAt Prod.mk _ small,if_pos inside]
    have less : startOffset vol file lcn < vol.blockSize := by
      unfold startOffset
      split_ifs
      · exact Nat.mod_lt _ (blockPos vol)
      · exact Nat.mod_lt _ (blockPos vol)
    have first := read 0 (mftRecordPos vol)
    rw [if_pos (by omega),Nat.add_zero,Nat.add_zero] at first
    obtain ⟨block,offset⟩ := Prod.mk.inj first
    rw [block,offset] at read
    refine ⟨startsAt.2 first,fun k inside => ?_,?_⟩
    · -- the number of the block and the place in it give the address
      have here := read k inside
      have a := Nat.div_add_mod (streamAddr vol runs (file*vol.mftRecordSize)) vol.blockSize
      have b := Nat.div_add_mod (streamAddr vol runs (file*vol.mftRecordSize + k)) vol.blockSize
      have low := Nat.mod_lt (streamAddr vol runs (file*vol.mftRecordSize)) (blockPos vol)
      split_ifs at here
      · obtain ⟨div,mod⟩ := Prod.mk.inj here
        rw [← div,← mod] at b
        omega
      · obtain ⟨div,mod⟩ := Prod.mk.inj here
        rw [← div,← mod,Nat.mul_add] at b
        omega
    · have last := read (vol.mftRecordSize - 1) (Nat.sub_lt (mftRecordPos vol) Nat.one_pos)
      have low := Nat.mod_lt (streamAddr vol runs (file*vol.mftRecordSize)) (blockPos vol)
      split_ifs at last with within
      · omega
      · obtain ⟨_,mod⟩ := Prod.mk.inj last
        have end' := Nat.mod_lt (streamAddr vol runs (file*vol.mftRecordSize + (vol.mftRecordSize - 1))) (blockPos vol)
        omega
  · rintro ⟨starts,together⟩ buf k inside
    exact recordContent Prod.mk buf small starts together inside

theorem recordLcnZero (lookup : Nat → Option (Option Record)) (turns : Nat) :
    recordLcn vol lookup turns 0 = some vol.mftLcn := by
  rw [recordLcn,Volume.recordVcn,if_pos (by simp)]

theorem startsZero (laid : MftLaid vol base more) : Starts vol (base ++ more) 0 vol.mftLcn := by
  rw [Starts,laid.first]
  simp [streamAddr]

theorem loadZero (laid : MftLaid vol base more) (together : Together vol (base ++ more) 0) :
    loadRecord vol 0 vol.mftLcn = checkRecord vol 0 (recordZero vol (base ++ more)) := by
  have small : vol.mftLcn*vol.clustSize < 2^64 := by
    rw [laid.first]
    exact lcnSmall laid.runs 0
  rw [loadRecord]
  refine congrArg (checkRecord vol 0) (funext fun i => ?_)
  rw [recordZero]
  split_ifs with inside
  · rw [recordContent vol.block _ small (startsZero laid) together inside]
    simp
  · rw [mftRecordReadAt vol.block _ small,if_neg inside]

theorem lookupZero (laid : MftLaid vol base more) (together : Together vol (base ++ more) 0) (some' : vol.mftLcn ≠ 0)
    (turns depth : Nat) :
    ntfsMftRecordLookupAny vol turns (depth + 1) 0 = some (checkRecord vol 0 (recordZero vol (base ++ more))) := by
  rw [ntfsMftRecordLookupAny,recordLcnZero,← loadZero laid together]
  split
  · contradiction
  · rename_i zero
    exact absurd (Option.some.inj zero) some'
  · rename_i lcn _ same
    rw [Option.some.inj same]

/- The LCN that the source goes by. -/
def foundLcn (vol : Volume) (base more : List Run) (file : Nat) : Nat :=
  if vol.recordVcn file = 0 ∨ vol.recordVcn file < clusters base then lcnAt (base ++ more) (vol.recordVcn file) else 0

theorem recordLcnData {lookup : Nat → Option (Option Record)} {turns attr : Nat} {mrec : Record} (far : vol.recordVcn file ≠ 0)
    (zero : lookup 0 = some (some mrec)) (file' : isDirectory mrec = false)
    (data : ntfsAttrLookup vol lookup atData mrec turns = some (some (mrec,attr))) (outside : nonResident mrec.mem attr) :
    recordLcn vol lookup turns file = findLcn mrec.mem (mappingPairs mrec.mem attr) (attrNext mrec.mem attr)
      (vol.recordVcn file) turns 0 mappingChunkInit := by
  rw [recordLcn,if_neg far,zero]
  simp only [file',Bool.false_eq_true,if_false]
  rw [data]
  simp only [outside,if_true]

theorem recordLcnWaits {lookup : Nat → Option (Option Record)} {turns : Nat} {mrec : Record} (far : vol.recordVcn file ≠ 0)
    (zero : lookup 0 = some (some mrec)) (file' : isDirectory mrec = false)
    (data : ntfsAttrLookup vol lookup atData mrec turns = none) : recordLcn vol lookup turns file = none := by
  rw [recordLcn,if_neg far,zero]
  simp only [file',Bool.false_eq_true,if_false]
  rw [data]

theorem recordLcnValue (laid : MftLaid vol base more) (some' : vol.mftLcn ≠ 0)
    (zero : vol.recordVcn file = 0 ∨ Together vol (base ++ more) 0) :
    (∀ turns depth lcn, recordLcn vol (ntfsMftRecordLookupAny vol turns depth) turns file = some lcn →
      lcn = foundLcn vol base more file) ∧
    ∃ turns depth, recordLcn vol (ntfsMftRecordLookupAny vol turns depth) turns file =
      some (foundLcn vol base more file) := by
  by_cases first : vol.recordVcn file = 0
  · have value : foundLcn vol base more file = vol.mftLcn := by rw [foundLcn,if_pos (Or.inl first),first,laid.first]
    refine ⟨fun turns depth lcn ok => ?_,0,0,?_⟩
    · rw [recordLcn,if_pos first] at ok
      rw [value,Option.some.inj ok]
    · rw [recordLcn,if_pos first,value]
  · have together := zero.resolve_left first
    obtain ⟨mrec,attr,check,file',walk,outside,encoded⟩ := laid.zero
    have value : foundLcn vol base more file = lcnAt base (vol.recordVcn file - 0) := by
      rw [foundLcn,lcnAppend,Nat.sub_zero]
      split_ifs with mapped inside
      · rfl
      · exact absurd (mapped.resolve_left first) inside
      · exact (lcnOutside (Nat.le_of_not_lt fun h => mapped (Or.inr h))).symm
    obtain ⟨unique,enough,ends⟩ := lookupFirst vol (by decide) (by decide) walk
    have size : 0 + clusters base < 2^64 := by
      have total : clusters base ≤ clusters (base ++ more)*vol.clustSize := by
        refine Nat.le_trans ?_ (Nat.le_mul_of_pos_right _ (clustPos vol))
        simp [clusters]
      have := laid.size
      omega
    have runs : ∀ turns, findLcn mrec.mem (mappingPairs mrec.mem attr) (attrNext mrec.mem attr) (vol.recordVcn file)
          turns 0 mappingChunkInit = some (lcnAt base (vol.recordVcn file - 0)) ∨
        findLcn mrec.mem (mappingPairs mrec.mem attr) (attrNext mrec.mem attr) (vol.recordVcn file)
          turns 0 mappingChunkInit = none ∧ turns ≤ base.length := fun turns =>
      findLcnRuns (fun run mem => laid.runs run (List.mem_append_left _ mem)) (Nat.mod_lt _ (by norm_num)) encoded
        (Nat.zero_le _) size
    rw [value]
    constructor
    · intro turns depth lcn ok
      cases depth with
      | zero =>
        rw [recordLcn,if_neg first,ntfsMftRecordLookupAny] at ok
        cases ok
      | succ depth =>
        have loaded := lookupZero laid together some' turns depth
        rw [check] at loaded
        cases data : ntfsAttrLookup vol (ntfsMftRecordLookupAny vol turns (depth + 1)) atData mrec turns with
        | none =>
          rw [recordLcnWaits first loaded file' data] at ok
          cases ok
        | some found =>
          rw [unique _ turns found data] at data
          rw [recordLcnData first loaded file' data outside] at ok
          rcases runs turns with same | none'
          · rw [same] at ok
            exact (Option.some.inj ok).symm
          · rw [none'.1] at ok
            cases ok
    · have loaded := lookupZero laid together some' (enough + base.length + 1) 0
      rw [check] at loaded
      refine ⟨enough + base.length + 1,1,?_⟩
      rw [recordLcnData first loaded file' (ends _ _ (by omega)) outside]
      rcases runs (enough + base.length + 1) with same | none'
      · exact same
      · exact absurd none'.2 (by omega)

/- A record of more than two blocks is never read. -/
theorem recordLarge {runs : List Run} (large : 2*vol.blockSize < vol.mftRecordSize) : ¬ ReadsRecord vol runs file := by
  rintro ⟨turns,depth,lcn,_,_,reads⟩
  have last := reads (fun _ => (0,0)) (vol.mftRecordSize - 1) (Nat.sub_lt (mftRecordPos vol) Nat.one_pos)
  have end' := Nat.mod_lt (streamAddr vol runs (file*vol.mftRecordSize + (vol.mftRecordSize - 1))) (blockPos vol)
  obtain ⟨off,start,inside⟩ : ∃ off, off = (if file*vol.mftRecordSize % 2^32 % vol.blockSize = 0 then
      lcn*vol.clustSize % 2^64 % vol.blockSize else file*vol.mftRecordSize % 2^32 % vol.blockSize) ∧ off < vol.blockSize := by
    refine ⟨_,rfl,?_⟩
    split_ifs
    · exact Nat.mod_lt _ (blockPos vol)
    · exact Nat.mod_lt _ (blockPos vol)
  rw [mftRecordRead,ntfsReadAt vol Prod.mk _ start inside,if_pos (by omega),if_neg (by omega)] at last
  have mod := congrArg Prod.snd last
  simp only at mod
  omega

/- A record is read from its place just when the 32 bits of its position and the LCN of their
cluster give this place, and it lies within two blocks there; record 0 has to be read before
it, unless the cluster is the first one. -/
theorem recordRead (laid : MftLaid vol base more)
    (inside : (file + 1)*vol.mftRecordSize ≤ clusters (base ++ more)*vol.clustSize)
    (zero : vol.recordVcn file = 0 ∨ Together vol (base ++ more) 0 ∨ 2*vol.blockSize < vol.mftRecordSize) :
    ReadsRecord vol (base ++ more) file ↔ Located vol base more file := by
  have record := mftRecordPos vol
  have vcn : vol.recordVcn file < clusters (base ++ more) := by
    rw [Volume.recordVcn,Nat.div_lt_iff_lt_mul (clustPos vol)]
    refine Nat.lt_of_le_of_lt (Nat.mod_le _ _) (Nat.lt_of_lt_of_le ?_ inside)
    rw [Nat.add_mul]
    omega
  by_cases large : 2*vol.blockSize < vol.mftRecordSize
  · refine iff_of_false (recordLarge large) ?_
    rintro ⟨_,_,_,fits⟩
    omega
  · have some' : vol.mftLcn ≠ 0 := by
      rw [laid.first]
      exact Nat.ne_of_gt (lcnInside laid.runs (by omega))
    obtain ⟨unique,turns,depth,found⟩ := recordLcnValue laid some' (by tauto)
    have small : lcnAt (base ++ more) (vol.recordVcn file)*vol.clustSize < 2^64 := lcnSmall laid.runs _
    constructor
    · rintro ⟨turns,depth,lcn,ok,positive,reads⟩
      obtain rfl := unique turns depth lcn ok
      unfold foundLcn at positive reads
      split_ifs at positive reads with mapped
      · exact ⟨mapped,(recordPlaces small).mp reads⟩
      · exact absurd rfl positive
    · rintro ⟨mapped,starts,together⟩
      have value : foundLcn vol base more file = lcnAt (base ++ more) (vol.recordVcn file) := if_pos mapped
      rw [value] at found
      refine ⟨turns,depth,_,found,Nat.ne_of_gt (lcnInside laid.runs vcn),?_⟩
      exact (recordPlaces small).mpr ⟨starts,together⟩

end

/- A record of 1024 bytes with a $DATA attribute of four clusters from an LCN on. -/
def baseRecord (lcn : UInt8) : List UInt8 :=
  [0x46,0x49,0x4c,0x45,48,0,1,0] ++ List.replicate 12 0 ++ [56,0,1,0] ++ List.replicate 32 0 ++
  [0x80,0,0,0,72,0,0,0,1] ++ List.replicate 23 0 ++ [64,0] ++ List.replicate 30 0 ++ [0x11,4,lcn,0] ++
  List.replicate 4 0 ++ [0xff,0xff,0xff,0xff]

/- Clusters of 2048 bytes, two to a block, and $MFT from an LCN on. -/
def smallVolume (lcn : UInt8) : Volume :=
  ntfsFsInit 9 ⟨4,-10,2,lcn.toNat⟩
    (fun blk offset => if blk*4096 + offset < lcn.toNat*2048 then 0
      else (baseRecord lcn).getD (blk*4096 + offset - lcn.toNat*2048) 0)
    (fun _ => 0) (fun _ => 0x100000) 0x200000

theorem smallLaid (lcn : UInt8) (mem : lcn = 3 ∨ lcn = 4) :
    MftLaid (smallVolume lcn) [.allocated lcn.toNat 4 1 1] [] := by
  refine ⟨?_,?_,?_,?_,?_⟩
  · rcases mem with rfl | rfl <;> decide
  · intro run mem
    obtain rfl := List.mem_singleton.mp mem
    rcases ‹lcn = 3 ∨ lcn = 4› with rfl | rfl
    · exact ⟨by decide,by decide⟩
    · exact ⟨by decide,by decide⟩
  · rcases mem with rfl | rfl <;> decide
  · rcases mem with rfl | rfl <;> decide
  · refine ⟨⟨0x100000,ntfsFixupsWriteback (smallVolume lcn) 0x100000 (placeBuffer (fun _ => 0) 0x100000
      (recordZero (smallVolume lcn) [.allocated lcn.toNat 4 1 1]))⟩,0x100038,?_,?_,firstAt ?_ ?_,?_,?_⟩
    · rw [checkRecord,if_neg (by rcases mem with rfl | rfl <;> decide),if_neg (by rcases mem with rfl | rfl <;> decide)]
      rfl
    · rcases mem with rfl | rfl <;> decide
    · rcases mem with rfl | rfl <;> decide
    · rcases mem with rfl | rfl <;> decide
    · rcases mem with rfl | rfl <;> decide
    · rcases mem with rfl | rfl <;> decide

set_option maxRecDepth 8000 in
theorem recordReadTwo : ReadsRecord (smallVolume 4) [.allocated 4 4 1 1] 2 := by
  refine (recordRead (smallLaid 4 (Or.inr rfl)) (by decide) (Or.inr (Or.inl ?_))).mpr ⟨?_,?_,?_⟩
  · exact ⟨by decide,by decide⟩
  · decide
  · decide
  · exact ⟨by decide,by decide⟩

/- $MFT begins in the second cluster of a block: record 1 is looked for a cluster too early. -/
theorem recordMissed : MftLaid (smallVolume 3) [.allocated 3 4 1 1] [] ∧ (1 + 1)*1024 ≤ 4*2048 ∧
    ¬ ReadsRecord (smallVolume 3) [.allocated 3 4 1 1] 1 := by
  refine ⟨smallLaid 3 (Or.inl rfl),by decide,?_⟩
  rintro ⟨turns,depth,lcn,ok,_,reads⟩
  rw [recordLcn,if_pos (by decide)] at ok
  obtain rfl := Option.some.inj ok
  obtain ⟨starts,_⟩ := (recordPlaces (by decide)).mp reads
  rw [Starts,if_neg (by decide)] at starts
  exact absurd starts.2 (by decide)
end Syslinux.Ntfs
