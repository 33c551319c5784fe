import Syslinux.Ext2Bmap
import Syslinux.Searchdir
import Syslinux.Walk

/-! The directories of core/fs/ext2/ext2.c: ext2_find_entry and ext2_readdir. The loops run
on lengths and pointers from the disk, so they have fuel, and `none` is a loop that is not
over; where they are over is told by what is on the disk. -/
namespace Syslinux.Ext2
open Fat (le16 le32 sub64)
open Searchdir (Bytes)

/- struct ext2_dir_entry. -/
structure DirEntry where
  dInode : Nat
  dRecLen : Nat
  dFileType : Nat
  dName : Bytes
  deriving DecidableEq, Repr

def entryAt (data : Nat → UInt8) (offset : Nat) : DirEntry :=
  ⟨le32 data offset,le16 data (offset + 4),(data (offset + 7)).toNat,
    (List.range (data (offset + 6)).toNat).map fun i => data (offset + 8 + i)⟩

def ext2MatchEntry (name : Bytes) (de : DirEntry) : Bool :=
  de.dInode ≠ 0 && name.length = de.dName.length && name = de.dName

@[grind =] def findInBlock (maxoffset : Nat) (dname : Bytes) (data : Nat → UInt8) : Nat → Nat → Option (Option DirEntry)
  | 0,_ => none
  | fuel+1,offset =>
      if offset < maxoffset - 8 then
        let de := entryAt data offset
        if maxoffset - offset < de.dRecLen then some none
        else if ext2MatchEntry dname de then some (some de)
        else findInBlock maxoffset dname data fuel (offset + de.dRecLen)
      else some none

/- The smaller of the block size and i - inode->size, a difference in 64 bits. -/
def maxOffset (v : Volume) (inode : Inode) (i : Nat) : Nat := min v.blockSize (sub64 i inode.size) % 2^32

@[grind =] def findInBlocks (v : Volume) (inode : Inode) (dname : Bytes) (fuel : Nat) : Nat → Nat → Nat → Option (Option DirEntry)
  | 0,_,_ => none
  | turns+1,index,i =>
      if i < inode.size then do
        let (pblock,_) ← ext2Bmap v inode fuel index
        match ← findInBlock (maxOffset v inode i) dname (v.getCache pblock) fuel 0 with
        | some de => some (some de)
        | none => findInBlocks v inode dname fuel turns (index + 1) (add32 i v.blockSize)
      else some none

def ext2FindEntry (v : Volume) (inode : Inode) (dname : Bytes) (fuel : Nat) : Option (Option DirEntry) :=
  findInBlocks v inode dname fuel fuel 0 0

/- The way down a tree of index blocks, and from record to record through a block. -/
def descend (block : Nat) (eh : Nat → UInt8) : Option Nat :=
  match findTurn block eh with
  | .down blk => some blk
  | _ => none

def nextBlock (v : Volume) (block blk : Nat) : Option Nat := descend block (v.getCache blk)

def nextRecord (v : Volume) (data : Nat → UInt8) (offset : Nat) : Option Nat :=
  if offset < v.blockSize - 8 ∧ (entryAt data offset).dRecLen ≤ v.blockSize - offset then
    some (offset + (entryAt data offset).dRecLen)
  else none

def FindLeafEnds (v : Volume) (block : Nat) (eh : Nat → UInt8) : Prop := ∃ fuel, (ext4FindLeaf v block fuel eh).isSome

def FindEntryEnds (v : Volume) (inode : Inode) (dname : Bytes) : Prop := ∃ fuel, (ext2FindEntry v inode dname fuel).isSome

def IndexDistinct (v : Volume) (block : Nat) (eh : Nat → UInt8) : Prop :=
  ∀ first, descend block eh = some first → Walk.NoRepeat (nextBlock v block) first

/- The blocks of a directory: the search for each is over, no record that the walk through
the block comes to has length zero, and the counter of bytes does not wrap. -/
structure DirectoryEnds (v : Volume) (inode : Inode) : Prop where
  size : inode.size + v.blockSize ≤ 2^32
  mapped : ∀ index, index*v.blockSize < inode.size → inode.extentsFlag = true → IndexDistinct v index inode.iBlock
  records : ∀ index, index*v.blockSize < inode.size → ∀ fuel found, ext2Bmap v inode fuel index = some found →
    ∀ n offset, Walk.state (nextRecord v (v.getCache found.1)) 0 n = some offset → offset < v.blockSize - 8 →
      (entryAt (v.getCache found.1) offset).dRecLen ≠ 0

section
variable {v : Volume} {block : Nat}

theorem descendBound {eh : Nat → UInt8} {blk : Nat} (down : descend block eh = some blk) : blk < 2^48 := by
  unfold descend findTurn at down
  split at down
  · rename_i turn
    split at turn
    · contradiction
    · split at turn
      · contradiction
      · split at turn
        · contradiction
        · rename_i i _
          have high := le16Bound eh (12 + 12*i + 8)
          have low := le32Bound eh (12 + 12*i + 4)
          cases turn
          cases Option.some.inj down
          unfold eiLeaf
          omega
  · contradiction

theorem findLeafTurn (fuel : Nat) (eh : Nat → UInt8) : (ext4FindLeaf v block (fuel + 1) eh).isSome ↔
    ∀ blk, descend block eh = some blk → (ext4FindLeaf v block fuel (v.getCache blk)).isSome := by
  rw [ext4FindLeaf,descend]
  cases findTurn block eh <;> simp

theorem findLeafWalk (blk : Nat) : FindLeafEnds v block (v.getCache blk) ↔ Walk.Ends (nextBlock v block) blk := by
  constructor
  · rintro ⟨fuel,ends⟩
    induction fuel generalizing blk with
    | zero => simp [ext4FindLeaf] at ends
    | succ fuel ih =>
      rw [findLeafTurn] at ends
      cases step : nextBlock v block blk with
      | none => exact Walk.endsStop step
      | some down => exact (Walk.endsNext step).mpr (ih down (ends down step))
  · rintro ⟨n,none'⟩
    induction n generalizing blk with
    | zero => simp [Walk.state] at none'
    | succ n ih =>
      cases step : nextBlock v block blk with
      | none => exact ⟨1,(findLeafTurn 0 _).mpr fun down eq => by simp [nextBlock,eq] at step⟩
      | some down =>
        rw [Walk.stateNext step] at none'
        obtain ⟨fuel,ends⟩ := ih down none'
        refine ⟨fuel + 1,(findLeafTurn fuel _).mpr fun other eq => ?_⟩
        cases Option.some.inj (eq.symm.trans step)
        exact ends

theorem findLeafEnds (eh : Nat → UInt8) : FindLeafEnds v block eh ↔ IndexDistinct v block eh := by
  have walk : FindLeafEnds v block eh ↔ ∀ first, descend block eh = some first → Walk.Ends (nextBlock v block) first := by
    constructor
    · rintro ⟨fuel,ends⟩ first down
      cases fuel with
      | zero => simp [ext4FindLeaf] at ends
      | succ fuel => exact (findLeafWalk first).mp ⟨fuel,(findLeafTurn fuel eh).mp ends first down⟩
    · intro ends
      cases down : descend block eh with
      | none => exact ⟨1,(findLeafTurn 0 eh).mpr fun blk eq => by simp [down] at eq⟩
      | some first =>
        obtain ⟨fuel,enough⟩ := (findLeafWalk first).mpr (ends first down)
        refine ⟨fuel + 1,(findLeafTurn fuel eh).mpr fun blk eq => ?_⟩
        cases Option.some.inj (eq.symm.trans down)
        exact enough
  rw [walk,IndexDistinct]
  refine forall_congr' fun first => forall_congr' fun down => ⟨Walk.endsNoRepeat,?_⟩
  refine Walk.noRepeatEnds (Set.finite_lt_nat (2^48)) fun n blk here => ?_
  cases n with
  | zero => exact Option.some.inj here ▸ descendBound down
  | succ n =>
    obtain ⟨before,_,step⟩ := Option.bind_eq_some_iff.mp here
    exact descendBound step

end
section
variable {v : Volume} {inode : Inode} {dname : Bytes} {data : Nat → UInt8}

theorem maxOffsetEq {i : Nat} (large : v.blockShift ≤ 15) (word : inode.size < 2^32) (inside : i < inode.size) :
    maxOffset v inode i = v.blockSize := by
  have most := Nat.pow_le_pow_right (show 0 < 2 by decide) large
  unfold maxOffset sub64 Volume.blockSize
  rw [Nat.min_eq_left (by omega),Nat.mod_eq_of_lt (by omega)]

theorem indexWord {index : Nat} (word : inode.size < 2^32) (inside : index*v.blockSize < inode.size) : index < 2^32 :=
  Nat.lt_of_le_of_lt (Nat.le_mul_of_pos_right _ (Nat.two_pow_pos _)) (Nat.lt_trans inside word)

theorem findInBlockMore {maxoffset fuel offset : Nat} {found : Option DirEntry}
    (ends : findInBlock maxoffset dname data fuel offset = some found) (more : Nat) :
    findInBlock maxoffset dname data (fuel + more) offset = some found := by
  induction fuel generalizing offset with
  | zero => simp [findInBlock] at ends
  | succ fuel ih =>
    rw [Nat.succ_add,findInBlock]
    rw [findInBlock] at ends
    split
    · rename_i inside
      rw [if_pos inside] at ends
      simp only at ends ⊢
      split
      · rename_i large
        rwa [if_pos large] at ends
      · rename_i fits
        rw [if_neg fits] at ends
        split
        · rename_i same
          rwa [if_pos same] at ends
        · rename_i other
          rw [if_neg other] at ends
          exact ih ends
    · rename_i outside
      rwa [if_neg outside] at ends

theorem bmapMore {fuel index : Nat} {found : Nat × Nat} (ends : ext2Bmap v inode fuel index = some found) (more : Nat) :
    ext2Bmap v inode (fuel + more) index = some found := by
  unfold ext2Bmap at *
  split
  · rename_i flag
    rw [if_pos flag] at ends
    obtain ⟨leaf,search,eq⟩ := Option.bind_eq_some_iff.mp ends
    exact Option.bind_eq_some_iff.mpr ⟨leaf,findLeafMore search more,eq⟩
  · rename_i flag
    rwa [if_neg flag] at ends

theorem findInBlockEnds (dname : Bytes) {offset : Nat} (ends : Walk.Ends (nextRecord v data) offset) :
    ∃ fuel found, findInBlock v.blockSize dname data fuel offset = some found := by
  obtain ⟨n,none'⟩ := ends
  induction n generalizing offset with
  | zero => simp [Walk.state] at none'
  | succ n ih =>
    by_cases inside : offset < v.blockSize - 8
    · by_cases large : v.blockSize - offset < (entryAt data offset).dRecLen
      · exact ⟨1,none,by rw [findInBlock,if_pos inside]; exact if_pos large⟩
      · have step : nextRecord v data offset = some (offset + (entryAt data offset).dRecLen) :=
          if_pos ⟨inside,Nat.le_of_not_lt large⟩
        rw [Walk.stateNext step] at none'
        obtain ⟨fuel,found,eq⟩ := ih none'
        by_cases same : ext2MatchEntry dname (entryAt data offset)
        · exact ⟨1,some (entryAt data offset),by rw [findInBlock,if_pos inside]; simp only [if_neg large,if_pos same]⟩
        · exact ⟨fuel + 1,found,by rw [findInBlock,if_pos inside]; simp only [if_neg large,if_neg same,eq]⟩
    · exact ⟨1,none,by rw [findInBlock,if_neg inside]⟩

theorem longName {de : DirEntry} {offset : Nat} (long : 256 ≤ dname.length) (here : de = entryAt data offset) :
    ext2MatchEntry dname de = false := by
  have short := (data (offset + 6)).toNat_lt
  have differ : dname.length ≠ de.dName.length := by
    rw [here]
    simp only [entryAt,List.length_map,List.length_range]
    omega
  simp [ext2MatchEntry,differ]

theorem findInBlockLong (long : 256 ≤ dname.length) {fuel offset : Nat} {found : Option DirEntry}
    (ends : findInBlock v.blockSize dname data fuel offset = some found) :
    found = none ∧ Walk.Ends (nextRecord v data) offset := by
  induction fuel generalizing offset with
  | zero => simp [findInBlock] at ends
  | succ fuel ih =>
    rw [findInBlock] at ends
    by_cases inside : offset < v.blockSize - 8
    · rw [if_pos inside] at ends
      simp only [longName long rfl,Bool.false_eq_true,if_false] at ends
      by_cases large : v.blockSize - offset < (entryAt data offset).dRecLen
      · rw [if_pos large] at ends
        exact ⟨(Option.some.inj ends).symm,Walk.endsStop (if_neg fun both => by omega)⟩
      · rw [if_neg large] at ends
        obtain ⟨none',walk⟩ := ih ends
        have step : nextRecord v data offset = some (offset + (entryAt data offset).dRecLen) :=
          if_pos ⟨inside,Nat.le_of_not_lt large⟩
        exact ⟨none',(Walk.endsNext step).mpr walk⟩
    · rw [if_neg inside] at ends
      exact ⟨(Option.some.inj ends).symm,Walk.endsStop (if_neg fun both => inside both.1)⟩

theorem recordsEnd (data : Nat → UInt8) : Walk.Ends (nextRecord v data) 0 ↔
    ∀ n offset, Walk.state (nextRecord v data) 0 n = some offset → offset < v.blockSize - 8 →
      (entryAt data offset).dRecLen ≠ 0 := by
  constructor
  · intro ends n offset here inside zero
    have again : nextRecord v data offset = some offset := by
      rw [nextRecord,if_pos ⟨inside,by omega⟩,zero,Nat.add_zero]
    exact Walk.endsNoRepeat ends n (n + 1) offset (by omega) here (by rw [Walk.state,here]; exact again)
  · intro advance
    refine @Walk.measureEnds Nat (nextRecord v data) 0 (fun offset => ∃ n, Walk.state (nextRecord v data) 0 n = some offset)
      (fun offset => v.blockSize - offset) ?_ ⟨0,rfl⟩
    rintro offset next ⟨n,here⟩ step
    refine ⟨?_,n + 1,by rw [Walk.state,here]; exact step⟩
    unfold nextRecord at step
    split at step
    · rename_i both
      have positive := advance n offset here both.1
      cases Option.some.inj step
      omega
    · contradiction

theorem bmapExtentEnds (fuel index : Nat) :
    (bmapExtent v inode fuel index).isSome ↔ (ext4FindLeaf v index fuel inode.iBlock).isSome := by
  rw [bmapExtent]
  cases ext4FindLeaf v index fuel inode.iBlock with
  | none => rfl
  | some leaf =>
    simp only [Option.bind_eq_bind,Option.bind_some]
    cases leaf.bind (leafExtent index) with
    | none => rfl
    | some ext =>
      simp only
      generalize sub32 index ext.eeBlock = block
      by_cases short : ext.eeLen ≤ block
      · rw [if_pos short]
        rfl
      · rw [if_neg short]
        rfl

theorem bmapEnds {index : Nat} (word : index < 2^32) : (∃ fuel found, ext2Bmap v inode fuel index = some found) ↔
    (inode.extentsFlag = true → IndexDistinct v index inode.iBlock) := by
  rw [← findLeafEnds]
  by_cases flag : inode.extentsFlag = true
  · have map : ∀ fuel, ext2Bmap v inode fuel index = bmapExtent v inode fuel index := by
      intro fuel
      rw [ext2Bmap,if_pos flag,Nat.mod_eq_of_lt word]
    simp only [map,← Option.isSome_iff_exists,bmapExtentEnds]
    exact ⟨fun ends _ => ends,fun ends => ends flag⟩
  · refine ⟨fun _ extents => absurd extents flag,fun _ => ⟨0,BlockMap.bmapTraditional v.layout inode.pointers index,?_⟩⟩
    rw [ext2Bmap,if_neg flag]

theorem findInBlocksTurn (dname : Bytes) {fuel turns index i : Nat} {mapped : Nat × Nat} {found : Option DirEntry}
    (inside : i < inode.size) (map : ext2Bmap v inode fuel index = some mapped)
    (ends : findInBlock (maxOffset v inode i) dname (v.getCache mapped.1) fuel 0 = some found) :
    findInBlocks v inode dname fuel (turns + 1) index i = match found with
      | some de => some (some de)
      | none => findInBlocks v inode dname fuel turns (index + 1) (add32 i v.blockSize) := by
  rw [findInBlocks,if_pos inside,map]
  simp only [Option.bind_eq_bind,Option.bind_some,ends]
  cases found <;> rfl

theorem findInBlocksLong (long : 256 ≤ dname.length) (large : v.blockShift ≤ 15) (word : inode.size < 2^32)
    {fuel turns index i : Nat} (inside : i < inode.size) (ends : (findInBlocks v inode dname fuel turns index i).isSome) :
    ∃ less mapped, turns = less + 1 ∧ ext2Bmap v inode fuel index = some mapped ∧
      Walk.Ends (nextRecord v (v.getCache mapped.1)) 0 ∧
      (findInBlocks v inode dname fuel less (index + 1) (add32 i v.blockSize)).isSome := by
  cases turns with
  | zero => simp [findInBlocks] at ends
  | succ turns =>
    obtain ⟨found,eq⟩ := Option.isSome_iff_exists.mp ends
    rw [findInBlocks,if_pos inside] at eq
    obtain ⟨mapped,map,eq⟩ := Option.bind_eq_some_iff.mp eq
    obtain ⟨inBlock,search,eq⟩ := Option.bind_eq_some_iff.mp eq
    rw [maxOffsetEq large word inside] at search
    obtain ⟨rfl,walk⟩ := findInBlockLong long search
    exact ⟨turns,mapped,rfl,map,walk,Option.isSome_iff_exists.mpr ⟨found,eq⟩⟩

/- The counter of bytes is a multiple of the block size below 2^32: it does not reach a
size in the last block below 2^32. -/
theorem sizeEnds (long : 256 ≤ dname.length) (large : v.blockShift ≤ 15) (word : inode.size < 2^32)
    (ends : FindEntryEnds v inode dname) : inode.size + v.blockSize ≤ 2^32 := by
  by_contra beyond
  have whole : v.blockSize ∣ 2^32 := Nat.pow_dvd_pow 2 (by omega)
  obtain ⟨fuel,ends⟩ := ends
  have never : ∀ turns index i, i < 2^32 → v.blockSize ∣ i → ¬ (findInBlocks v inode dname fuel turns index i).isSome := by
    intro turns
    induction turns with
    | zero => simp [findInBlocks]
    | succ turns ih =>
      intro index i small multiple here
      have inside : i < inode.size := by
        have := Nat.le_of_dvd (by omega) (Nat.dvd_sub whole multiple)
        omega
      obtain ⟨less,_,eq,_,_,later⟩ := findInBlocksLong long large word inside here
      cases Nat.succ.inj eq
      exact ih (index + 1) _ (Nat.mod_lt _ (by decide))
        ((Nat.dvd_mod_iff whole).mpr (Nat.dvd_add multiple (Nat.dvd_refl _))) later
  exact never fuel 0 0 (by decide) (Nat.dvd_zero _) ends

theorem blocksReached (long : 256 ≤ dname.length) (large : v.blockShift ≤ 15) (word : inode.size < 2^32) {fuel : Nat}
    (ends : (ext2FindEntry v inode dname fuel).isSome) (index : Nat) (inside : index*v.blockSize < inode.size) :
    ∃ turns, (findInBlocks v inode dname fuel turns index (index*v.blockSize)).isSome := by
  induction index with
  | zero => exact ⟨fuel,by rw [Nat.zero_mul]; exact ends⟩
  | succ index ih =>
    rw [Nat.succ_mul] at inside ⊢
    obtain ⟨turns,here⟩ := ih (by omega)
    obtain ⟨less,_,_,_,_,later⟩ := findInBlocksLong long large word (by omega) here
    rw [add32Eq (by omega)] at later
    exact ⟨less,later⟩

/- With fuel enough for each block that is left, the search is over. -/
theorem blocksEnd (dname : Bytes) (large : v.blockShift ≤ 15) (word : inode.size < 2^32) (ok : DirectoryEnds v inode)
    (left index : Nat) (rest : inode.size ≤ (index + left)*v.blockSize) :
    ∃ least, ∀ more turns, left < turns →
      (findInBlocks v inode dname (least + more) turns index (index*v.blockSize)).isSome := by
  induction left generalizing index with
  | zero =>
    refine ⟨0,fun more turns less => ?_⟩
    obtain ⟨turns,rfl⟩ : ∃ k, turns = k + 1 := ⟨turns - 1,by omega⟩
    rw [findInBlocks,if_neg (by rw [Nat.add_zero] at rest; omega)]
    rfl
  | succ left ih =>
    by_cases inside : index*v.blockSize < inode.size
    · have size := ok.size
      obtain ⟨first,mapped,map⟩ := (bmapEnds (indexWord word inside)).mpr (ok.mapped index inside)
      obtain ⟨second,found,search⟩ := findInBlockEnds dname ((recordsEnd _).mpr (ok.records index inside first mapped map))
      obtain ⟨third,later⟩ := ih (index + 1) (by rw [show index + 1 + left = index + (left + 1) by omega]; exact rest)
      refine ⟨first + second + third,fun more turns less => ?_⟩
      obtain ⟨turns,rfl⟩ : ∃ k, turns = k + 1 := ⟨turns - 1,by omega⟩
      have map := bmapMore map (second + third + more)
      have search := findInBlockMore search (first + third + more)
      rw [show first + (second + third + more) = first + second + third + more by omega] at map
      rw [show second + (first + third + more) = first + second + third + more by omega] at search
      rw [findInBlocksTurn dname inside map (by rw [maxOffsetEq large word inside]; exact search)]
      cases found with
      | some de => rfl
      | none =>
        simp only
        rw [add32Eq (by omega),← Nat.succ_mul,show first + second + third + more = third + (first + second + more) by omega]
        exact later _ turns (by omega)
    · refine ⟨0,fun more turns less => ?_⟩
      obtain ⟨turns,rfl⟩ : ∃ k, turns = k + 1 := ⟨turns - 1,by omega⟩
      rw [findInBlocks,if_neg inside]
      rfl

theorem findEntryEnds (large : v.blockShift ≤ 15) (word : inode.size < 2^32) :
    (∀ dname, FindEntryEnds v inode dname) ↔ DirectoryEnds v inode := by
  have long : 256 ≤ (List.replicate 256 (97 : UInt8)).length := by rw [List.length_replicate]
  constructor
  · intro ends
    obtain ⟨fuel,ends'⟩ := ends (List.replicate 256 97)
    have turn : ∀ index, index*v.blockSize < inode.size → ∃ mapped, ext2Bmap v inode fuel index = some mapped ∧
        Walk.Ends (nextRecord v (v.getCache mapped.1)) 0 := by
      intro index inside
      obtain ⟨turns,here⟩ := blocksReached long large word ends' index inside
      obtain ⟨_,mapped,_,map,walk,_⟩ := findInBlocksLong long large word inside here
      exact ⟨mapped,map,walk⟩
    refine ⟨sizeEnds long large word ⟨fuel,ends'⟩,?_,?_⟩
    · intro index inside
      obtain ⟨mapped,map,_⟩ := turn index inside
      exact (bmapEnds (indexWord word inside)).mp ⟨fuel,mapped,map⟩
    · intro index inside other found map
      obtain ⟨mapped,map',walk⟩ := turn index inside
      have same : found = mapped := by
        have := bmapMore map fuel
        rw [Nat.add_comm,bmapMore map' other] at this
        exact (Option.some.inj this).symm
      rw [same]
      exact (recordsEnd _).mp walk
  · intro ok dname
    obtain ⟨least,ends⟩ := blocksEnd dname large word ok inode.size 0 (by
      rw [Nat.zero_add]
      exact Nat.le_mul_of_pos_right _ (Nat.two_pow_pos _))
    refine ⟨least + (inode.size + 1),?_⟩
    have := ends (inode.size + 1) (least + (inode.size + 1)) (by omega)
    rwa [Nat.zero_mul] at this

end

section
variable {v : Volume} {inode : Inode} {dname : Bytes} {data : Nat → UInt8}

theorem bmapOnly {fuel fuel' index : Nat} {found found' : Nat × Nat} (map : ext2Bmap v inode fuel index = some found)
    (map' : ext2Bmap v inode fuel' index = some found') : found = found' := by
  have more := bmapMore map fuel'
  rw [Nat.add_comm,bmapMore map' fuel] at more
  exact (Option.some.inj more).symm

inductive Tiled (v : Volume) (data : Nat → UInt8) : Nat → List DirEntry → Prop
  | nil : Tiled v data v.blockSize []
  | cons {offset rest} (least : 12 ≤ (entryAt data offset).dRecLen) (align : 4 ∣ (entryAt data offset).dRecLen)
      (name : 8 + (entryAt data offset).dName.length ≤ (entryAt data offset).dRecLen)
      (behind : Tiled v data (offset + (entryAt data offset).dRecLen) rest) :
      Tiled v data offset (entryAt data offset::rest)

/- A directory whose blocks are there and are filled with records, deleted ones included. -/
structure Directory (v : Volume) (inode : Inode) (blocks : List (List DirEntry)) : Prop where
  size : inode.size = blocks.length*v.blockSize
  mapped : ∀ index, (inside : index < blocks.length) →
    ∃ fuel found, ext2Bmap v inode fuel index = some found ∧ Tiled v (v.getCache found.1) 0 blocks[index]

theorem tiledBound {offset : Nat} {recs : List DirEntry} (tiled : Tiled v data offset recs) : offset ≤ v.blockSize := by
  induction tiled with
  | nil => exact Nat.le_refl _
  | cons least align name behind ih => omega

theorem tiledEnds {offset : Nat} {recs : List DirEntry} (tiled : Tiled v data offset recs) :
    Walk.Ends (nextRecord v data) offset := by
  induction tiled with
  | nil => exact Walk.endsStop (if_neg fun both => by omega)
  | cons least align name behind ih =>
    rename_i offset rest
    have bound := tiledBound behind
    have step : nextRecord v data offset = some (offset + (entryAt data offset).dRecLen) :=
      if_pos ⟨by omega,by omega⟩
    exact (Walk.endsNext step).mpr ih

theorem findInBlockTiled {fuel offset : Nat} {recs : List DirEntry} {found : Option DirEntry} (tiled : Tiled v data offset recs)
    (search : findInBlock v.blockSize dname data fuel offset = some found) : found = recs.find? (ext2MatchEntry dname) := by
  induction tiled generalizing fuel with
  | nil =>
    cases fuel with
    | zero => simp [findInBlock] at search
    | succ fuel =>
      rw [findInBlock,if_neg (by omega)] at search
      exact (Option.some.inj search).symm
  | cons least align name behind ih =>
    rename_i offset rest
    have bound := tiledBound behind
    cases fuel with
    | zero => simp [findInBlock] at search
    | succ fuel =>
      rw [findInBlock,if_pos (by omega)] at search
      simp only at search
      rw [if_neg (by omega)] at search
      rw [List.find?_cons]
      cases same : ext2MatchEntry dname (entryAt data offset) with
      | true =>
        rw [same,if_pos rfl] at search
        exact (Option.some.inj search).symm
      | false =>
        rw [same,if_neg (by decide)] at search
        exact ih search

variable {blocks : List (List DirEntry)} (dir : Directory v inode blocks) (large : v.blockShift ≤ 15) (word : inode.size < 2^32)
include dir

theorem blockInside {index : Nat} (inside : index < blocks.length) : index*v.blockSize + v.blockSize ≤ inode.size := by
  rw [dir.size,← Nat.succ_mul]
  exact Nat.mul_le_mul_right _ inside

theorem blockTiled {index fuel : Nat} {found : Nat × Nat} (inside : index < blocks.length)
    (map : ext2Bmap v inode fuel index = some found) : Tiled v (v.getCache found.1) 0 blocks[index] := by
  obtain ⟨_,_,map',tiled⟩ := dir.mapped index inside
  rwa [bmapOnly map map']

theorem insideBlock {index : Nat} : index*v.blockSize < inode.size ↔ index < blocks.length := by
  rw [dir.size]
  exact Nat.mul_lt_mul_right (Nat.two_pow_pos _)

include large word

theorem wholeSize : inode.size + v.blockSize ≤ 2^32 := by
  have whole : v.blockSize ∣ 2^32 := Nat.pow_dvd_pow 2 (by omega)
  have multiple : v.blockSize ∣ inode.size := ⟨blocks.length,by rw [dir.size,Nat.mul_comm]⟩
  have := Nat.le_of_dvd (by omega) (Nat.dvd_sub whole multiple)
  omega

theorem directoryEnds : DirectoryEnds v inode := by
  refine ⟨wholeSize dir large word,?_,?_⟩
  · intro index inside
    have here := (insideBlock dir).mp inside
    obtain ⟨fuel,found,map,_⟩ := dir.mapped index here
    exact (bmapEnds (indexWord word inside)).mp ⟨fuel,found,map⟩
  · intro index inside fuel found map
    exact (recordsEnd _).mp (tiledEnds (blockTiled dir ((insideBlock dir).mp inside) map))

theorem findInBlocksTiled {fuel turns index : Nat} {found : Option DirEntry} (le : index ≤ blocks.length)
    (search : findInBlocks v inode dname fuel turns index (index*v.blockSize) = some found) :
    found = (blocks.drop index).flatten.find? (ext2MatchEntry dname) := by
  induction turns generalizing index with
  | zero => simp [findInBlocks] at search
  | succ turns ih =>
    by_cases inside : index < blocks.length
    · have bound := blockInside dir inside
      have most := wholeSize dir large word
      have here := (insideBlock dir).mpr inside
      rw [findInBlocks,if_pos here,maxOffsetEq large word here] at search
      obtain ⟨mapped,map,search⟩ := Option.bind_eq_some_iff.mp search
      obtain ⟨inBlock,first,search⟩ := Option.bind_eq_some_iff.mp search
      have eq := findInBlockTiled (blockTiled dir inside map) first
      rw [List.drop_eq_getElem_cons inside,List.flatten_cons,List.find?_append,← eq]
      cases inBlock with
      | some de => exact (Option.some.inj search).symm
      | none =>
        simp only at search
        rw [add32Eq (by omega),← Nat.succ_mul] at search
        exact ih inside search
    · rw [findInBlocks,if_neg (by rw [insideBlock dir]; exact inside)] at search
      rw [List.drop_eq_nil_of_le (by omega)]
      exact (Option.some.inj search).symm

theorem findEntryTiled (dname : Bytes) {fuel : Nat} {found : Option DirEntry}
    (search : ext2FindEntry v inode dname fuel = some found) : found = blocks.flatten.find? (ext2MatchEntry dname) := by
  have search' : findInBlocks v inode dname fuel fuel 0 (0*v.blockSize) = some found := by
    rw [Nat.zero_mul]
    exact search
  exact findInBlocksTiled dir large word (Nat.zero_le _) search'

theorem findEntryFound (dname : Bytes) :
    ∃ fuel, ext2FindEntry v inode dname fuel = some (blocks.flatten.find? (ext2MatchEntry dname)) := by
  obtain ⟨fuel,ends⟩ := (findEntryEnds large word).mpr (directoryEnds dir large word) dname
  obtain ⟨found,search⟩ := Option.isSome_iff_exists.mp ends
  exact ⟨fuel,by rw [search,findEntryTiled dir large word dname search]⟩

end
/- ext4_find_leaf and ext2_find_entry, for every contents of the disk. -/
theorem searchesEnd (v : Volume) (inode : Inode) (large : v.blockShift ≤ 15) (word : inode.size < 2^32) :
    ((∀ dname, FindEntryEnds v inode dname) ↔ DirectoryEnds v inode) ∧
      ∀ block eh, FindLeafEnds v block eh ↔ IndexDistinct v block eh :=
  ⟨findEntryEnds large word,fun _ eh => findLeafEnds eh⟩

/- A directory of one block, with the records of "a" and of "b". -/
def smallBlock (i : Nat) : UInt8 := ([2,0,0,0,12,0,1,2,97,0,0,0,3,0,0,0,0xf4,3,1,2,98] : List UInt8).getD i 0
def smallVolume : Volume := ⟨9,10,8,8192,8192,32,1,1,128,fun _ => smallBlock⟩
def smallDirectory : Inode := ⟨1024,0,fun i => if i = 0 then 9 else 0⟩

theorem smallTiled : Tiled smallVolume smallBlock 0 [⟨2,12,2,[97]⟩,⟨3,1012,2,[98]⟩] := by
  have first : entryAt smallBlock 0 = ⟨2,12,2,[97]⟩ := by decide
  have second : entryAt smallBlock 12 = ⟨3,1012,2,[98]⟩ := by decide
  rw [← first,← second]
  refine Tiled.cons (by decide) (by decide) (by decide) ?_
  exact Tiled.cons (by decide) (by decide) (by decide) Tiled.nil

theorem smallIsDirectory : Directory smallVolume smallDirectory [[⟨2,12,2,[97]⟩,⟨3,1012,2,[98]⟩]] := by
  refine ⟨by decide,fun index inside => ?_⟩
  cases Nat.lt_one_iff.mp inside
  exact ⟨0,(9,1),by decide,smallTiled⟩

theorem searchesEndSmall : FindEntryEnds smallVolume smallDirectory [99] :=
  (searchesEnd smallVolume smallDirectory (by decide) (by decide)).1.mpr
    (directoryEnds smallIsDirectory (by decide) (by decide)) [99]

def zeroVolume : Volume := ⟨9,10,8,8192,8192,32,1,1,128,fun _ _ => 0⟩
def holeDirectory : Inode := ⟨1024,0,fun _ => 0⟩

theorem searchesEndNot : ¬ ∀ (v : Volume) (inode : Inode), v.blockShift ≤ 15 → inode.size < 2^32 →
    (∀ dname, FindEntryEnds v inode dname) ∧ ∀ block eh, FindLeafEnds v block eh := by
  intro claim
  obtain ⟨fuel,ends⟩ := (claim zeroVolume holeDirectory (by decide) (by decide)).1 [97]
  have stays : ∀ fuel, findInBlock 1024 [97] (fun _ => 0) fuel 0 = none := by
    intro fuel
    induction fuel with
    | zero => rfl
    | succ fuel ih => exact ih
  cases fuel with
  | zero => contradiction
  | succ fuel =>
    have forever : ext2FindEntry zeroVolume holeDirectory [97] (fuel + 1) = none := by
      rw [ext2FindEntry,findInBlocks,if_pos (by decide)]
      exact Option.bind_eq_none_iff.mpr fun mapped map => by
        cases Option.some.inj map
        exact Option.bind_eq_none_iff.mpr fun found eq => absurd ((stays _).symm.trans eq) (by simp)
    rw [forever] at ends
    contradiction

end Syslinux.Ext2
