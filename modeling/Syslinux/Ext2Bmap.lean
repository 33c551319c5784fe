import Syslinux.BlockMap
import Syslinux.Ext2

/-! core/fs/ext2/bmap.c: a block of a file by its pointers or by its extents. ext4_find_leaf
follows the index blocks as long as there are any: it has fuel, and `none` is a search that
is not over. -/
namespace Syslinux.Ext2
open Fat (le16 le32)
open Getfssec (extentZero extentVoid)
open BlockMap

/- The size and flags of an inode, and the 60 bytes that are either its pointers or the
root of its extents. -/
structure Inode where
  size : Nat
  flags : Nat
  iBlock : Nat → UInt8

def ext4ExtMagic : Nat := 0xf30a
def ext4ExtentsFlag : Nat := 0x00080000

def Inode.extentsFlag (inode : Inode) : Bool := inode.flags / ext4ExtentsFlag % 2 = 1

def ehMagic (eh : Nat → UInt8) : Nat := le16 eh 0
def ehEntries (eh : Nat → UInt8) : Nat := le16 eh 2
def ehDepth (eh : Nat → UInt8) : Nat := le16 eh 6

/- struct ext4_extent_idx and struct ext4_extent `i` behind a header. -/
def eiBlock (eh : Nat → UInt8) (i : Nat) : Nat := le32 eh (12 + 12*i)
def eiLeaf (eh : Nat → UInt8) (i : Nat) : Nat := le16 eh (12 + 12*i + 8)*2^32 + le32 eh (12 + 12*i + 4)

structure ExtentRec where
  eeBlock : Nat
  eeLen : Nat
  eeStart : Nat
  deriving DecidableEq, Repr

def extentAt (eh : Nat → UInt8) (i : Nat) : ExtentRec :=
  ⟨le32 eh (12 + 12*i),le16 eh (12 + 12*i + 4),le16 eh (12 + 12*i + 6)*2^32 + le32 eh (12 + 12*i + 8)⟩

def firstAbove (key : Nat → Nat) (block : Nat) : Nat → Nat → Nat
  | 0,i => i
  | left+1,i => if block < key i then i else firstAbove key block left (i + 1)

inductive Turn where
  | null
  | leaf
  | down (blk : Nat)
  deriving DecidableEq, Repr

def findTurn (block : Nat) (eh : Nat → UInt8) : Turn :=
  if ehMagic eh ≠ ext4ExtMagic then .null
  else if ehDepth eh = 0 then .leaf
  else match firstAbove (eiBlock eh) block (ehEntries eh) 0 with
    | 0 => .null
    | i+1 => .down (eiLeaf eh i)

def ext4FindLeaf (v : Volume) (block : Nat) : Nat → (Nat → UInt8) → Option (Option (Nat → UInt8))
  | 0,_ => none
  | fuel+1,eh =>
      match findTurn block eh with
      | .null => some none
      | .leaf => some (some eh)
      | .down blk => ext4FindLeaf v block fuel (v.getCache blk)

def leafExtent (block : Nat) (leaf : Nat → UInt8) : Option ExtentRec :=
  match firstAbove (fun i => (extentAt leaf i).eeBlock) block (ehEntries leaf) 0 with
  | 0 => none
  | i+1 => some (extentAt leaf i)

/- A failure returns 0 and leaves *nblocks as the caller set it, 0. -/
def bmapExtent (v : Volume) (inode : Inode) (fuel block : Nat) : Option (Nat × Nat) := do
  let leaf ← ext4FindLeaf v block fuel inode.iBlock
  match leaf.bind (leafExtent block) with
  | none => some (0,0)
  | some ext =>
      let block := sub32 block ext.eeBlock
      if ext.eeLen ≤ block then some (0,0)
      else some (ext.eeStart + block,ext.eeLen - block)

def Volume.layout (v : Volume) : Layout := ⟨v.blockShift - 2,1,fun start i => le32 (v.getCache start) (4*i)⟩

def Inode.pointers (inode : Inode) : Pointers :=
  ⟨fun i => le32 inode.iBlock (4*i),le32 inode.iBlock 48,le32 inode.iBlock 52,le32 inode.iBlock 56⟩

def ext2Bmap (v : Volume) (inode : Inode) (fuel block : Nat) : Option (Nat × Nat) :=
  if inode.extentsFlag then bmapExtent v inode fuel (block % 2^32)
  else some (bmapTraditional v.layout inode.pointers block)

def Volume.blkToSec (v : Volume) : Nat := v.blockShift - v.sectorShift

def ext2NextExtent (v : Volume) (inode : Inode) (fuel lstart : Nat) : Option (Nat × Nat) := do
  let found ← ext2Bmap v inode fuel (lstart / 2^v.blkToSec)
  some (nextExtent v.blkToSec v.blkToSec found lstart)

/- The extents of a tree, in the order of its entries: an index entry holds the first block
of what is below it. -/
inductive Tree (v : Volume) : (Nat → UInt8) → List ExtentRec → Prop
  | leaf {eh} (magic : ehMagic eh = ext4ExtMagic) (depth : ehDepth eh = 0) :
      Tree v eh ((List.range (ehEntries eh)).map (extentAt eh))
  | index {eh child} (magic : ehMagic eh = ext4ExtMagic) (depth : ehDepth eh ≠ 0)
      (below : ∀ i, i < ehEntries eh → Tree v (v.getCache (eiLeaf eh i)) (child i))
      (first : ∀ i, i < ehEntries eh → (child i).head?.map ExtentRec.eeBlock = some (eiBlock eh i)) :
      Tree v eh ((List.range (ehEntries eh)).flatMap child)

/- A length above 2^15 is the length of an extent that is allocated but not written. -/
def initMaxLen : Nat := 2^15
def ExtentRec.blocks (e : ExtentRec) : Nat := if e.eeLen ≤ initMaxLen then e.eeLen else e.eeLen - initMaxLen

def ExtentRec.Before (a b : ExtentRec) : Prop := a.eeBlock + a.blocks ≤ b.eeBlock
def ExtentRec.Covers (e : ExtentRec) (block : Nat) : Prop := e.eeBlock ≤ block ∧ block < e.eeBlock + e.blocks
instance (e : ExtentRec) (block : Nat) : Decidable (e.Covers block) := by unfold ExtentRec.Covers; infer_instance

structure Extents (exts : List ExtentRec) : Prop where
  order : exts.Pairwise ExtentRec.Before
  some' : ∀ e ∈ exts, 0 < e.blocks
  real : ∀ e ∈ exts, e.eeStart ≠ 0

/- The block of the disk, 0 in a hole and in what is not written. -/
def extentBlock (exts : List ExtentRec) (block : Nat) : Nat :=
  match exts.find? (fun e => e.Covers block) with
  | none => 0
  | some e => if e.eeLen ≤ initMaxLen then e.eeStart + (block - e.eeBlock) else 0

def lastUpTo (exts : List ExtentRec) (block : Nat) : Option ExtentRec :=
  (exts.filter (fun e => e.eeBlock ≤ block)).getLast?

section
variable {exts : List ExtentRec} {block : Nat}

theorem lastUpToAppend (xs ys : List ExtentRec) (block : Nat) :
    lastUpTo (xs ++ ys) block = (lastUpTo ys block).or (lastUpTo xs block) := by
  rw [lastUpTo,List.filter_append,List.getLast?_append]
  rfl

theorem lastUpToNone (above : ∀ e ∈ exts, block < e.eeBlock) : lastUpTo exts block = none := by
  rw [lastUpTo,List.getLast?_eq_none_iff,List.filter_eq_nil_iff]
  intro e member
  simpa using above e member

theorem lastUpToSome {e : ExtentRec} (member : e ∈ exts) (below : e.eeBlock ≤ block) : (lastUpTo exts block).isSome := by
  rw [lastUpTo,List.getLast?_isSome]
  exact List.ne_nil_of_mem (List.mem_filter.mpr ⟨member,by simpa using below⟩)

theorem lastUpToMem {e : ExtentRec} (last : lastUpTo exts block = some e) : e ∈ exts ∧ e.eeBlock ≤ block := by
  simpa using List.mem_filter.mp (List.mem_of_getLast? last)

theorem lastUpToSingle (e : ExtentRec) (block : Nat) : lastUpTo [e] block = if e.eeBlock ≤ block then some e else none := by
  rw [lastUpTo,List.filter_singleton]
  by_cases below : e.eeBlock ≤ block <;> simp [below]

theorem coverEq (ok : exts.Pairwise ExtentRec.Before) (block : Nat) :
    exts.find? (fun e => e.Covers block) = (lastUpTo exts block).filter (fun e => e.Covers block) := by
  induction exts with
  | nil => rfl
  | cons e rest ih =>
    obtain ⟨before,ok⟩ := List.pairwise_cons.mp ok
    rw [List.find?_cons,← List.singleton_append,lastUpToAppend,lastUpToSingle,ih ok]
    by_cases covers : e.Covers block
    · have none' : lastUpTo rest block = none := by
        refine lastUpToNone fun x member => ?_
        have := before x member
        unfold ExtentRec.Before at this
        exact Nat.lt_of_lt_of_le covers.2 this
      simp [covers,none',covers.1,Option.filter]
    · cases lastUpTo rest block with
      | none => by_cases below : e.eeBlock ≤ block <;> simp [below,covers,Option.filter]
      | some x => simp [covers]

theorem findCover (ok : exts.Pairwise ExtentRec.Before) {e : ExtentRec} (member : e ∈ exts) (covers : e.Covers block) :
    exts.find? (fun e => e.Covers block) = some e := by
  induction exts with
  | nil => simp at member
  | cons x rest ih =>
    obtain ⟨before,ok⟩ := List.pairwise_cons.mp ok
    rcases List.mem_cons.mp member with rfl | inside
    · simp [covers]
    · have first := before e inside
      have not' : ¬ x.Covers block := by
        unfold ExtentRec.Covers ExtentRec.Before at *
        omega
      simp [not',ih ok inside]

theorem firstAboveSpec (key : Nat → Nat) (block left i : Nat) : i ≤ firstAbove key block left i ∧
    firstAbove key block left i ≤ i + left ∧ ∀ k, i ≤ k → k < firstAbove key block left i → key k ≤ block := by
  induction left generalizing i with
  | zero =>
    refine ⟨Nat.le_refl _,Nat.le_refl _,fun k low high => ?_⟩
    rw [firstAbove] at high
    omega
  | succ left ih =>
    rw [firstAbove]
    split
    · exact ⟨Nat.le_refl _,by omega,by omega⟩
    · rename_i below
      obtain ⟨low,high,passed⟩ := ih (i + 1)
      refine ⟨by omega,by omega,fun k less more => ?_⟩
      by_cases here : k = i
      · rw [here]
        omega
      · exact passed k (by omega) more

/- The search through the entries of a node finds the part of the list with that extent. -/
theorem lastUpToFlat {child : Nat → List ExtentRec} {key : Nat → Nat} (left i : Nat)
    (first : ∀ k, i ≤ k → k < i + left → (child k).head?.map ExtentRec.eeBlock = some (key k))
    (order : ((List.range' i left).flatMap child).Pairwise ExtentRec.Before) (block : Nat) :
    lastUpTo ((List.range' i left).flatMap child) block =
      if firstAbove key block left i = i then none else lastUpTo (child (firstAbove key block left i - 1)) block := by
  induction left generalizing i with
  | zero => simp [firstAbove,lastUpTo]
  | succ left ih =>
    have head : ∀ k, i ≤ k → k < i + (left + 1) → ∃ e rest, child k = e::rest ∧ e.eeBlock = key k := by
      intro k low high
      obtain ⟨e,is,eq⟩ := Option.map_eq_some_iff.mp (first k low high)
      obtain ⟨rest,split⟩ := List.head?_eq_some_iff.mp is
      exact ⟨e,rest,split,eq⟩
    obtain ⟨e,rest,eq,starts⟩ := head i (Nat.le_refl _) (by omega)
    rw [List.range'_succ,List.flatMap_cons] at order ⊢
    rw [firstAbove]
    by_cases above : block < key i
    · rw [if_pos above,if_pos rfl]
      refine lastUpToNone fun x member => ?_
      rw [eq,List.cons_append] at order member
      rcases List.mem_cons.mp member with rfl | behind
      · omega
      · have := (List.pairwise_cons.mp order).1 x behind
        unfold ExtentRec.Before at this
        omega
    · obtain ⟨low,high,passed⟩ := firstAboveSpec key block left (i + 1)
      rw [if_neg above,lastUpToAppend,ih (i + 1) (fun k low high => first k (by omega) (by omega))
        (List.pairwise_append.mp order).2.1,if_neg (show firstAbove key block left (i + 1) ≠ i by omega)]
      generalize firstAbove key block left (i + 1) = found at *
      by_cases here : found = i + 1
      · rw [if_pos here,here]
        rfl
      · obtain ⟨x,more,split,at'⟩ := head (found - 1) (by omega) (by omega)
        have some' : (lastUpTo (child (found - 1)) block).isSome := by
          refine lastUpToSome (e := x) (by simp [split]) ?_
          rw [at']
          exact passed (found - 1) (by omega) (by omega)
        rw [if_neg here]
        exact Option.or_of_isSome some'

end
section
variable {v : Volume} {block : Nat}

theorem findLeafMore {fuel : Nat} {eh : Nat → UInt8} {found : Option (Nat → UInt8)}
    (found' : ext4FindLeaf v block fuel eh = some found) (more : Nat) : ext4FindLeaf v block (fuel + more) eh = some found := by
  induction fuel generalizing eh with
  | zero => simp [ext4FindLeaf] at found'
  | succ fuel ih =>
    rw [Nat.succ_add,ext4FindLeaf]
    rw [ext4FindLeaf] at found'
    cases turn : findTurn block eh with
    | null => simpa [turn] using found'
    | leaf => simpa [turn] using found'
    | down blk =>
      simp only [turn] at found' ⊢
      exact ih found'

theorem leafExtentEq {eh : Nat → UInt8}
    (order : ((List.range (ehEntries eh)).map (extentAt eh)).Pairwise ExtentRec.Before) :
    leafExtent block eh = lastUpTo ((List.range (ehEntries eh)).map (extentAt eh)) block := by
  have flat : (List.range (ehEntries eh)).map (extentAt eh) =
      (List.range' 0 (ehEntries eh)).flatMap fun i => [extentAt eh i] := by
    rw [List.range_eq_range']
    induction List.range' 0 (ehEntries eh) with
    | nil => rfl
    | cons i rest ih => rw [List.map_cons,List.flatMap_cons,ih,List.singleton_append]
  rw [flat] at order ⊢
  rw [@lastUpToFlat _ (fun i => (extentAt eh i).eeBlock) _ 0 (fun k _ _ => rfl) order,leafExtent]
  obtain ⟨_,_,passed⟩ := firstAboveSpec (fun i => (extentAt eh i).eeBlock) block (ehEntries eh) 0
  generalize firstAbove (fun i => (extentAt eh i).eeBlock) block (ehEntries eh) 0 = found at *
  cases found with
  | zero => rfl
  | succ i => simp [lastUpToSingle,passed i (by omega) (by omega)]

theorem findLeafTree {eh : Nat → UInt8} {exts : List ExtentRec} (tree : Tree v eh exts)
    (order : exts.Pairwise ExtentRec.Before) :
    ∃ fuel leaf, ext4FindLeaf v block fuel eh = some leaf ∧ leaf.bind (leafExtent block) = lastUpTo exts block := by
  induction tree with
  | leaf magic depth =>
    rename_i eh
    refine ⟨1,some eh,by simp [ext4FindLeaf,findTurn,magic,depth],?_⟩
    exact leafExtentEq order
  | index magic depth below first ih =>
    rename_i eh child
    rw [List.range_eq_range'] at order ⊢
    rw [lastUpToFlat _ 0 (fun k _ inside => first k (by omega)) order]
    obtain ⟨_,high,_⟩ := firstAboveSpec (eiBlock eh) block (ehEntries eh) 0
    have turn : findTurn block eh = match firstAbove (eiBlock eh) block (ehEntries eh) 0 with
        | 0 => .null
        | i+1 => .down (eiLeaf eh i) := by simp [findTurn,magic,depth]
    generalize firstAbove (eiBlock eh) block (ehEntries eh) 0 = found at *
    cases found with
    | zero => exact ⟨1,none,by simp [ext4FindLeaf,turn],rfl⟩
    | succ i =>
      have part := (List.pairwise_flatMap.mp order).1 i (List.mem_range'_1.mpr (by omega))
      obtain ⟨fuel,leaf,found',last⟩ := ih i (by omega) part
      exact ⟨fuel + 1,leaf,by simpa [ext4FindLeaf,turn] using found',last⟩

end

/- The block and sector sizes that ext2 allows. -/
structure Volume.Mounted (v : Volume) : Prop where
  block : 10 ≤ v.blockShift ∧ v.blockShift ≤ 15
  sector : 9 ≤ v.sectorShift ∧ v.sectorShift ≤ v.blockShift

/- The extent of a sector, where `ref` is the reference for the blocks of the file. -/
def NextExtentRight (v : Volume) (inode : Inode) (ref : Nat → Nat) (lstart : Nat) : Prop :=
  ∃ fuel found next, ext2Bmap v inode fuel (lstart / 2^v.blkToSec) = some found ∧
    ext2NextExtent v inode fuel lstart = some next ∧ NextFollows ref v.blkToSec v.blkToSec lstart found next

theorem nextExtentOf {v : Volume} {inode : Inode} {fuel lstart : Nat} {found : Nat × Nat}
    (map : ext2Bmap v inode fuel (lstart / 2^v.blkToSec) = some found) :
    ext2NextExtent v inode fuel lstart = some (nextExtent v.blkToSec v.blkToSec found lstart) := by
  rw [ext2NextExtent,map]
  rfl

theorem nextExtentRightIff {v : Volume} {inode : Inode} {ref : Nat → Nat} {lstart : Nat} : NextExtentRight v inode ref lstart ↔
    ∃ fuel found, ext2Bmap v inode fuel (lstart / 2^v.blkToSec) = some found ∧ Follows ref v.blkToSec v.blkToSec lstart found := by
  constructor
  · rintro ⟨fuel,found,next,map,extent,follows⟩
    rw [nextExtentOf map] at extent
    cases Option.some.inj extent
    exact ⟨fuel,found,map,follows⟩
  · rintro ⟨fuel,found,map,follows⟩
    exact ⟨fuel,found,_,map,nextExtentOf map,follows⟩

/- Where the extent of a file of pointers is right: not in a hole whose pointer block is
missing, unless as many blocks from this one on are holes as the missing one would lead to. -/
def PointersRight (v : Volume) (inode : Inode) (lstart : Nat) : Prop :=
  ∀ size, locate v.layout inode.pointers (lstart / 2^v.blkToSec) = .missing size →
    (∀ j, j < size → blockAt v.layout inode.pointers (lstart / 2^v.blkToSec + j) = 0) ∧
    (size*2^v.blkToSec < 2^32 ∨ lstart % 2^v.blkToSec ≠ 0)

/- And of a file of extents: in a written extent, or where nothing but a hole follows. -/
def ExtentsRight (v : Volume) (exts : List ExtentRec) (lstart : Nat) : Prop :=
  match lastUpTo exts (lstart / 2^v.blkToSec) with
  | none => HoleToTheEnd (extentBlock exts) v.blkToSec lstart
  | some e =>
      if lstart / 2^v.blkToSec < e.eeBlock + e.eeLen then e.eeLen ≤ initMaxLen
      else HoleToTheEnd (extentBlock exts) v.blkToSec lstart

section
variable {v : Volume} {inode : Inode} {lstart : Nat}

theorem blkToSecBound (mounted : v.Mounted) : v.blkToSec ≤ 7 := by
  have := mounted.block
  have := mounted.sector
  unfold Volume.blkToSec
  omega

theorem orAligned (p r n : Nat) : p*2^n ||| r % 2^n = p*2^n + r % 2^n := by
  rw [Nat.mul_comm,Nat.two_pow_add_eq_or_of_lt (Nat.mod_lt _ (Nat.two_pow_pos n))]

theorem belowReach (mounted : v.Mounted) (small : inode.size < 2^32) (below : lstart*2^v.sectorShift < inode.size) :
    lstart / 2^v.blkToSec < reach v.layout := by
  obtain ⟨low,high⟩ := mounted.block
  have blocks : lstart / 2^v.blkToSec*2^v.blockShift ≤ lstart*2^v.sectorShift := by
    have split : 2^v.blockShift = 2^v.blkToSec*2^v.sectorShift := by
      rw [← Nat.pow_add,Volume.blkToSec,Nat.sub_add_cancel mounted.sector.2]
    rw [split,← Nat.mul_assoc]
    exact Nat.mul_le_mul_right _ (Nat.div_mul_le_self _ _)
  generalize lstart / 2^v.blkToSec = block at *
  unfold reach Volume.layout directBlocks
  simp only
  generalize v.blockShift = shift at *
  interval_cases shift <;> omega

theorem runTrue {index count blocks : Nat} {map : Nat → Nat} (word : blocks < 2^32)
    (real : ∀ j, j < count → map (index + j) < blocks) : RunTrue 1 1 map index count := by
  intro m inside run
  induction m with
  | zero => rfl
  | succ m ih =>
    have here := ih (by omega) fun j positive le => run j positive (by omega)
    have bound := real m (by omega)
    have next := run (m + 1) (by omega) (Nat.le_refl _)
    rw [Nat.mod_eq_of_lt (by omega)] at next
    exact next

theorem ext2Pointers (mounted : v.Mounted) (flag : inode.extentsFlag = false) {blocks : Nat} (word : blocks < 2^32)
    (real : ∀ b, blockAt v.layout inode.pointers b < blocks) (small : inode.size < 2^32)
    (below : lstart*2^v.sectorShift < inode.size) :
    NextExtentRight v inode (blockAt v.layout inode.pointers) lstart ↔ PointersRight v inode lstart := by
  have sectors := blkToSecBound mounted
  have found : ∀ fuel, ext2Bmap v inode fuel (lstart / 2^v.blkToSec) =
      some (bmapTraditional v.layout inode.pointers (lstart / 2^v.blkToSec)) := by
    intro fuel
    rw [ext2Bmap,flag]
    rfl
  have follows := @pointersFollow v.layout inode.pointers v.blkToSec v.blkToSec lstart
    (by have := mounted.block; simp only [Volume.layout]; omega) (by omega) (Nat.le_refl _)
    (by
      intro b
      have few := Nat.pow_le_pow_right (show 0 < 2 by decide) sectors
      have most := Nat.mul_le_mul (Nat.le_of_lt (Nat.lt_trans (real b) word)) few
      refine Nat.le_trans (Nat.add_le_add most few) (by decide))
  have inside := belowReach mounted small below
  have right : Right v.layout inode.pointers v.blkToSec v.blkToSec lstart ↔ PointersRight v inode lstart := by
    rw [Right,reached,if_pos inside,PointersRight]
    cases way : locate v.layout inode.pointers (lstart / 2^v.blkToSec) with
    | missing size => simp
    | entry map index count =>
      have run : RunTrue 1 1 map index count := runTrue word fun j less => by
        rw [← blockAtNext way less]
        exact real _
      have step : 2^(v.blkToSec - v.blkToSec) = 1 := by rw [Nat.sub_self,Nat.pow_zero]
      simp only [reduceCtorEq,false_imp_iff,implies_true,iff_true,step]
      exact Or.inr ⟨orAligned _ _ _,run⟩
    | beyond => exact absurd way (locateReached _ inside)
  rw [← right,← follows,nextExtentRightIff]
  simp only [found,Option.some.injEq]
  constructor
  · rintro ⟨fuel,found,rfl,right⟩
    exact right
  · exact fun right => ⟨0,_,rfl,right⟩

theorem le16Bound (data : Nat → UInt8) (i : Nat) : le16 data i < 2^16 := by
  have := (data i).toNat_lt
  have := (data (i + 1)).toNat_lt
  unfold le16
  omega

theorem le32Bound (data : Nat → UInt8) (i : Nat) : le32 data i < 2^32 := by
  have := le16Bound data i
  have := le16Bound data (i + 2)
  unfold le32
  omega

theorem treeBound {eh : Nat → UInt8} {exts : List ExtentRec} (tree : Tree v eh exts) {e : ExtentRec} (member : e ∈ exts) :
    e.eeLen < 2^16 ∧ e.eeStart < 2^48 := by
  induction tree with
  | @leaf eh _ _ =>
    obtain ⟨i,_,rfl⟩ := List.mem_map.mp member
    have high := le16Bound eh (12 + 12*i + 6)
    have low := le32Bound eh (12 + 12*i + 8)
    refine ⟨le16Bound _ _,?_⟩
    simp only [extentAt]
    omega
  | index _ _ _ _ ih =>
    obtain ⟨i,inside,here⟩ := List.mem_flatMap.mp member
    exact ih i (List.mem_range.mp inside) here

theorem extentBlockHere {exts : List ExtentRec} {block : Nat} (order : exts.Pairwise ExtentRec.Before)
    {e : ExtentRec} (member : e ∈ exts) (covers : e.Covers block) (written : e.eeLen ≤ initMaxLen) :
    extentBlock exts block = e.eeStart + (block - e.eeBlock) := by
  rw [extentBlock,findCover order member covers]
  exact if_pos written

theorem extentBlockUnwritten {exts : List ExtentRec} {block : Nat} (order : exts.Pairwise ExtentRec.Before)
    {e : ExtentRec} (last : lastUpTo exts block = some e) (unwritten : ¬ e.eeLen ≤ initMaxLen) :
    extentBlock exts block = 0 := by
  rw [extentBlock,coverEq order,last]
  by_cases covers : e.Covers block <;> simp [Option.filter,covers,unwritten]

/- What bmap_extent makes of the last extent that begins up to the block. -/
def extentFound (block : Nat) : Option ExtentRec → Nat × Nat
  | none => (0,0)
  | some e => if e.eeLen ≤ block - e.eeBlock then (0,0) else (e.eeStart + (block - e.eeBlock),e.eeLen - (block - e.eeBlock))

theorem bmapExtentEq {exts : List ExtentRec} {block fuel : Nat} {leaf : Option (Nat → UInt8)}
    (search : ext4FindLeaf v block fuel inode.iBlock = some leaf) (last : leaf.bind (leafExtent block) = lastUpTo exts block) :
    bmapExtent v inode fuel block = some (extentFound block (lastUpTo exts block)) := by
  rw [bmapExtent,search]
  simp only [Option.bind_eq_bind,Option.bind_some,last]
  cases found : lastUpTo exts block with
  | none => rfl
  | some e =>
    have below := (lastUpToMem found).2
    simp only [extentFound,sub32Eq below]
    split <;> rfl

theorem extentsFollow {exts : List ExtentRec} (mounted : v.Mounted) (ok : Extents exts)
    (sizes : ∀ e ∈ exts, e.eeLen < 2^16 ∧ e.eeStart < 2^48) (lstart : Nat) (word : lstart < 2^32) :
    Follows (extentBlock exts) v.blkToSec v.blkToSec lstart
      (extentFound (lstart / 2^v.blkToSec) (lastUpTo exts (lstart / 2^v.blkToSec))) ↔ ExtentsRight v exts lstart := by
  have sectors := blkToSecBound mounted
  have few := Nat.pow_le_pow_right (show 0 < 2 by decide) sectors
  have block := Nat.div_le_self lstart (2^v.blkToSec)
  have nothing : Follows (extentBlock exts) v.blkToSec v.blkToSec lstart (0,0) ↔
      HoleToTheEnd (extentBlock exts) v.blkToSec lstart := by
    rw [nothingFollows (by simp) (by omega)]
    simp
  rw [ExtentsRight]
  cases found : lastUpTo exts (lstart / 2^v.blkToSec) with
  | none => exact nothing
  | some e =>
    obtain ⟨member,below⟩ := lastUpToMem found
    obtain ⟨len,start⟩ := sizes e member
    have data := ok.real e member
    simp only [extentFound]
    by_cases inside : lstart / 2^v.blkToSec < e.eeBlock + e.eeLen
    · rw [if_neg (by omega),if_pos inside]
      have fits : (e.eeLen - (lstart / 2^v.blkToSec - e.eeBlock))*2^v.blkToSec < 2^32 :=
        Nat.lt_of_le_of_lt (Nat.mul_le_mul (show _ ≤ 2^16 by omega) few) (by decide)
      have real : (e.eeStart + (lstart / 2^v.blkToSec - e.eeBlock))*2^v.blkToSec + 2^v.blkToSec ≤ extentVoid := by
        have most := Nat.mul_le_mul (show e.eeStart + (lstart / 2^v.blkToSec - e.eeBlock) ≤ 2^48 + 2^32 by omega) few
        exact Nat.le_trans (Nat.add_le_add most few) (by decide)
      rw [dataFollows (by omega) (by omega) fits (Nat.le_refl _) real]
      simp only [orAligned,true_and,Nat.sub_self,Nat.pow_zero,Nat.mul_one]
      constructor
      · intro blocks
        by_contra unwritten
        have here := blocks 0 (by omega)
        rw [Nat.add_zero,extentBlockUnwritten ok.order found unwritten] at here
        omega
      · intro written j less
        have whole : e.blocks = e.eeLen := if_pos written
        rw [extentBlockHere ok.order member ⟨by omega,by omega⟩ written]
        omega
    · rw [if_pos (by omega),if_neg inside]
      exact nothing

theorem ext2Extents {exts : List ExtentRec} (mounted : v.Mounted) (flag : inode.extentsFlag = true)
    (tree : Tree v inode.iBlock exts) (ok : Extents exts) (small : inode.size < 2^32)
    (below : lstart*2^v.sectorShift < inode.size) :
    NextExtentRight v inode (extentBlock exts) lstart ↔ ExtentsRight v exts lstart := by
  have word : lstart < 2^32 := by
    have := Nat.mul_le_mul_left lstart (Nat.two_pow_pos v.sectorShift)
    omega
  have block := Nat.div_le_self lstart (2^v.blkToSec)
  have map : ∀ fuel, ext2Bmap v inode fuel (lstart / 2^v.blkToSec) = bmapExtent v inode fuel (lstart / 2^v.blkToSec) := by
    intro fuel
    rw [ext2Bmap,if_pos flag,Nat.mod_eq_of_lt (by omega)]
  obtain ⟨fuel,leaf,search,last⟩ := @findLeafTree v (lstart / 2^v.blkToSec) _ _ tree ok.order
  rw [← extentsFollow mounted ok (fun e member => treeBound tree member) lstart word,nextExtentRightIff]
  constructor
  · rintro ⟨other,found,eq,right⟩
    obtain ⟨leaf',search',_⟩ := Option.bind_eq_some_iff.mp ((map other).symm.trans eq)
    have same : leaf' = leaf := by
      have first := findLeafMore search' fuel
      rw [Nat.add_comm,findLeafMore search other] at first
      exact (Option.some.inj first).symm
    rw [map,bmapExtentEq search' (same ▸ last)] at eq
    exact Option.some.inj eq ▸ right
  · intro right
    exact ⟨fuel,_,by rw [map,bmapExtentEq search last],right⟩

end
end Syslinux.Ext2
