import Syslinux.BtrfsScan

/-! btrfs_read_chunk_tree of core/fs/btrfs/btrfs.c: the chunk tree is searched for the first
possible CHUNK_ITEM, and the items from there on go to insert_map. -/
namespace Syslinux.Btrfs
open Fat (le64)

/- The fields of struct btrfs_super_block that the trees are reached by. -/
structure SuperBlock where
  flags : Nat
  root : Nat
  chunkRoot : Nat

/- BTRFS_SUPER_FLAG_METADUMP is 1ULL << 33. -/
def SuperBlock.metadump (sb : SuperBlock) : Bool := sb.flags.testBit 33

def chunkTreeKey : DiskKey := ⟨256,228,0⟩

def blockOf (disk : Nat → TreeBuf) (map : ChunkMap) (loffset : Nat) : TreeBuf := disk (logicalPhysical map loffset)

/- The chunk map and the items that insert_map has been given, in order. -/
structure Reading where
  map : ChunkMap
  inserted : List ChunkMapItem

def chunkItem (key : DiskKey) (data : Nat → UInt8) : ChunkMapItem := ⟨key.offset,le64 data 0,le64 data 48,le64 data 56⟩

def insertChunk (r : Reading) (path : Path) : Reading × Bool :=
  let item := chunkItem path.item.key path.data
  (⟨insertMap r.map item,r.inserted ++ [item]⟩,false)

def btrfsReadChunkTree (disk : Nat → TreeBuf) (sb : SuperBlock) (turns : Nat) (r : Reading) : Option Reading :=
  if sb.metadump then some r
  else
    match searchTree (blockOf disk r.map) chunkTreeKey btrfsMaxLevel sb.chunkRoot clearPath with
    | none => none
    | some (_,path) =>
        (scanLeaves (fun r => blockOf disk r.map) insertChunk chunkTreeKey turns r path).map Prod.fst

/- struct btrfs_chunk with one stripe. -/
def sizeofChunk : Nat := 80

def Item.IsChunk (item : Item) : Prop := item.key.objectid = 256 ∧ item.key.type = 228
instance (item : Item) : Decidable item.IsChunk := by unfold Item.IsChunk; infer_instance

def Item.chunk (item : Item) : ChunkMapItem := chunkItem item.key fun i => item.data.getD i 0

def chunkItems (items : List Item) : List Item := items.filter fun item => item.IsChunk

/- The chunk tree of a filesystem: blocks that the chunks of the super block map, and
chunks that are apart from those or repeat them. -/
structure ChunkTree (disk : Nat → TreeBuf) (sb : SuperBlock) (map : ChunkMap) (height : Nat) (tree : Tree height) : Prop where
  live : sb.metadump = false
  low : height < btrfsMaxLevel
  full : Tree.Full height tree
  sorted : Tree.Sorted height tree
  sizes : ∀ item ∈ chunkItems (Tree.items height tree), sizeofChunk ≤ item.data.length
  short : ∀ item ∈ Tree.items height tree, item.data.length ≤ btrfsMaxLeafSize
  holds : Holds (blockOf disk map) (fun a => ∃ c, Resolves map a c ∧ ∀ item ∈ chunkItems (Tree.items height tree),
    item.chunk.logical = c.logical ∨ 0 < item.chunk.length ∧ c.Apart item.chunk) height tree sb.chunkRoot

/- Every CHUNK_ITEM goes to insert_map once, in the order of the keys, and nothing else. -/
def ReadsChunks (disk : Nat → TreeBuf) (sb : SuperBlock) (map : ChunkMap) (items : List Item) : Prop :=
  ∃ turns r, btrfsReadChunkTree disk sb turns ⟨map,[]⟩ = some r ∧ r.inserted = (chunkItems items).map Item.chunk

/- Where the search lands on the first CHUNK_ITEM: nothing comes before it in the tree, or
it is at logical address 0, the key that is searched for. -/
def Starts (items : List Item) : Prop :=
  (∀ item ∈ items, ¬ item.key.Before chunkTreeKey) ∨ ∃ item ∈ items, item.key = chunkTreeKey

def ChunksFound (height : Nat) (tree : Tree height) : Prop :=
  chunkItems (Tree.items height tree) = [] ∨ Starts (Tree.items height tree) ∧ Tree.Crosses Item.IsChunk height tree

theorem le64Congr {f g : Nat → UInt8} {i : Nat} (same : ∀ k, i ≤ k → k < i + 8 → f k = g k) : le64 f i = le64 g i := by
  simp only [le64,Fat.le32,Fat.le16]
  rw [same i (by omega) (by omega),same (i + 1) (by omega) (by omega),same (i + 2) (by omega) (by omega),
    same (i + 2 + 1) (by omega) (by omega),same (i + 4) (by omega) (by omega),same (i + 4 + 1) (by omega) (by omega),
    same (i + 4 + 2) (by omega) (by omega),same (i + 4 + 2 + 1) (by omega) (by omega)]

theorem chunkKind {item : Item} : btrfsCompKeysType chunkTreeKey item.key = 0 ↔ item.IsChunk := by
  rw [compTypeSame]
  exact ⟨fun h => ⟨h.1.symm,h.2.symm⟩,fun h => ⟨h.1.symm,h.2.symm⟩⟩

theorem chunkItemsKind (items : List Item) : chunkItems items = ofKind chunkTreeKey items := by
  refine List.filter_congr fun item _ => ?_
  exact decide_eq_decide.mpr chunkKind.symm

/- insert_map for the chunk of an item. -/
def takeChunk (r : Reading) (item : Item) : Reading × Bool :=
  (⟨insertMap r.map item.chunk,r.inserted ++ [item.chunk]⟩,false)

theorem scanChunks (items : List Item) (r : Reading) : (scanList takeChunk chunkTreeKey r items).1.inserted =
    r.inserted ++ (items.takeWhile fun item => btrfsCompKeysType chunkTreeKey item.key = 0).map Item.chunk ∧
    (scanList takeChunk chunkTreeKey r items).2 = none := by
  induction items generalizing r with
  | nil => exact ⟨by simp [scanList],rfl⟩
  | cons item later ih =>
    rw [scanList,List.takeWhile_cons]
    by_cases kind : btrfsCompKeysType chunkTreeKey item.key = 0
    · rw [if_neg (by simpa using kind),if_pos (by simpa using kind)]
      obtain ⟨inserted,stop⟩ := ih (takeChunk r item).1
      refine ⟨?_,stop⟩
      simp only [takeChunk] at inserted ⊢
      rw [inserted]
      simp
    · rw [if_pos kind,if_neg (by simpa using kind)]
      simp

section
variable {disk : Nat → TreeBuf} {sb : SuperBlock} {map : ChunkMap} {height : Nat} {tree : Tree height}

def Keeps (map : ChunkMap) (items : List Item) (r : Reading) : Prop := ∀ a c, Resolves map a c →
  (∀ item ∈ chunkItems items, item.chunk.logical = c.logical ∨ 0 < item.chunk.length ∧ c.Apart item.chunk) →
  Resolves r.map a c

theorem chunkScans (t : ChunkTree disk sb map height tree) (crosses : Tree.Crosses Item.IsChunk height tree) :
    Scans (fun r => blockOf disk r.map) insertChunk chunkTreeKey takeChunk (Keeps map (Tree.items height tree))
      (fun a => ∃ c, Resolves map a c ∧ ∀ item ∈ chunkItems (Tree.items height tree),
        item.chunk.logical = c.logical ∨ 0 < item.chunk.length ∧ c.Apart item.chunk)
      (fun item => btrfsCompKeysType chunkTreeKey item.key = 0) height tree sb.chunkRoot := by
  have block : ∀ r, Keeps map (Tree.items height tree) r → ∀ a, (∃ c, Resolves map a c ∧
      ∀ item ∈ chunkItems (Tree.items height tree), item.chunk.logical = c.logical ∨
        0 < item.chunk.length ∧ c.Apart item.chunk) → blockOf disk r.map a = blockOf disk map a := by
    rintro r keeps a ⟨c,resolves,other⟩
    rw [blockOf,blockOf,resolvesAnswer (keeps a c resolves other),resolvesAnswer resolves]
  refine ⟨fun r keeps => holdsCongr (block r keeps) t.holds,?_,t.full,t.low,?_,?_⟩
  · intro r r' keeps keeps' a m
    rw [block r keeps a m,block r' keeps' a m]
  · have same : (fun item : Item => btrfsCompKeysType chunkTreeKey item.key = 0) = Item.IsChunk := by
      funext item
      exact propext chunkKind
    rw [same]
    exact crosses
  · intro r path item keeps mem kind same loaded
    have chunk : item ∈ chunkItems (Tree.items height tree) :=
      List.mem_filter.mpr ⟨mem,decide_eq_true (chunkKind.1 kind)⟩
    have size := t.sizes item chunk
    unfold sizeofChunk at size
    have read : ∀ i, i + 8 ≤ 80 → le64 path.data i = le64 (fun k => item.data.getD k 0) i := by
      intro i small
      refine le64Congr fun k _ lt => ?_
      rw [loaded k (by omega)]
      exact List.getElem_eq_getD _
    have decoded : chunkItem path.item.key path.data = item.chunk := by
      rw [chunkItem,read 0 (by omega),read 48 (by omega),read 56 (by omega),same]
      rfl
    refine ⟨by simp only [insertChunk,takeChunk,decoded],?_⟩
    intro a c resolves other
    exact resolvesInsert (keeps a c resolves other) (other item chunk)

theorem crossesLow {wanted : Item → Prop} (low : height ≤ 1) : Tree.Crosses wanted height tree := by
  match height,tree with
  | 0,_ => trivial
  | 1,_ => exact ⟨fun _ _ => trivial,fun _ _ _ _ _ => trivial⟩

theorem chunkSearch (t : ChunkTree disk sb map height tree) : ∃ path before later,
    (∀ turns r, btrfsReadChunkTree disk sb turns ⟨map,[]⟩ = some r ↔
      (scanLeaves (fun r => blockOf disk r.map) insertChunk chunkTreeKey turns ⟨map,[]⟩ path).map Prod.fst = some r) ∧
    At (blockOf disk map) path height tree sb.chunkRoot ∧ (∀ j, height < j → path.itemsnr j = 0) ∧
    Tree.items height tree = before ++ Tree.rest path.slots height tree ∧
    Tree.rest path.slots height tree = path.item::later ∧
    (∀ item ∈ before, item.key.Before chunkTreeKey) ∧ (∀ item ∈ later, chunkTreeKey.Before item.key) ∧
    (path.item.key.Before chunkTreeKey ∨ (path.item.key = chunkTreeKey ∨ before = []) ∧ ¬ path.item.key.Before chunkTreeKey) := by
  obtain ⟨ret,path,search,reached⟩ := searchWhole chunkTreeKey btrfsMaxLevel clearPath t.holds t.full t.low t.low t.sorted
    (fun _ _ => rfl)
  obtain ⟨before,split,early,late,outcome⟩ := reached.place
  obtain ⟨later,head⟩ := restHead reached.at'
  rw [head,List.tail_cons] at late
  refine ⟨path,before,later,?_,reached.at',?_,split,head,early,late,?_⟩
  · intro turns r
    rw [btrfsReadChunkTree,if_neg (by simp [t.live]),search]
  · intro j more
    rw [(reached.outer j more).2.1]
    rfl
  · rcases outcome with ⟨_,same⟩ | ⟨_,below⟩ | ⟨_,first,above⟩
    · exact Or.inr ⟨Or.inl same,by rw [same]; exact fun less => beforeNot less less⟩
    · exact Or.inl below
    · exact Or.inr ⟨Or.inr first,beforeNot above⟩

theorem scanNothing {path : Path} {turns : Nat} {r r' : Reading} (below : path.item.key.Before chunkTreeKey)
    (ok : (scanLeaves (fun r => blockOf disk r.map) insertChunk chunkTreeKey turns r path).map Prod.fst = some r') :
    r' = r := by
  have other : btrfsCompKeysType chunkTreeKey path.item.key ≠ 0 := fun same => kindNotBefore rfl same below
  cases turns with
  | zero => contradiction
  | succ turns =>
    rw [scanLeaves] at ok
    cases turns with
    | zero => contradiction
    | succ turns =>
      rw [scanSlots,if_pos other] at ok
      simp only [if_pos other] at ok
      exact (Option.some.inj ok).symm

theorem startsReads (t : ChunkTree disk sb map height tree)
    (found : ChunksFound height tree) : ReadsChunks disk sb map (Tree.items height tree) := by
  obtain ⟨path,before,later,search,at',top,split,rest,early,late,outcome⟩ := chunkSearch t
  rw [rest] at split
  have kept : Keeps map (Tree.items height tree) ⟨map,[]⟩ := fun a c resolves _ => resolves
  by_cases below : path.item.key.Before chunkTreeKey
  · -- the loop stops at the item before the key
    have none' : chunkItems (Tree.items height tree) = [] := by
      rcases found with none' | ⟨all | ⟨item,mem,same⟩,_⟩
      · exact none'
      · exact absurd below (all path.item (by rw [split]; simp))
      · rw [split] at mem
        rcases List.mem_append.mp mem with inBefore | inRest
        · exact absurd same (beforeNe (early item inBefore))
        · rcases List.mem_cons.mp inRest with here | behind
          · rw [← here] at below
            exact absurd same (beforeNe below)
          · exact absurd same.symm (beforeNe (late item behind))
    have other : btrfsCompKeysType chunkTreeKey path.item.key ≠ 0 := fun same => kindNotBefore rfl same below
    refine ⟨2,⟨map,[]⟩,(search _ _).mpr ?_,by rw [none']; rfl⟩
    rw [scanLeaves,scanSlots,if_pos other]
    simp only [if_pos other]
    rfl
  · have from' : ∀ item ∈ path.item::later, ¬ item.key.Before chunkTreeKey := by
      intro item mem
      rcases List.mem_cons.mp mem with here | behind
      · rw [here]
        exact below
      · exact beforeNot (late item behind)
    have sorted := t.sorted
    rw [Tree.Sorted,split] at sorted
    have chunks : chunkItems (Tree.items height tree) =
        (path.item::later).takeWhile fun item => btrfsCompKeysType chunkTreeKey item.key = 0 := by
      rw [chunkItemsKind,split,kindAppend rfl early]
      exact kindFirst (List.pairwise_append.mp sorted).2.1 from'
    obtain ⟨inserted,noStop⟩ := scanChunks (path.item::later) ⟨map,[]⟩
    rcases found with none' | ⟨_,crosses⟩
    · -- the item is of another kind
      have other : btrfsCompKeysType chunkTreeKey path.item.key ≠ 0 := by
        intro same
        rw [chunks,List.takeWhile_cons,if_pos (by simpa using same)] at none'
        contradiction
      refine ⟨2,⟨map,[]⟩,(search _ _).mpr ?_,by rw [none']; rfl⟩
      rw [scanLeaves,scanSlots,if_pos other]
      simp only [if_pos other]
      rfl
    · obtain ⟨path',ran,_⟩ := scanRest (chunkScans t crosses) later (later.length + 1) (later.length + 1) kept at' top rest
        (by omega) (by omega) late fun _ mem => passedKind _ mem
      refine ⟨later.length + 2,_,(search _ _).mpr (congrArg (Option.map Prod.fst) ran),?_⟩
      rw [inserted,chunks]
      rfl

theorem readsStarts (t : ChunkTree disk sb map height tree) (reads : ReadsChunks disk sb map (Tree.items height tree)) :
    chunkItems (Tree.items height tree) = [] ∨ Starts (Tree.items height tree) := by
  obtain ⟨path,before,later,search,_,_,split,rest,early,late,outcome⟩ := chunkSearch t
  rw [rest] at split
  obtain ⟨turns,r,ran,inserted⟩ := reads
  rcases outcome with below | ⟨same | first,above⟩
  · have same := scanNothing below ((search turns r).mp ran)
    rw [same] at inserted
    exact Or.inl (List.map_eq_nil_iff.mp inserted.symm)
  · exact Or.inr (Or.inr ⟨path.item,by rw [split]; simp,same⟩)
  · refine Or.inr (Or.inl ?_)
    rw [split,first]
    intro item mem
    rcases List.mem_cons.mp mem with here | behind
    · rw [here]
      exact above
    · exact beforeNot (late item behind)

end

/- In trees of at most two levels the start of the chunk items decides; in higher ones the
blocks that next_leaf leaves count as well. -/
theorem chunkTreeRead {disk : Nat → TreeBuf} {sb : SuperBlock} {map : ChunkMap} {height : Nat} {tree : Tree height}
    (t : ChunkTree disk sb map height tree) :
    (ChunksFound height tree → ReadsChunks disk sb map (Tree.items height tree)) ∧
    (ReadsChunks disk sb map (Tree.items height tree) →
      chunkItems (Tree.items height tree) = [] ∨ Starts (Tree.items height tree)) ∧
    (height ≤ 1 → (ReadsChunks disk sb map (Tree.items height tree) ↔ ChunksFound height tree)) := by
  refine ⟨startsReads t,readsStarts t,fun low => ⟨fun reads => ?_,startsReads t⟩⟩
  rcases readsStarts t reads with none' | starts
  · exact Or.inl none'
  · exact Or.inr ⟨starts,crossesLow low⟩

/- One leaf, in the chunk that the super block has, with a chunk of one byte behind what
comes before it. -/
def systemChunk : ChunkMapItem := ⟨2^20,2^20,1,2^20⟩
def leafDisk (items : List Item) (_ : Nat) : TreeBuf := ⟨0,items.length,fun _ => ⟨⟨0,0,0⟩,0⟩,fun i => items.getD i ⟨⟨0,0,0⟩,[]⟩⟩
def smallSuper : SuperBlock := ⟨0,2^20,2^20⟩
def chunkAt (offset : Nat) : Item := ⟨⟨256,228,offset⟩,1::List.replicate 79 0⟩
def devItem : Item := ⟨⟨1,216,1⟩,[]⟩

theorem chunkAtIs (offset : Nat) : (chunkAt offset).chunk = ⟨offset,1,0,0⟩ := rfl

theorem leafHolds {items : List Item} {map : ChunkMap} {mapped : Nat → Prop} {addr : Nat} (there : mapped addr) :
    @Holds (blockOf (leafDisk items) map) mapped 0 items addr := by
  refine ⟨there,rfl,rfl,?_⟩
  intro i item at'
  simp only [blockOf,leafDisk]
  rw [List.getD_eq_getElem?_getD]
  exact congrArg (fun found => Option.getD found ⟨⟨0,0,0⟩,[]⟩) at'

theorem systemResolves {a : Nat} (inside : 2^20 ≤ a ∧ a < 2^21) : Resolves (insertAll [systemChunk]) a systemChunk := by
  have new : systemChunk.logical ∉ ([] : List ChunkMapItem).map ChunkMapItem.logical := by simp
  obtain ⟨xs,ys,split,listed⟩ := insertNew emptyListed new (by decide)
  obtain ⟨rfl,rfl⟩ := List.append_eq_nil_iff.mp split.symm
  exact ⟨[],[],listed,⟨inside.1,by simp only [systemChunk]; omega⟩,by simp⟩

theorem systemMapped {items : List Item} {a : Nat} (inside : 2^20 ≤ a ∧ a < 2^21)
    (chunks : ∀ item ∈ chunkItems items, ∃ offset, item = chunkAt offset ∧ (offset < 2^20 ∨ 2^21 ≤ offset)) :
    ∃ c, Resolves (insertAll [systemChunk]) a c ∧ ∀ item ∈ chunkItems items,
      item.chunk.logical = c.logical ∨ 0 < item.chunk.length ∧ c.Apart item.chunk := by
  refine ⟨systemChunk,systemResolves inside,?_⟩
  intro item mem
  obtain ⟨offset,rfl,outside⟩ := chunks item mem
  rw [chunkAtIs]
  refine Or.inr ⟨Nat.one_pos,?_⟩
  rintro a ⟨⟨le,lt⟩,le',lt'⟩
  simp only [systemChunk] at le lt le' lt'
  omega

theorem leafTree (items : List Item) (offset : Nat) (some' : items ≠ []) (sorted : Tree.Sorted 0 items)
    (chunks : ∀ item ∈ chunkItems items, item = chunkAt offset) (outside : offset < 2^20 ∨ 2^21 ≤ offset)
    (short : ∀ item ∈ items, item.data.length ≤ btrfsMaxLeafSize) :
    @ChunkTree (leafDisk items) smallSuper (insertAll [systemChunk]) 0 items := by
  refine ⟨rfl,by decide,some',sorted,?_,short,?_⟩
  · intro item mem
    rw [chunks item mem]
    exact Nat.le_refl 80
  · exact leafHolds (systemMapped ⟨Nat.le_refl _,by decide⟩ fun item mem => ⟨offset,chunks item mem,outside⟩)

/- Two leaves of a chunk each, the first at address 0, and a node above them. -/
def twoLeaves (a : Nat) : TreeBuf :=
  if a = 2^20 then ⟨1,2,fun i => if i = 0 then ⟨⟨256,228,0⟩,2^20 + 4096⟩ else ⟨⟨256,228,2^21⟩,2^20 + 8192⟩,fun _ => ⟨⟨0,0,0⟩,[]⟩⟩
  else leafDisk [chunkAt (if a = 2^20 + 4096 then 0 else 2^21)] a

theorem twoLeavesBlock {a : Nat} (inside : 2^20 ≤ a ∧ a < 2^21) : blockOf twoLeaves (insertAll [systemChunk]) a = twoLeaves a := by
  have same : logicalPhysical (insertAll [systemChunk]) a = a := by
    rw [resolvesAnswer (systemResolves inside),ChunkMapItem.answer,systemChunk,if_neg (by simp only; omega)]
    simp only
    omega
  rw [blockOf,same]

theorem twoLeavesHold {mapped : Nat → Prop} (all : ∀ a, 2^20 ≤ a ∧ a < 2^21 → mapped a) :
    @Holds (blockOf twoLeaves (insertAll [systemChunk])) mapped 1 [[chunkAt 0],[chunkAt (2^21)]] (2^20) := by
  have leaf {a offset : Nat} (inside : 2^20 < a ∧ a < 2^21) (here : (if a = 2^20 + 4096 then 0 else 2^21) = offset) :
      @Holds (blockOf twoLeaves (insertAll [systemChunk])) mapped 0 [chunkAt offset] a := by
    refine ⟨all a (by omega),?_⟩
    rw [twoLeavesBlock (by omega),twoLeaves,if_neg (by omega),here]
    refine ⟨rfl,rfl,fun i item at' => ?_⟩
    simp only [leafDisk]
    rw [List.getD_eq_getElem?_getD]
    exact congrArg (fun found => Option.getD found ⟨⟨0,0,0⟩,[]⟩) at'
  refine ⟨all _ (by decide),?_⟩
  rw [twoLeavesBlock (by decide)]
  refine ⟨rfl,rfl,fun i child at' => ?_⟩
  rcases i with _ | _ | i
  · cases Option.some.inj at'
    exact ⟨leaf (by decide) rfl,by decide⟩
  · cases Option.some.inj at'
    exact ⟨leaf (by decide) rfl,by decide⟩
  · cases at'

theorem twoLeavesTree : @ChunkTree twoLeaves smallSuper (insertAll [systemChunk]) 1 [[chunkAt 0],[chunkAt (2^21)]] := by
  have items : chunkItems (Tree.items 1 [[chunkAt 0],[chunkAt (2^21)]]) = [chunkAt 0,chunkAt (2^21)] := rfl
  refine ⟨rfl,by decide,⟨List.cons_ne_nil _ _,?_⟩,?_,?_,?_,?_⟩
  · intro child mem
    rcases List.mem_pair.mp (show child ∈ [[chunkAt 0],[chunkAt (2^21)]] from mem) with rfl | rfl
    · exact List.cons_ne_nil _ _
    · exact List.cons_ne_nil _ _
  · exact List.pairwise_pair.mpr (Or.inr ⟨rfl,Or.inr ⟨rfl,by decide⟩⟩)
  · decide
  · decide
  · refine twoLeavesHold fun a inside => systemMapped inside fun item mem => ?_
    rw [items] at mem
    rcases List.mem_pair.mp mem with rfl | rfl
    · exact ⟨0,rfl,Or.inl (by decide)⟩
    · exact ⟨2^21,rfl,Or.inr (by decide)⟩

theorem chunkTreeReadTwo :
    ReadsChunks twoLeaves smallSuper (insertAll [systemChunk]) (Tree.items 1 [[chunkAt 0],[chunkAt (2^21)]]) :=
  (chunkTreeRead twoLeavesTree).1 (Or.inr ⟨Or.inr ⟨chunkAt 0,by decide,rfl⟩,crossesLow (Nat.le_refl 1)⟩)

/- A device item in front of the first chunk, at 4 MiB: no chunk is read. -/
theorem chunksMissed : ¬ ∀ (disk : Nat → TreeBuf) (sb : SuperBlock) (map : ChunkMap) (height : Nat) (tree : Tree height),
    ChunkTree disk sb map height tree → ReadsChunks disk sb map (Tree.items height tree) := by
  intro claim
  have chunks : chunkItems [devItem,chunkAt (2^22)] = [chunkAt (2^22)] := rfl
  have tree := leafTree [devItem,chunkAt (2^22)] (2^22) (by simp)
    (List.pairwise_pair.mpr (Or.inl (by decide)))
    (fun item mem => List.mem_singleton.mp (chunks ▸ mem)) (Or.inr (by decide)) (by decide)
  rcases readsStarts tree (claim _ _ _ 0 [devItem,chunkAt (2^22)] tree) with none' | all | ⟨item,mem,same⟩
  · exact absurd (chunks.symm.trans none') (by simp)
  · exact all devItem (List.mem_cons_self ..) (Or.inl (by decide))
  · rcases List.mem_cons.mp mem with rfl | mem
    · exact absurd same (by decide)
    · cases List.mem_singleton.mp mem
      exact absurd same (by decide)

end Syslinux.Btrfs
