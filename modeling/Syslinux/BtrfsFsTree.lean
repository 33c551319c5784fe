import Syslinux.BtrfsChunkTree

/-! btrfs_get_fs_tree of core/fs/btrfs/btrfs.c: the ROOT_REF items of the top-level tree are
compared with SubvolName, and the root item of the subvolume found has the tree. -/
namespace Syslinux.Btrfs
open Fat (le64)

/- The first n bytes of a and b are the same, up to a NUL in both: !strncmp(a, b, n). -/
def strncmpSame (a b : Nat → UInt8) : Nat → Nat → Bool
  | _,0 => true
  | i,n+1 => if a i ≠ b i then false else if a i = 0 then true else strncmpSame a b (i + 1) n

def fsTreeObjectid : Nat := 5
def rootRefKey : DiskKey := ⟨fsTreeObjectid,156,0⟩
def rootItemKey (objectid : Nat) : DiskKey := ⟨objectid,132,2^64 - 1⟩
/- sizeof(struct btrfs_root_ref), and the place of bytenr in struct btrfs_root_item. -/
def sizeofRootRef : Nat := 18
def rootBytenr : Nat := 176

def cString (name : List UInt8) (i : Nat) : UInt8 := name.getD i 0

def refMatches (name : List UInt8) (_ : Unit) (path : Path) : Unit × Bool :=
  let pathlen := sub32 path.item.data.length sizeofRootRef
  ((),strncmpSame (fun i => path.data (sizeofRootRef + i)) (cString name) 0 pathlen)

/- Where the references are searched: without an exact match one slot behind the place
that search_tree returns. -/
def refSearch (block : Nat → TreeBuf) (root : Nat) : Option Path :=
  match searchTree block rootRefKey btrfsMaxLevel root clearPath with
  | none => none
  | some (ret,path) => if ret ≠ 0 then (nextSlot block rootRefKey path).map Prod.snd else some path

def findSubvol (block : Nat → TreeBuf) (root : Nat) (name : List UInt8) (turns : Nat) : Option (Option Nat) :=
  if name = [] then some none
  else
    match refSearch block root with
    | none => none
    | some path =>
        (scanLeaves (fun _ => block) (refMatches name) rootRefKey turns () path).map
          fun found => if found.2.2 then some found.2.1.item.key.offset else none

def btrfsGetFsTree (disk : Nat → TreeBuf) (sb : SuperBlock) (map : ChunkMap) (name : List UInt8) (turns : Nat) : Option Nat :=
  match findSubvol (blockOf disk map) sb.root name turns with
  | none => none
  | some subvol =>
      (searchTree (blockOf disk map) (rootItemKey (subvol.getD fsTreeObjectid)) btrfsMaxLevel sb.root clearPath).map
        fun found => le64 found.2.data rootBytenr

def Item.IsRef (item : Item) : Prop := item.key.type = 156
def Item.IsRoot (item : Item) : Prop := item.key.type = 132
instance (item : Item) : Decidable item.IsRef := by unfold Item.IsRef; infer_instance
instance (item : Item) : Decidable item.IsRoot := by unfold Item.IsRoot; infer_instance

def Item.refName (item : Item) : List UInt8 := item.data.drop sizeofRootRef
def Item.bytenr (item : Item) : Nat := le64 (cString item.data) rootBytenr

/- The tree of roots of a filesystem: names are not empty and have no NUL, a subvolume has
one reference and a root item, and no two trees begin in one block. -/
structure RootTree (disk : Nat → TreeBuf) (sb : SuperBlock) (map : ChunkMap) (height : Nat) (tree : Tree height) : Prop where
  low : height < btrfsMaxLevel
  full : Tree.Full height tree
  sorted : Tree.Sorted height tree
  holds : Holds (blockOf disk map) (fun _ => True) height tree sb.root
  words : ∀ item ∈ Tree.items height tree, item.key.offset < 2^64 ∧ item.data.length ≤ btrfsMaxLeafSize
  names : ∀ item ∈ Tree.items height tree, item.IsRef → sizeofRootRef < item.data.length ∧ 0 ∉ item.refName
  distinct : ∀ item ∈ Tree.items height tree, ∀ other ∈ Tree.items height tree, item.IsRef → other.IsRef →
    item.key.offset = other.key.offset → item = other
  default : (∃ item ∈ Tree.items height tree, item.IsRoot ∧ item.key.objectid = fsTreeObjectid) ∧
    ∀ item ∈ Tree.items height tree, item.IsRef → item.key.offset ≠ fsTreeObjectid
  roots : ∀ ref ∈ Tree.items height tree, ref.IsRef → ∃ item ∈ Tree.items height tree, item.IsRoot ∧
    item.key.objectid = ref.key.offset
  sizes : ∀ item ∈ Tree.items height tree, item.IsRoot → rootBytenr + 8 ≤ item.data.length
  blocks : ∀ item ∈ Tree.items height tree, ∀ other ∈ Tree.items height tree, item.IsRoot → other.IsRoot →
    item.bytenr = other.bytenr → item.key.objectid = other.key.objectid

def Selected (items : List Item) (name : List UInt8) (id : Nat) : Prop :=
  (∃ ref ∈ items, ref.IsRef ∧ ref.refName = name ∧ ref.key.offset = id) ∨
  (∀ ref ∈ items, ref.IsRef → ref.refName ≠ name) ∧ id = fsTreeObjectid

def SelectsTree (disk : Nat → TreeBuf) (sb : SuperBlock) (map : ChunkMap) (items : List Item) (name : List UInt8) : Prop :=
  ∃ fsTree, (∃ enough, ∀ turns, enough ≤ turns → btrfsGetFsTree disk sb map name turns = some fsTree) ∧
    ∃ item ∈ items, item.IsRoot ∧ item.bytenr = fsTree ∧ Selected items name item.key.objectid

def topRefs (items : List Item) : List Item := ofKind rootRefKey items

def Tree.leaves : (level : Nat) → Tree level → List (List Item)
  | 0,tree => [tree.leaf]
  | level+1,tree => tree.children.flatMap (Tree.leaves level)

/- next_slot does not leave a leaf: a first reference that begins one, and is not the key
that is searched for, is not come to, nor are those behind it. -/
def refsSeen (height : Nat) (tree : Tree height) : List Item :=
  if ∃ leaf ∈ Tree.leaves height tree, ∃ first ∈ leaf.head?,
      (topRefs (Tree.items height tree)).head? = some first ∧ first.key ≠ rootRefKey then []
  else topRefs (Tree.items height tree)

/- The references that the scan goes on from: those up to the first whose name the given one
begins with. -/
def refsPassed (height : Nat) (tree : Tree height) (name : List UInt8) : List Item :=
  if name = [] then [] else (refsSeen height tree).takeWhile fun ref => !ref.refName.isPrefixOf name

def RefsPassed (height : Nat) (tree : Tree height) (name : List UInt8) : Prop :=
  Tree.Crosses (fun item => item ∈ refsPassed height tree name) height tree

/- The first reference come to whose name the given one begins with has that name; if there
is none, no subvolume has it. -/
def NamesTold (height : Nat) (tree : Tree height) (name : List UInt8) : Prop :=
  match (refsSeen height tree).find? (fun ref => ref.refName.isPrefixOf name) with
  | some ref => ref.refName = name
  | none => ∀ ref ∈ Tree.items height tree, ref.IsRef → ref.refName ≠ name

/- Names without a NUL: the comparison tells whether one begins the other. -/
theorem strncmpPrefix {a b : Nat → UInt8} {stored : List UInt8} : ∀ {i : Nat} (name : List UInt8),
    (∀ k (h : k < stored.length), a (i + k) = stored[k]) → (∀ k, b (i + k) = name.getD k 0) → 0 ∉ stored →
    strncmpSame a b i stored.length = stored.isPrefixOf name := by
  induction stored with
  | nil =>
    intro i name _ _ _
    rfl
  | cons c stored ih =>
    intro i name left right noNul
    have first := left 0 (by simp)
    have second := right 0
    rw [Nat.add_zero] at first second
    have notNul : c ≠ 0 := fun nul => noNul (by simp [nul])
    rw [List.length_cons,strncmpSame,first,second]
    cases name with
    | nil =>
      rw [if_pos (by simpa using notNul)]
      rfl
    | cons d name =>
      simp only [List.getElem_cons_zero,List.getD_cons_zero,List.isPrefixOf_cons_cons]
      by_cases same : c = d
      · subst same
        rw [if_neg (by simp),if_neg notNul,ih name ?_ ?_ fun mem => noNul (List.mem_cons_of_mem _ mem)]
        · simp
        · intro k small
          have := left (k + 1) (by simpa using small)
          rw [show i + 1 + k = i + (k + 1) by omega,this]
          rfl
        · intro k
          rw [show i + 1 + k = i + (k + 1) by omega,right (k + 1)]
          rfl
      · rw [if_pos same]
        simp [same]

section
variable {block : Nat → TreeBuf} {mapped : Nat → Prop}

theorem itemsLeaves : ∀ {level : Nat} {tree : Tree level}, Tree.items level tree = (Tree.leaves level tree).flatten
  | 0,tree => by simp [Tree.items,Tree.leaves]
  | level+1,tree => by
      rw [Tree.items,Tree.leaves,← List.flatMap_id,List.flatMap_assoc]
      refine congrArg (fun f => List.flatMap f tree.children) (funext fun child => ?_)
      rw [itemsLeaves,List.flatMap_id]

theorem insideHead {level : Nat} {tree : Tree level} (sorted : Tree.Sorted level tree) {leaf other : List Item} {x y : Item}
    {before behind : List Item} (mem : leaf ∈ Tree.leaves level tree) (eq : leaf = before ++ x::y::behind)
    (mem' : other ∈ Tree.leaves level tree) : other.head? ≠ some y := by
  intro head
  have distinct : (Tree.items level tree).Nodup := sorted.imp fun order same => beforeNe order (congrArg Item.key same)
  rw [itemsLeaves,List.nodup_flatten] at distinct
  obtain ⟨each,apart⟩ := distinct
  obtain ⟨rest,split⟩ := List.head?_eq_some_iff.mp head
  by_cases same : leaf = other
  · -- the same leaf would have the item twice
    have nodup := each leaf mem
    rw [← same,eq] at split
    rw [eq] at nodup
    cases before with
    | nil =>
      obtain ⟨rfl,rfl⟩ := List.cons.inj split
      simp at nodup
    | cons z before =>
      obtain ⟨rfl,rfl⟩ := List.cons.inj split
      simp at nodup
  · have : Std.Symm (List.Disjoint : List Item → List Item → Prop) := ⟨fun _ _ => List.Disjoint.symm⟩
    have disjoint := apart.forall mem mem' same
    exact disjoint (show y ∈ leaf by rw [eq]; simp) (show y ∈ other by rw [split]; simp)

theorem leavesHead : ∀ {level : Nat} {tree : Tree level}, Tree.Full level tree →
    ∃ leaf ∈ Tree.leaves level tree, leaf.head? = (Tree.items level tree).head?
  | 0,tree,_ => ⟨tree.leaf,List.mem_singleton.mpr rfl,rfl⟩
  | level+1,tree,full => by
      obtain ⟨child,later,eq⟩ := List.exists_cons_of_ne_nil full.1
      have mem : child ∈ tree.children := by rw [eq]; simp
      obtain ⟨leaf,inside,head⟩ := leavesHead (full.2 child mem)
      refine ⟨leaf,List.mem_flatMap.mpr ⟨child,mem,inside⟩,?_⟩
      rw [head,Tree.items,eq,List.flatMap_cons,List.head?_append]
      obtain ⟨first,rest,eq⟩ := List.exists_cons_of_ne_nil (fullItems (full.2 child mem))
      rw [eq]
      rfl

theorem leavesNext {path : Path} {item : Item} : ∀ {level : Nat} {tree : Tree level} {addr : Nat} {later : List Item},
    Tree.Full level tree → At block path level tree addr → path.itemsnr 0 ≤ path.slots 0 + 1 →
    Tree.rest path.slots level tree = path.item::item::later → ∃ leaf ∈ Tree.leaves level tree, leaf.head? = some item
  | 0,tree,addr,later,_,at',last,rest => by
      obtain ⟨_,count,_,slot,_⟩ := at'
      have length := congrArg List.length rest
      rw [Tree.rest,List.length_drop] at length
      simp only [List.length_cons] at length
      omega
  | level+1,tree,addr,later,full,at',last,rest => by
      obtain ⟨_,_,child,slot,inner⟩ := at'
      rw [restLeads slot] at rest
      obtain ⟨tail,eq⟩ := restHead inner
      cases tail with
      | cons next tail =>
        have same : next = item := by
          rw [eq] at rest
          simp only [List.cons_append,List.cons.injEq,true_and] at rest
          exact rest.1
        rw [same] at eq
        obtain ⟨leaf,mem,head⟩ := leavesNext (fullChild full slot) inner last eq
        exact ⟨leaf,List.mem_flatMap.mpr ⟨child,List.mem_of_getElem? slot,mem⟩,head⟩
      | nil =>
        rw [eq,List.singleton_append,List.cons.injEq] at rest
        have behind := rest.2
        rw [Tree.onwards] at behind
        cases drop : tree.children.drop (path.slots (level + 1) + 1) with
        | nil =>
          rw [drop] at behind
          contradiction
        | cons next more =>
          have mem : next ∈ tree.children := List.mem_of_mem_drop (by rw [drop]; simp)
          have filled := full.2 next mem
          obtain ⟨leaf,inside,head⟩ := leavesHead filled
          refine ⟨leaf,List.mem_flatMap.mpr ⟨next,mem,inside⟩,?_⟩
          obtain ⟨first,rest',eq'⟩ := List.exists_cons_of_ne_nil (fullItems filled)
          rw [drop,List.flatMap_cons,eq',List.cons_append,List.cons.injEq] at behind
          rw [head,eq',behind.1]
          rfl

theorem leavesInside {path : Path} : ∀ {level : Nat} {tree : Tree level} {addr : Nat},
    At block path level tree addr → path.slots 0 + 1 < path.itemsnr 0 →
    ∃ leaf ∈ Tree.leaves level tree, ∃ before next behind later, leaf = before ++ path.item::next::behind ∧
      Tree.rest path.slots level tree = path.item::next::later
  | 0,tree,addr,at',more => by
      obtain ⟨_,count,item,slot,same,_⟩ := at'
      obtain ⟨here,eq⟩ := List.getElem?_eq_some_iff.mp slot
      have next : path.slots 0 + 1 < tree.leaf.length := by omega
      have split := (List.drop_eq_getElem_cons here).trans (congrArg _ (List.drop_eq_getElem_cons next))
      rw [eq,← same] at split
      exact ⟨tree.leaf,List.mem_singleton.mpr rfl,tree.leaf.take (path.slots 0),_,_,_,
        by rw [← split,List.take_append_drop],split⟩
  | level+1,tree,addr,at',more => by
      obtain ⟨_,_,child,slot,inner⟩ := at'
      obtain ⟨leaf,mem,before,next,behind,later,eq,rest⟩ := leavesInside inner more
      refine ⟨leaf,List.mem_flatMap.mpr ⟨child,List.mem_of_getElem? slot,mem⟩,before,next,behind,
        later ++ Tree.onwards (path.slots (level + 1) + 1) (level + 1) tree,eq,?_⟩
      rw [restLeads slot,rest]
      rfl

end

theorem scanRefs (name : List UInt8) (items : List Item) :
    (scanList (fun _ item => ((),item.refName.isPrefixOf name)) rootRefKey () items).2 =
      (items.takeWhile fun item => btrfsCompKeysType rootRefKey item.key = 0).find? fun ref => ref.refName.isPrefixOf name := by
  induction items with
  | nil => rfl
  | cons item later ih =>
    rw [scanList,List.takeWhile_cons]
    by_cases kind : btrfsCompKeysType rootRefKey item.key = 0
    · rw [if_neg (by simpa using kind),if_pos (by simpa using kind),List.find?_cons]
      cases item.refName.isPrefixOf name with
      | true => rfl
      | false => exact ih
    · rw [if_pos kind,if_neg (by simpa using kind)]
      rfl

theorem passedRefs (name : List UInt8) (items : List Item) :
    passed (fun _ item => ((),item.refName.isPrefixOf name)) rootRefKey () items =
      (items.takeWhile fun item => btrfsCompKeysType rootRefKey item.key = 0).takeWhile fun ref => !ref.refName.isPrefixOf name := by
  induction items with
  | nil => rfl
  | cons item later ih =>
    rw [passed,List.takeWhile_cons]
    by_cases kind : btrfsCompKeysType rootRefKey item.key = 0
    · rw [if_neg (by simpa using kind),if_pos (by simpa using kind),List.takeWhile_cons]
      cases item.refName.isPrefixOf name with
      | true => rfl
      | false => exact congrArg (item::·) ih
    · rw [if_pos kind,if_neg (by simpa using kind)]
      rfl

section
variable {disk : Nat → TreeBuf} {sb : SuperBlock} {map : ChunkMap} {height : Nat} {tree : Tree height}

theorem refScans (t : RootTree disk sb map height tree) {name : List UInt8} (crosses : RefsPassed height tree name) :
    Scans (fun _ : Unit => blockOf disk map) (refMatches name) rootRefKey (fun _ item => ((),item.refName.isPrefixOf name))
      (fun _ => True) (fun _ => True) (fun item => item ∈ refsPassed height tree name) height tree sb.root := by
  refine ⟨fun _ _ => t.holds,fun _ _ _ _ _ _ => rfl,t.full,t.low,crosses,?_⟩
  intro _ path item _ mem kind same loaded
  refine ⟨?_,trivial⟩
  obtain ⟨some',noNul'⟩ := t.names item mem (compTypeSame.1 kind).2.symm
  have length : item.data.length - sizeofRootRef = item.refName.length := by simp [Item.refName]
  rw [refMatches,same]
  simp only [sub32Eq (Nat.le_of_lt some'),length]
  rw [strncmpPrefix name ?_ ?_ noNul']
  · intro k small
    rw [Nat.zero_add,loaded _ (by rw [← length] at small; omega)]
    simp [Item.refName]
  · intro k
    rw [Nat.zero_add]
    rfl

/- The search ends on the key, or on the last item before it: the root item of the top level
is there. Behind it the references that are to come are those that are seen. -/
theorem refStart (t : RootTree disk sb map height tree) :
    ∃ path later, refSearch (blockOf disk map) sb.root = some path ∧ At (blockOf disk map) path height tree sb.root ∧
      (∀ j, height < j → path.itemsnr j = 0) ∧ Tree.rest path.slots height tree = path.item::later ∧
      (∀ item ∈ later, rootRefKey.Before item.key) ∧ refsSeen height tree =
        (path.item::later).takeWhile fun item => btrfsCompKeysType rootRefKey item.key = 0 := by
  obtain ⟨ret,path,search,at',outer,before,split,early,late,outcome⟩ := searchWhole rootRefKey btrfsMaxLevel clearPath
    t.holds t.full t.low t.low t.sorted (fun _ _ => rfl)
  obtain ⟨later,head⟩ := restHead at'
  have top : ∀ j, height < j → path.itemsnr j = 0 := fun j more => by
    rw [(outer j more).2.1]
    rfl
  rw [head] at split
  rw [head,List.tail_cons] at late
  have refs : ∀ {ys : List Item} (xs : List Item), Tree.items height tree = xs ++ ys →
      (∀ x ∈ xs, x.key.Before rootRefKey) → (∀ y ∈ ys, ¬ y.key.Before rootRefKey) →
      topRefs (Tree.items height tree) = ys.takeWhile fun item => btrfsCompKeysType rootRefKey item.key = 0 := by
    intro ys xs eq below above
    rw [topRefs,eq,kindAppend rfl below]
    have rising := t.sorted
    rw [Tree.Sorted,eq] at rising
    exact kindFirst (List.pairwise_append.mp rising).2.1 above
  by_cases exact' : ret = 0
  · have same : path.item.key = rootRefKey := by
      rcases outcome with h | h | h
      · exact h.2
      · omega
      · omega
    have all : topRefs (Tree.items height tree) =
        (path.item::later).takeWhile fun item => btrfsCompKeysType rootRefKey item.key = 0 := by
      refine refs before split early fun item mem => ?_
      rcases List.mem_cons.mp mem with here | behind
      · rw [here,same]
        exact fun less => beforeNot less less
      · exact beforeNot (late item behind)
    refine ⟨path,later,?_,at',top,head,late,?_⟩
    · rw [refSearch,search]
      simp only [exact',ne_eq,not_true_eq_false,if_false]
    · rw [← all,refsSeen,if_neg]
      rintro ⟨_,_,first,_,isFirst,other⟩
      rw [all,List.takeWhile_cons,if_pos (by rw [same]; decide)] at isFirst
      exact other (Option.some.inj isFirst ▸ same)
  -- the slot behind: the next item, or still this one where the leaf ends
  have moved : refSearch (blockOf disk map) sb.root = (nextSlot (blockOf disk map) rootRefKey path).map Prod.snd := by
    rw [refSearch,search]
    simp only [if_pos exact']
  have below : path.item.key.Before rootRefKey := by
    rcases outcome with h | h | ⟨_,first,above⟩
    · exact absurd h.1 exact'
    · exact h.2
    · exfalso
      obtain ⟨root,mem,kind,objectid⟩ := t.default.1
      have rootBelow : root.key.Before rootRefKey := by
        unfold Item.IsRoot at kind
        exact Or.inr ⟨objectid,Or.inl (by rw [kind]; decide)⟩
      rw [split,first,List.nil_append] at mem
      rcases List.mem_cons.mp mem with here | behind
      · exact beforeNot above (here ▸ rootBelow)
      · exact beforeNot (late root behind) rootBelow
  have all : topRefs (Tree.items height tree) = later.takeWhile fun item => btrfsCompKeysType rootRefKey item.key = 0 := by
    refine refs (before ++ [path.item]) (by rw [split]; simp) ?_ fun item mem => beforeNot (late item mem)
    intro x mem
    rcases List.mem_append.mp mem with inBefore | here
    · exact early x inBefore
    · rw [List.mem_singleton.mp here]
      exact below
  have other : btrfsCompKeysType rootRefKey path.item.key ≠ 0 := fun kind => kindNotBefore rfl kind below
  by_cases more : path.slots 0 + 1 < path.itemsnr 0
  · obtain ⟨path',next,there,behind,outside⟩ := nextSlotMoves t.holds t.full at' more
      (by rw [head]; exact late)
    rw [head,List.cons.injEq] at behind
    obtain ⟨later',head'⟩ := restHead there
    have eq := behind.2
    rw [head'] at eq
    refine ⟨path',later',by rw [moved,next]; rfl,there,fun j lt => by rw [outside j lt]; exact top j lt,head',?_,?_⟩
    · intro item mem
      exact late item (by rw [eq]; exact List.mem_cons_of_mem _ mem)
    · rw [← eq,← all,refsSeen,if_neg]
      rintro ⟨other,mem',first,isHead,isFirst,_⟩
      obtain ⟨leaf,mem,_,next',_,_,inLeaf,rest⟩ := leavesInside at' more
      rw [head] at rest
      have same : first = next' := by
        have second := (List.cons.inj rest).2
        rw [all,second,List.takeWhile_cons] at isFirst
        split at isFirst
        · exact (Option.some.inj isFirst).symm
        · cases isFirst
      exact insideHead t.sorted mem inLeaf mem' (same ▸ isHead)
  · refine ⟨path,later,by rw [moved,nextSlotLast (by omega)]; rfl,at',top,head,late,?_⟩
    rw [List.takeWhile_cons,if_neg (by simpa using other),refsSeen]
    split
    · rfl
    rename_i seen
    rw [all]
    cases eq : later with
    | nil => rfl
    | cons next more' =>
      rw [List.takeWhile_cons]
      split
      · rename_i kind
        rw [eq] at head
        obtain ⟨leaf,mem,leafHead⟩ := leavesNext t.full at' (by omega) head
        refine absurd ⟨leaf,mem,next,leafHead,?_,?_⟩ seen
        · rw [all,eq,List.takeWhile_cons,if_pos kind]
          rfl
        · exact (beforeNe (late next (by rw [eq]; simp))).symm
      · rfl

theorem topRefIs {ref : Item} {items : List Item} (mem : ref ∈ topRefs items) : ref ∈ items ∧ ref.IsRef := by
  obtain ⟨inside,kind⟩ := List.mem_filter.mp mem
  exact ⟨inside,(compTypeSame.1 (of_decide_eq_true kind)).2.symm⟩

theorem seenRef {ref : Item} (mem : ref ∈ refsSeen height tree) : ref ∈ Tree.items height tree ∧ ref.IsRef := by
  unfold refsSeen at mem
  split at mem
  · cases mem
  · exact topRefIs mem

theorem subvolFound (t : RootTree disk sb map height tree) {name : List UInt8} (crosses : RefsPassed height tree name) :
    ∃ enough, ∀ turns, enough ≤ turns → findSubvol (blockOf disk map) sb.root name turns =
      some (((refsSeen height tree).find? fun ref => ref.refName.isPrefixOf name).map fun ref => ref.key.offset) := by
  by_cases empty : name = []
  · refine ⟨0,fun turns _ => ?_⟩
    have none' : (refsSeen height tree).find? (fun ref => ref.refName.isPrefixOf name) = none := by
      refine List.find?_eq_none.mpr fun ref mem prefix' => ?_
      obtain ⟨inside,kind⟩ := seenRef mem
      have some' := (t.names ref inside kind).1
      have length := (List.isPrefixOf_iff_prefix.mp prefix').length_le
      rw [empty,Item.refName,List.length_drop] at length
      simp only [List.length_nil] at length
      omega
    rw [findSubvol,if_pos empty,none']
    rfl
  · obtain ⟨path,later,start,at',top,rest,late,refs⟩ := refStart t
    refine ⟨later.length + 2,fun turns enough => ?_⟩
    obtain ⟨turns,rfl⟩ : ∃ k, turns = k + 1 := ⟨turns - 1,by omega⟩
    obtain ⟨path',ran,item'⟩ := scanRest (refScans t crosses) later turns turns trivial at' top rest (by omega)
      (by omega) late (by
        rw [passedRefs,← refs,refsPassed,if_neg empty]
        exact fun _ mem => mem)
    have ran : scanLeaves (fun _ => blockOf disk map) (refMatches name) rootRefKey (turns + 1) () path = some _ := ran
    rw [scanRefs,← refs] at ran item'
    rw [findSubvol,if_neg empty,start]
    simp only [ran,Option.map_some]
    cases found : (refsSeen height tree).find? fun ref => ref.refName.isPrefixOf name with
    | none => rfl
    | some ref =>
      rw [found] at item'
      rw [item' ref rfl]
      rfl

/- The last root item of a subvolume is what the search for its highest key finds. -/
theorem rootFound (t : RootTree disk sb map height tree) {id : Nat}
    (some' : ∃ item ∈ Tree.items height tree, item.IsRoot ∧ item.key.objectid = id) :
    ∃ ret path item, searchTree (blockOf disk map) (rootItemKey id) btrfsMaxLevel sb.root clearPath = some (ret,path) ∧
      item ∈ Tree.items height tree ∧ item.IsRoot ∧ item.key.objectid = id ∧ le64 path.data rootBytenr = item.bytenr := by
  obtain ⟨root,mem,kind,objectid⟩ := some'
  obtain ⟨ret,path,search,at',_,before,split,early,late,outcome⟩ := searchWhole (rootItemKey id) btrfsMaxLevel clearPath
    t.holds t.full t.low t.low t.sorted (fun _ _ => rfl)
  obtain ⟨later,head⟩ := restHead at'
  obtain ⟨inside,loaded⟩ := atLoaded at'
  have word := (t.words root mem).1
  unfold Item.IsRoot at kind
  have upTo : ¬ (rootItemKey id).Before root.key := by
    simp only [DiskKey.Before,rootItemKey,kind,objectid]
    omega
  rw [head] at split
  rw [head,List.tail_cons] at late
  have sorted := t.sorted
  rw [Tree.Sorted,split] at sorted
  have notAfter : ¬ path.item.key.Before root.key := by
    rw [split] at mem
    rcases List.mem_append.mp mem with inBefore | inRest
    · exact beforeNot ((List.pairwise_append.mp sorted).2.2 root inBefore path.item (by simp))
    · rcases List.mem_cons.mp inRest with here | behind
      · rw [here]
        exact fun less => beforeNot less less
      · exact absurd (late root behind) upTo
  have found : path.item.IsRoot ∧ path.item.key.objectid = id := by
    unfold Item.IsRoot
    rcases outcome with ⟨_,same⟩ | ⟨_,below⟩ | ⟨_,first,above⟩
    · rw [same]
      exact ⟨rfl,rfl⟩
    · simp only [DiskKey.Before,rootItemKey,kind,objectid] at below notAfter
      omega
    · exfalso
      rw [split,first,List.nil_append] at mem
      rcases List.mem_cons.mp mem with here | behind
      · rw [here] at upTo
        exact upTo above
      · exact upTo (late root behind)
  have size := t.sizes path.item inside found.1
  refine ⟨ret,path,path.item,search,inside,found.1,found.2,?_⟩
  refine le64Congr fun k _ lt => ?_
  rw [loaded k (by omega)]
  exact List.getElem_eq_getD _

theorem treeTaken (t : RootTree disk sb map height tree) {name : List UInt8} (crosses : RefsPassed height tree name) :
    ∃ item ∈ Tree.items height tree, item.IsRoot ∧
      item.key.objectid = (((refsSeen height tree).find? fun ref => ref.refName.isPrefixOf name).map
        fun ref => ref.key.offset).getD fsTreeObjectid ∧
      ∃ enough, ∀ turns, enough ≤ turns → btrfsGetFsTree disk sb map name turns = some item.bytenr := by
  obtain ⟨enough,found⟩ := subvolFound t crosses
  have some' : ∃ item ∈ Tree.items height tree, item.IsRoot ∧ item.key.objectid =
      (((refsSeen height tree).find? fun ref => ref.refName.isPrefixOf name).map
        fun ref => ref.key.offset).getD fsTreeObjectid := by
    cases first : (refsSeen height tree).find? fun ref => ref.refName.isPrefixOf name with
    | none => exact t.default.1
    | some ref =>
      obtain ⟨inside,kind⟩ := seenRef (List.mem_of_find?_eq_some first)
      exact t.roots ref inside kind
  obtain ⟨ret,path,item,search,mem,kind,objectid,bytes⟩ := rootFound t some'
  refine ⟨item,mem,kind,objectid,enough,fun turns le => ?_⟩
  rw [btrfsGetFsTree,found turns le]
  simp only [search,Option.map_some,bytes]

theorem toldSelects {name : List UInt8}
    (told : NamesTold height tree name) : Selected (Tree.items height tree) name
      ((((refsSeen height tree).find? fun ref => ref.refName.isPrefixOf name).map
        fun ref => ref.key.offset).getD fsTreeObjectid) := by
  unfold NamesTold at told
  cases first : (refsSeen height tree).find? fun ref => ref.refName.isPrefixOf name with
  | none =>
    rw [first] at told
    exact Or.inr ⟨told,rfl⟩
  | some ref =>
    rw [first] at told
    obtain ⟨inside,kind⟩ := seenRef (List.mem_of_find?_eq_some first)
    exact Or.inl ⟨ref,inside,kind,told,rfl⟩

theorem selectsTold (t : RootTree disk sb map height tree) {name : List UInt8}
    (selected : Selected (Tree.items height tree) name
      ((((refsSeen height tree).find? fun ref => ref.refName.isPrefixOf name).map
        fun ref => ref.key.offset).getD fsTreeObjectid)) : NamesTold height tree name := by
  unfold NamesTold
  cases first : (refsSeen height tree).find? fun ref => ref.refName.isPrefixOf name with
  | none =>
    rw [first] at selected
    rcases selected with ⟨ref,mem,kind,_,id⟩ | ⟨none',_⟩
    · exact absurd id (t.default.2 ref mem kind)
    · exact none'
  | some ref =>
    rw [first] at selected
    obtain ⟨inside,kind⟩ := seenRef (List.mem_of_find?_eq_some first)
    rcases selected with ⟨other,mem,kind',name',id⟩ | ⟨_,id⟩
    · rw [← t.distinct other mem ref inside kind' kind id]
      exact name'
    · exact absurd id (t.default.2 ref inside kind)

end

/- Where the blocks that the scan passes can be left, the subvolume of the name, or else the
top level, is taken exactly when the names tell it. -/
theorem fsTreeSelected {disk : Nat → TreeBuf} {sb : SuperBlock} {map : ChunkMap} {height : Nat} {tree : Tree height}
    (t : RootTree disk sb map height tree) (name : List UInt8) :
    (RefsPassed height tree name ∧ NamesTold height tree name → SelectsTree disk sb map (Tree.items height tree) name) ∧
    (RefsPassed height tree name → SelectsTree disk sb map (Tree.items height tree) name → NamesTold height tree name) := by
  constructor
  · rintro ⟨crosses,told⟩
    obtain ⟨item,mem,kind,objectid,taken⟩ := treeTaken t crosses
    exact ⟨item.bytenr,taken,item,mem,kind,rfl,by rw [objectid]; exact toldSelects told⟩
  · rintro crosses ⟨fsTree,⟨enough,selects⟩,item,mem,kind,bytes,selected⟩
    obtain ⟨item',mem',kind',objectid,enough',taken⟩ := treeTaken t crosses
    have same := (taken (enough + enough') (by omega)).symm.trans (selects (enough + enough') (by omega))
    have block := t.blocks item mem item' mem' kind kind' (bytes.trans (Option.some.inj same).symm)
    rw [block,objectid] at selected
    exact selectsTold t selected

instance (j k : DiskKey) : Decidable (j.Before k) := by unfold DiskKey.Before; infer_instance

/- A tree of roots in one leaf: the top level and two subvolumes in it, "sub" and "subvol". -/
def rootAt (objectid : Nat) (bytenr : UInt8) : Item :=
  ⟨⟨objectid,132,0⟩,List.replicate 176 0 ++ [bytenr,0,0,0,0,0,0,0]⟩
def refTo (id : Nat) (name : List UInt8) : Item := ⟨⟨5,156,id⟩,List.replicate 18 0 ++ name⟩
def subName : List UInt8 := [115,117,98]
def subvolName : List UInt8 := [115,117,98,118,111,108]
def smallRoots : List Item := [rootAt 5 1,refTo 256 subName,refTo 257 subvolName,rootAt 256 2,rootAt 257 3]

set_option maxRecDepth 8000 in
theorem smallRootTree : @RootTree (leafDisk smallRoots) smallSuper (insertAll [systemChunk]) 0 smallRoots := by
  have items : Tree.items 0 smallRoots = smallRoots := rfl
  have sorted : smallRoots.Pairwise fun x y => x.key.Before y.key := by decide
  refine ⟨by decide,by simp [Tree.Full,Tree.leaf,smallRoots],sorted,leafHolds trivial,?_,?_,?_,?_,?_,?_,?_⟩ <;>
    (rw [items]; decide)

theorem fsTreeSelectedSub : SelectsTree (leafDisk smallRoots) smallSuper (insertAll [systemChunk]) smallRoots subName :=
  (fsTreeSelected smallRootTree subName).1 ⟨trivial,(rfl : (refTo 256 subName).refName = subName)⟩

/- Asked for "subvol", the code takes "sub". -/
theorem otherSubvolTaken : ¬ ∀ (disk : Nat → TreeBuf) (sb : SuperBlock) (map : ChunkMap) (height : Nat) (tree : Tree height)
    (name : List UInt8), RootTree disk sb map height tree → SelectsTree disk sb map (Tree.items height tree) name := by
  intro claim
  have told := (fsTreeSelected smallRootTree subvolName).2 trivial (claim _ _ _ 0 smallRoots subvolName smallRootTree)
  have wrong : (refTo 256 subName).refName = subvolName := told
  exact absurd wrong (by decide)

end Syslinux.Btrfs
