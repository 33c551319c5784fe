import Syslinux.BtrfsTree

/-! Where search_tree, next_slot and next_leaf lead in a tree that lies on the disk. -/
namespace Syslinux.Btrfs
open BinSearch

section
variable {j k l : DiskKey}

theorem compKeysSame : btrfsCompKeys j k = 0 ↔ j = k := by
  unfold btrfsCompKeys
  constructor
  · intro same
    split_ifs at same <;> exact DiskKey.ext (by omega) (by omega) (by omega)
  · rintro rfl
    simp

theorem compKeysBelow : btrfsCompKeys j k < 0 ↔ j.Before k := by
  unfold btrfsCompKeys DiskKey.Before
  split_ifs <;> omega

theorem compKeysAbove : 0 < btrfsCompKeys j k ↔ k.Before j := by
  unfold btrfsCompKeys DiskKey.Before
  split_ifs <;> omega

theorem compTypeSame : btrfsCompKeysType j k = 0 ↔ j.objectid = k.objectid ∧ j.type = k.type := by
  unfold btrfsCompKeysType
  constructor
  · intro same
    split_ifs at same <;> omega
  · rintro ⟨objectid,type⟩
    rw [objectid,type]
    simp

theorem beforeTrans (first : j.Before k) (second : k.Before l) : j.Before l := by
  unfold DiskKey.Before at *
  omega

theorem beforeNot (h : j.Before k) : ¬ k.Before j := by
  unfold DiskKey.Before at *
  omega

theorem beforeNe (h : j.Before k) : j ≠ k := by
  rintro rfl
  exact beforeNot h h

end

section
variable {key : DiskKey} {keyAt : Nat → DiskKey} {min nritems : Nat}

theorem slotAbove (above : ∀ i, min ≤ i → i < nritems → key.Before (keyAt i)) :
    slotFor key keyAt min nritems = (1,min) := by
  have found : search (fun i => btrfsCompKeys (keyAt i) key) min nritems = (1,min) :=
    searchAllAbove fun i le lt => compKeysAbove.2 (above i le lt)
  rw [slotFor,found]
  simp

/- A search of the whole block: the key itself, the last key before it, or, with all keys
behind it, the first. -/
theorem slotWhole (key : DiskKey) {keyAt : Nat → DiskKey} {nritems : Nat} (some' : 0 < nritems) (sorted : ∀ i j, i < j → j < nritems → (keyAt i).Before (keyAt j)) :
    ∃ ret slot, slotFor key keyAt 0 nritems = (ret,slot) ∧ slot < nritems ∧
      (∀ i, slot < i → i < nritems → key.Before (keyAt i)) ∧
      (ret = 0 ∧ keyAt slot = key ∨ ret = 1 ∧ (keyAt slot).Before key ∨ ret = 1 ∧ slot = 0 ∧ key.Before (keyAt 0)) := by
  have ascends : Ascends (fun i => btrfsCompKeys (keyAt i) key) 0 nritems := by
    intro i j _ less inside notAbove
    have notAbove : btrfsCompKeys (keyAt j) key ≤ 0 := notAbove
    refine compKeysBelow.2 ?_
    have order := sorted i j less inside
    rcases Int.lt_or_eq_of_le notAbove with below | same
    · exact beforeTrans order (compKeysBelow.1 below)
    · rw [← compKeysSame.1 same]
      exact order
  have found := searchFound (Nat.zero_le nritems) ascends
  cases eq : search (fun i => btrfsCompKeys (keyAt i) key) 0 nritems with
  | mk ret slot =>
    rw [eq] at found
    cases found with
    | here _ below same =>
      refine ⟨0,slot,by rw [slotFor,eq]; simp,below,?_,Or.inl ⟨rfl,compKeysSame.1 same⟩⟩
      intro i less inside
      rw [← compKeysSame.1 same]
      exact sorted slot i less inside
    | missing _ below before behind =>
      by_cases first : slot = 0
      · subst first
        refine ⟨1,0,by rw [slotFor,eq]; simp,some',?_,Or.inr (Or.inr ⟨rfl,rfl,?_⟩)⟩
        · intro i _ inside
          exact compKeysAbove.1 (behind i (Nat.zero_le _) inside)
        · exact compKeysAbove.1 (behind 0 (Nat.le_refl _) some')
      · refine ⟨1,slot - 1,by rw [slotFor,eq]; simp [Nat.pos_of_ne_zero first],by omega,?_,Or.inr (Or.inl ⟨rfl,?_⟩)⟩
        · intro i less inside
          exact compKeysAbove.1 (behind i (by omega) inside)
        · exact compKeysBelow.1 (before (slot - 1) (Nat.zero_le _) (by omega))

end

def Tree.onwards (slot : Nat) : (level : Nat) → Tree level → List Item
  | 0,tree => tree.leaf.drop slot
  | level+1,tree => (tree.children.drop slot).flatMap (Tree.items level)

def Tree.Leads (slots : Nat → Nat) : (level : Nat) → Tree level → Prop
  | 0,tree => slots 0 < tree.leaf.length
  | level+1,tree => ∃ child, tree.children[slots (level + 1)]? = some child ∧ Tree.Leads slots level child

def Tree.Lone : (level : Nat) → Tree level → Prop
  | 0,tree => tree.leaf.length = 1
  | level+1,tree => tree.children.length = 1 ∧ ∀ child ∈ tree.children, Tree.Lone level child

/- next_leaf resets the slot of one level only: the last slots below that level have to be
the first ones too. -/
def Tree.Resets : (level : Nat) → Tree level → Prop
  | 0,_ => True
  | level+1,tree => ∀ child ∈ tree.children.getLast?, Tree.Lone level child

/- Every subtree that ends in an item of the kind, and that has a neighbour to go on to,
can be left for it. -/
def Tree.Crosses (wanted : Item → Prop) : (level : Nat) → Tree level → Prop
  | 0,_ => True
  | level+1,tree => (∀ child ∈ tree.children, Tree.Crosses wanted level child) ∧
      ∀ i child, tree.children[i]? = some child → i + 1 < tree.children.length →
        (∃ last ∈ (Tree.items level child).getLast?, wanted last) → Tree.Resets level child

section
variable {block : Nat → TreeBuf} {mapped : Nat → Prop}

theorem fullItems : ∀ {level : Nat} {tree : Tree level}, Tree.Full level tree → Tree.items level tree ≠ []
  | 0,_,full => full
  | level+1,tree,full => by
      obtain ⟨some',all⟩ := full
      obtain ⟨child,later,eq⟩ := List.exists_cons_of_ne_nil some'
      rw [Tree.items,eq,List.flatMap_cons]
      exact List.append_ne_nil_of_left_ne_nil (fullItems (all child (by rw [eq]; simp))) _

theorem fullChild {level : Nat} {tree : Tree (level + 1)} (full : Tree.Full (level + 1) tree) {i : Nat} {child : Tree level}
    (at' : tree.children[i]? = some child) : Tree.Full level child := full.2 child (List.mem_of_getElem? at')

theorem leadsZero {slots : Nat → Nat} : ∀ {level : Nat} {tree : Tree level}, Tree.Full level tree →
    (∀ j ≤ level, slots j = 0) → Tree.Leads slots level tree
  | 0,tree,full,zero => by
      rw [Tree.Leads,zero 0 (Nat.le_refl _)]
      exact List.length_pos_iff.mpr full
  | level+1,tree,full,zero => by
      obtain ⟨child,later,eq⟩ := List.exists_cons_of_ne_nil full.1
      refine ⟨child,by rw [zero (level + 1) (Nat.le_refl _),eq]; rfl,?_⟩
      exact leadsZero (full.2 child (by rw [eq]; simp)) fun j le => zero j (by omega)

theorem restZero {slots : Nat → Nat} : ∀ {level : Nat} {tree : Tree level}, (∀ j ≤ level, slots j = 0) →
    Tree.rest slots level tree = Tree.items level tree
  | 0,tree,zero => by rw [Tree.rest,zero 0 (Nat.le_refl _)]; rfl
  | level+1,tree,zero => by
      rw [Tree.rest,zero (level + 1) (Nat.le_refl _),List.drop_zero,Tree.items]
      cases tree.children with
      | nil => rfl
      | cons child later =>
        simp only [List.flatMap_cons]
        rw [restZero fun j le => zero j (by omega)]

theorem restLeads {slots : Nat → Nat} {level : Nat} {tree : Tree (level + 1)} {child : Tree level}
    (at' : tree.children[slots (level + 1)]? = some child) : Tree.rest slots (level + 1) tree =
      Tree.rest slots level child ++ Tree.onwards (slots (level + 1) + 1) (level + 1) tree := by
  obtain ⟨inside,eq⟩ := List.getElem?_eq_some_iff.mp at'
  rw [Tree.rest,List.drop_eq_getElem_cons inside,eq]
  rfl

theorem onwardsChild {slot level : Nat} {tree : Tree (level + 1)} {i : Nat} {child : Tree level} (le : slot ≤ i)
    (at' : tree.children[i]? = some child) {item : Item} (mem : item ∈ Tree.items level child) :
    item ∈ Tree.onwards slot (level + 1) tree := by
  rw [Tree.onwards,List.mem_flatMap]
  refine ⟨child,?_,mem⟩
  refine List.mem_of_getElem? (i := i - slot) ?_
  rw [List.getElem?_drop,Nat.add_sub_cancel' le]
  exact at'

/- A search for a key before all that it can meet stays in the slots it is given. -/
theorem searchAbove (key : DiskKey) : ∀ {level : Nat} {tree : Tree level} {addr : Nat} (turns : Nat) (path : Path),
    Holds block mapped level tree addr → Tree.Full level tree → level < turns → level < btrfsMaxLevel →
    Tree.Leads path.slots level tree →
    (∀ item ∈ Tree.onwards (path.slots level) level tree, key.Before item.key) →
    ∃ path', searchTree block key turns addr path = some (1,path') ∧ At block path' level tree addr ∧
      path'.slots = path.slots ∧ ∀ j, level < j → path'.offsets j = path.offsets j ∧ path'.itemsnr j = path.itemsnr j
  | 0,tree,addr,turns+1,path,holds,full,_,_,leads,above => by
      obtain ⟨_,level,count,items⟩ := holds
      have inside : path.slots 0 < tree.leaf.length := leads
      have entry := fun i (h : i < tree.leaf.length) => items i tree.leaf[i] (List.getElem?_eq_getElem h)
      have slot : slotFor key (fun i => ((block addr).items i).key) (path.slots 0) (block addr).nritems = (1,path.slots 0) := by
        refine slotAbove fun i le lt => ?_
        rw [count] at lt
        rw [entry i lt]
        refine above _ ?_
        refine List.mem_of_getElem? (i := i - path.slots 0) ?_
        rw [Tree.onwards,List.getElem?_drop,Nat.add_sub_cancel' le,List.getElem?_eq_getElem lt]
      refine ⟨(path.visit 0 addr (block addr).nritems (path.slots 0)).load ((block addr).items (path.slots 0)),?_,?_,?_,?_⟩
      · rw [searchTree]
        simp only [level,slot]
        rfl
      · refine ⟨by simp [Path.load,Path.visit],by simp [Path.load,Path.visit,count],tree.leaf[path.slots 0],?_,?_,?_⟩
        · simp only [Path.load,Path.visit,Function.update_self]
          exact List.getElem?_eq_getElem inside
        · exact entry _ inside
        · intro i small
          rw [Path.load,entry _ inside]
          have stored : store (path.visit 0 addr (block addr).nritems (path.slots 0)).data 0 tree.leaf[path.slots 0].data
              (0 + i) = tree.leaf[path.slots 0].data[i] := storeInside small
          rwa [Nat.zero_add] at stored
      · simp only [Path.load,Path.visit,Function.update_eq_self]
      · intro j more
        simp only [Path.load,Path.visit]
        exact ⟨Function.update_of_ne (by omega) _ _,Function.update_of_ne (by omega) _ _⟩
  | level+1,tree,addr,turns+1,path,holds,full,enough,low,leads,above => by
      obtain ⟨_,levelOf,count,below⟩ := holds
      obtain ⟨child,at',deeper⟩ := leads
      have keyOf : ∀ i, path.slots (level + 1) ≤ i → i < tree.children.length → key.Before ((block addr).ptrs i).key := by
        intro i le lt
        have here := List.getElem?_eq_getElem lt
        obtain ⟨first,later,eq⟩ := List.exists_cons_of_ne_nil (fullItems (fullChild full here))
        rw [(below i _ here).2 first (by rw [eq]; rfl)]
        exact above first (onwardsChild le here (by rw [eq]; simp))
      have slot : slotFor key (fun i => ((block addr).ptrs i).key) (path.slots (level + 1)) (block addr).nritems =
          (1,path.slots (level + 1)) := slotAbove fun i le lt => keyOf i le (by rwa [count] at lt)
      let next := path.visit (level + 1) addr (block addr).nritems (path.slots (level + 1))
      have same : next.slots = path.slots := by simp [next,Path.visit]
      obtain ⟨path',found,there,slots,outer⟩ := searchAbove key turns next
        (below _ child at').1 (fullChild full at') (by omega) (by omega) (same ▸ deeper) (by
          intro item mem
          refine above item (onwardsChild (Nat.le_refl _) at' ?_)
          have drop : ∀ m, ∀ x ∈ Tree.onwards m level child, x ∈ Tree.items level child := by
            intro m x mem
            cases level with
            | zero => exact List.mem_of_mem_drop mem
            | succ level =>
              obtain ⟨c,inside,mem⟩ := List.mem_flatMap.mp mem
              exact List.mem_flatMap.mpr ⟨c,List.mem_of_mem_drop inside,mem⟩
          exact drop _ _ mem)
      refine ⟨path',?_,?_,by rw [slots,same],?_⟩
      · rw [searchTree]
        simp only [levelOf,slot,if_neg (show ¬ btrfsMaxLevel ≤ level + 1 by omega)]
        exact found
      · refine ⟨?_,?_,child,?_,?_⟩
        · rw [(outer (level + 1) (by omega)).1]
          simp [next,Path.visit]
        · rw [(outer (level + 1) (by omega)).2]
          simp [next,Path.visit,count]
        · rw [slots,same]
          exact at'
        · rw [slots,same]
          exact there
      · intro j more
        rw [(outer j (by omega)).1,(outer j (by omega)).2]
        simp only [next,Path.visit]
        exact ⟨Function.update_of_ne (by omega) _ _,Function.update_of_ne (by omega) _ _⟩

/- The block of one level on the way of a path: what holds of it, and that a path which
differs only from there on still leads into the tree. -/
structure Below (block : Nat → TreeBuf) (mapped : Nat → Prop) (path : Path) (height : Nat) (tree : Tree height) (root : Nat)
    (level : Nat) (sub : Tree level) (addr : Nat) (behind : List Item) : Prop where
  holds : Holds block mapped level sub addr
  full : Tree.Full level sub
  at' : At block path level sub addr
  rest : Tree.rest path.slots height tree = Tree.rest path.slots level sub ++ behind
  crosses : ∀ wanted, Tree.Crosses wanted height tree → Tree.Crosses wanted level sub
  turn : ∀ path' : Path, (∀ j, level < j → path'.offsets j = path.offsets j ∧ path'.itemsnr j = path.itemsnr j ∧
      path'.slots j = path.slots j) → At block path' level sub addr →
    At block path' height tree root ∧ Tree.rest path'.slots height tree = Tree.rest path'.slots level sub ++ behind

theorem atBelow {path : Path} : ∀ {height : Nat} {tree : Tree height} {root : Nat} (level : Nat), level ≤ height →
    Holds block mapped height tree root → Tree.Full height tree → At block path height tree root →
    ∃ (sub : Tree level) (addr : Nat) (behind : List Item), Below block mapped path height tree root level sub addr behind
  | height,tree,root,level,le,holds,full,at' => by
      rcases Nat.lt_or_eq_of_le le with less | rfl
      · cases height with
        | zero => omega
        | succ height =>
          obtain ⟨offset,count,child,slot,inner⟩ := at'
          obtain ⟨sub,addr,behind,found⟩ := atBelow level (by omega) (holds.2.2.2 _ child slot).1
            (fullChild full slot) inner
          refine ⟨sub,addr,behind ++ Tree.onwards (path.slots (height + 1) + 1) (height + 1) tree,
            found.holds,found.full,found.at',?_,?_,?_⟩
          · rw [restLeads slot,found.rest,List.append_assoc]
          · intro wanted crosses
            exact found.crosses wanted (crosses.1 child (List.mem_of_getElem? slot))
          · intro path' same there
            obtain ⟨inner',rest⟩ := found.turn path' same there
            obtain ⟨offset',count',slots'⟩ := same (height + 1) (by omega)
            refine ⟨⟨by rw [offset',offset],by rw [count',count],child,by rw [slots']; exact slot,?_⟩,?_⟩
            · rw [slots']
              exact inner'
            · have there' : tree.children[path'.slots (height + 1)]? = some child := by
                rw [slots']
                exact slot
              rw [restLeads there',rest,List.append_assoc,slots']
      · exact ⟨tree,root,[],holds,full,at',by simp,fun _ crosses => crosses,fun path' _ there => ⟨there,by simp⟩⟩

theorem atSlots {path : Path} : ∀ {level : Nat} {tree : Tree level} {addr : Nat}, At block path level tree addr →
    ∀ j ≤ level, path.slots j < path.itemsnr j
  | 0,tree,addr,at',j,le => by
      obtain ⟨_,count,item,slot,_⟩ := at'
      obtain rfl : j = 0 := by omega
      rw [count]
      exact (List.getElem?_eq_some_iff.mp slot).1
  | level+1,tree,addr,at',j,le => by
      obtain ⟨_,count,child,slot,inner⟩ := at'
      rcases Nat.lt_or_eq_of_le le with less | same
      · exact atSlots inner j (by omega)
      · rw [same,count]
        exact (List.getElem?_eq_some_iff.mp slot).1

theorem restLast {path : Path} : ∀ {level : Nat} {tree : Tree level} {addr : Nat}, At block path level tree addr →
    (∀ j ≤ level, path.itemsnr j ≤ path.slots j + 1) → Tree.rest path.slots level tree = [path.item]
  | 0,tree,addr,at',last => by
      obtain ⟨_,count,item,slot,same,_⟩ := at'
      have end' := last 0 (Nat.le_refl _)
      rw [count] at end'
      obtain ⟨inside,eq⟩ := List.getElem?_eq_some_iff.mp slot
      rw [Tree.rest,List.drop_eq_getElem_cons inside,List.drop_eq_nil_of_le end',eq,same]
  | level+1,tree,addr,at',last => by
      obtain ⟨_,count,child,slot,inner⟩ := at'
      have end' := last (level + 1) (Nat.le_refl _)
      rw [count] at end'
      rw [restLeads slot,restLast inner fun j le => last j (by omega),Tree.onwards,List.drop_eq_nil_of_le end']
      rfl

theorem restHead {path : Path} : ∀ {level : Nat} {tree : Tree level} {addr : Nat}, At block path level tree addr →
    ∃ later, Tree.rest path.slots level tree = path.item::later
  | 0,tree,addr,at' => by
      obtain ⟨_,_,item,slot,same,_⟩ := at'
      obtain ⟨inside,eq⟩ := List.getElem?_eq_some_iff.mp slot
      exact ⟨_,by rw [Tree.rest,List.drop_eq_getElem_cons inside,eq,same]⟩
  | level+1,tree,addr,at' => by
      obtain ⟨_,_,child,slot,inner⟩ := at'
      obtain ⟨later,eq⟩ := restHead inner
      exact ⟨_,by rw [restLeads slot,eq]; rfl⟩

theorem nextSlotLast {key : DiskKey} {path : Path} (last : path.itemsnr 0 ≤ path.slots 0 + 1) :
    nextSlot block key path = some (1,path) := by
  rw [nextSlot]
  simp only [if_pos last,ite_self]

theorem nextSlotMoves {key : DiskKey} {path : Path} {height : Nat} {tree : Tree height} {root : Nat}
    (holds : Holds block mapped height tree root) (full : Tree.Full height tree) (at' : At block path height tree root)
    (more : path.slots 0 + 1 < path.itemsnr 0)
    (above : ∀ item ∈ (Tree.rest path.slots height tree).tail, key.Before item.key) :
    ∃ path', nextSlot block key path = some (0,path') ∧ At block path' height tree root ∧
      Tree.rest path.slots height tree = path.item::Tree.rest path'.slots height tree ∧
      ∀ j, height < j → path'.itemsnr j = path.itemsnr j := by
  obtain ⟨sub,addr,behind,found⟩ := atBelow 0 (Nat.zero_le height) holds full at'
  obtain ⟨offset,count,item,slot,same,_⟩ := found.at'
  obtain ⟨inside,eq⟩ := List.getElem?_eq_some_iff.mp slot
  have here : Tree.rest path.slots 0 sub = path.item::sub.leaf.drop (path.slots 0 + 1) := by
    rw [Tree.rest,List.drop_eq_getElem_cons inside,eq,same]
  let moved : Path := { path with slots := Function.update path.slots 0 (path.slots 0 + 1) }
  obtain ⟨path',search,there,slots,outer⟩ := searchAbove key btrfsMaxLevel moved
    found.holds found.full (by decide) (by decide)
    (show Function.update path.slots 0 (path.slots 0 + 1) 0 < sub.leaf.length by
      rw [Function.update_self,← count]
      exact more)
    (by
      intro x mem
      refine above x ?_
      rw [found.rest,here,List.cons_append,List.tail_cons]
      simp only [moved,Function.update_self] at mem
      exact List.mem_append_left _ mem)
  have agrees : ∀ j, 0 < j → path'.offsets j = path.offsets j ∧ path'.itemsnr j = path.itemsnr j ∧
      path'.slots j = path.slots j := by
    intro j more
    obtain ⟨offsets,itemsnr⟩ := outer j more
    refine ⟨offsets,itemsnr,?_⟩
    rw [slots]
    exact Function.update_of_ne (by omega) _ _
  obtain ⟨at'',rest⟩ := found.turn path' agrees there
  refine ⟨path',?_,at'',?_,fun j more => (agrees j (by omega)).2.1⟩
  · rw [nextSlot,if_neg (by omega)]
    simp only [if_neg (show ¬ path.itemsnr 0 ≤ path.slots 0 + 1 by omega)]
    rw [offset]
    exact congrArg (Option.map _) search
  · rw [found.rest,rest,here,List.cons_append]
    congr 2
    rw [Tree.rest,slots]
    simp [moved]

theorem loneSlots {path : Path} : ∀ {level : Nat} {tree : Tree level} {addr : Nat}, At block path level tree addr →
    Tree.Lone level tree → ∀ j ≤ level, path.slots j = 0
  | 0,tree,addr,at',lone,j,le => by
      have inside := atSlots at' 0 (Nat.le_refl _)
      obtain ⟨_,count,_⟩ := at'
      have one : tree.leaf.length = 1 := lone
      obtain rfl : j = 0 := by omega
      omega
  | level+1,tree,addr,at',lone,j,le => by
      have inside := atSlots at' (level + 1) (Nat.le_refl _)
      obtain ⟨_,count,child,slot,inner⟩ := at'
      rcases Nat.lt_or_eq_of_le le with less | same
      · exact loneSlots inner (lone.2 child (List.mem_of_getElem? slot)) j (by omega)
      · have one := lone.1
        rw [same]
        omega

theorem lastItem {path : Path} : ∀ {level : Nat} {tree : Tree level} {addr : Nat}, At block path level tree addr →
    (∀ j ≤ level, path.itemsnr j ≤ path.slots j + 1) → (Tree.items level tree).getLast? = some path.item
  | 0,tree,addr,at',last => by
      obtain ⟨_,count,item,slot,same,_⟩ := at'
      have end' := last 0 (Nat.le_refl _)
      obtain ⟨inside,_⟩ := List.getElem?_eq_some_iff.mp slot
      rw [Tree.items,List.getLast?_eq_getElem?,show tree.leaf.length - 1 = path.slots 0 by omega,slot,same]
  | level+1,tree,addr,at',last => by
      obtain ⟨_,count,child,slot,inner⟩ := at'
      have end' := last (level + 1) (Nat.le_refl _)
      obtain ⟨inside,eq⟩ := List.getElem?_eq_some_iff.mp slot
      have split : tree.children = tree.children.take (path.slots (level + 1)) ++ [child] := by
        have drop := List.drop_eq_getElem_cons inside
        have none' : tree.children.drop (path.slots (level + 1) + 1) = [] := List.drop_eq_nil_of_le (by omega)
        rw [none',eq] at drop
        rw [← drop,List.take_append_drop]
      rw [Tree.items,split,List.flatMap_append,List.flatMap_singleton,List.getLast?_append,
        lastItem inner fun j le => last j (by omega)]
      rfl

theorem resetSlots {path : Path} {level : Nat} {tree : Tree level} {addr : Nat} (at' : At block path level tree addr)
    (last : ∀ j ≤ level, path.itemsnr j ≤ path.slots j + 1) (resets : Tree.Resets level tree) :
    ∀ j < level, path.slots j = 0 := by
  cases level with
  | zero => exact fun j less => absurd less (Nat.not_lt_zero j)
  | succ level =>
    obtain ⟨_,count,child,slot,inner⟩ := at'
    have end' := last (level + 1) (Nat.le_refl _)
    obtain ⟨inside,_⟩ := List.getElem?_eq_some_iff.mp slot
    have final : tree.children.getLast? = some child := by
      rw [List.getLast?_eq_getElem?,show tree.children.length - 1 = path.slots (level + 1) by omega,slot]
    intro j less
    exact loneSlots inner (resets child final) j (by omega)

theorem climb {key : DiskKey} {path : Path} (level left : Nat) : ∀ {count : Nat},
    (∀ j, level ≤ j → j < level + count → path.itemsnr j ≠ 0 ∧ path.itemsnr j ≤ path.slots j + 1) →
    nextLeafFrom block key (left + count) level path = nextLeafFrom block key left (level + count) path
  | 0,_ => rfl
  | count+1,last => by
      obtain ⟨some',full⟩ := last level (Nat.le_refl _) (by omega)
      rw [← Nat.add_assoc,nextLeafFrom,if_neg some']
      simp only [if_pos full]
      rw [climb (level + 1) left fun j le lt => last j (by omega) (by omega)]
      congr 1
      omega

/- Behind an item that is the last of its leaf: the end of the tree, or the first item of
the next leaf if the subtree that is left allows it. -/
theorem nextLeafMoves {key : DiskKey} {path : Path} {height : Nat} {tree : Tree height} {root : Nat} {wanted : Item → Prop}
    (holds : Holds block mapped height tree root) (full : Tree.Full height tree) (low : height < btrfsMaxLevel)
    (at' : At block path height tree root) (top : ∀ j, height < j → path.itemsnr j = 0)
    (last : path.itemsnr 0 ≤ path.slots 0 + 1) (crosses : Tree.Crosses wanted height tree) (kind : wanted path.item)
    (above : ∀ item ∈ (Tree.rest path.slots height tree).tail, key.Before item.key) :
    Tree.rest path.slots height tree = [path.item] ∧ nextLeaf block key path = some (1,path) ∨
    ∃ path', nextLeaf block key path = some (0,path') ∧ At block path' height tree root ∧
      Tree.rest path.slots height tree = path.item::Tree.rest path'.slots height tree ∧
      ∀ j, height < j → path'.itemsnr j = path.itemsnr j := by
  have slots := atSlots at'
  by_cases some' : ∃ level, 1 ≤ level ∧ level ≤ height ∧ path.slots level + 1 < path.itemsnr level
  · -- the lowest level with a next entry
    obtain ⟨⟨positive,inside,more⟩,lowest⟩ := And.intro (Nat.find_spec some') fun {m} => Nat.find_min some' (m := m)
    generalize Nat.find some' = level at positive inside more lowest
    obtain ⟨level,rfl⟩ : ∃ below, level = below + 1 := ⟨level - 1,by omega⟩
    have ends : ∀ j ≤ level, path.itemsnr j ≤ path.slots j + 1 := by
      intro j le
      by_cases first : j = 0
      · rw [first]
        exact last
      · by_contra less
        exact lowest (show j < level + 1 by omega) ⟨by omega,by omega,by omega⟩
    obtain ⟨sub,addr,behind,found⟩ := atBelow _ inside holds full at'
    obtain ⟨offset,count,child,slot,inner⟩ := found.at'
    obtain ⟨here,_⟩ := List.getElem?_eq_some_iff.mp slot
    rw [count] at more
    have neighbour := List.getElem?_eq_getElem more
    have resets := (found.crosses wanted crosses).2 _ child slot more ⟨path.item,lastItem inner ends,kind⟩
    have zero := resetSlots inner ends resets
    let moved : Path := { path with
      slots := Function.update (Function.update path.slots (level + 1) (path.slots (level + 1) + 1)) level 0 }
    have movedHere : moved.slots (level + 1) = path.slots (level + 1) + 1 := by
      simp only [moved]
      rw [Function.update_of_ne (by omega),Function.update_self]
    have movedZero : ∀ j ≤ level, moved.slots j = 0 := by
      intro j le
      simp only [moved]
      by_cases same : j = level
      · rw [same,Function.update_self]
      · rw [Function.update_of_ne same,Function.update_of_ne (by omega),zero j (by omega)]
    have rest : Tree.rest path.slots (level + 1) sub =
        path.item::Tree.onwards (path.slots (level + 1) + 1) (level + 1) sub := by
      rw [restLeads slot,restLast inner ends]
      rfl
    obtain ⟨path',search,there,same,outer⟩ := searchAbove key btrfsMaxLevel moved
      found.holds found.full (show level + 1 < btrfsMaxLevel by omega) (show level + 1 < btrfsMaxLevel by omega)
      ⟨_,by rw [movedHere]; exact neighbour,leadsZero (fullChild found.full neighbour) movedZero⟩
      (by
        intro x mem
        refine above x ?_
        rw [found.rest,rest,List.cons_append,List.tail_cons]
        rw [movedHere] at mem
        exact List.mem_append_left _ mem)
    have agrees : ∀ j, level + 1 < j → path'.offsets j = path.offsets j ∧ path'.itemsnr j = path.itemsnr j ∧
        path'.slots j = path.slots j := by
      intro j more
      obtain ⟨offsets,itemsnr⟩ := outer j more
      refine ⟨offsets,itemsnr,?_⟩
      rw [same]
      simp only [moved]
      rw [Function.update_of_ne (by omega),Function.update_of_ne (by omega)]
    obtain ⟨at'',rest'⟩ := found.turn path' agrees there
    refine Or.inr ⟨path',?_,at'',?_,fun j more => (agrees j (by omega)).2.1⟩
    · have up : nextLeafFrom block key (btrfsMaxLevel - 1 - level + level) 1 path =
          nextLeafFrom block key (btrfsMaxLevel - 1 - level) (1 + level) path := climb 1 _
        fun j le lt => ⟨by have := slots j (by omega); omega,ends j (by omega)⟩
      rw [Nat.sub_add_cancel (by omega),Nat.add_comm 1 level] at up
      obtain ⟨left,eq⟩ := Nat.exists_eq_succ_of_ne_zero (show btrfsMaxLevel - 1 - level ≠ 0 by omega)
      rw [nextLeaf,up,eq,nextLeafFrom,if_neg (by rw [count]; omega)]
      simp only [if_neg (show ¬ path.itemsnr (level + 1) ≤ path.slots (level + 1) + 1 by omega)]
      rw [offset]
      exact congrArg (Option.map _) search
    · rw [found.rest,rest',rest,List.cons_append]
      congr 2
      have there' : sub.children[path'.slots (level + 1)]? = some sub.children[path.slots (level + 1) + 1] := by
        rw [same,movedHere]
        exact neighbour
      rw [restLeads there',restZero fun j le => by rw [same]; exact movedZero j le,same,movedHere]
      rw [Tree.onwards,List.drop_eq_getElem_cons more]
      rfl
  · have ends : ∀ j ≤ height, path.itemsnr j ≤ path.slots j + 1 := by
      intro j le
      by_cases first : j = 0
      · rw [first]
        exact last
      · by_contra less
        exact some' ⟨j,by omega,le,by omega⟩
    refine Or.inl ⟨restLast at' ends,?_⟩
    have up : nextLeafFrom block key (btrfsMaxLevel - 1 - height + height) 1 path =
        nextLeafFrom block key (btrfsMaxLevel - 1 - height) (1 + height) path := climb 1 _
      fun j le lt => ⟨by have := slots j (by omega); omega,ends j (by omega)⟩
    rw [Nat.sub_add_cancel (by omega),Nat.add_comm 1 height] at up
    rw [nextLeaf,up]
    cases left : btrfsMaxLevel - 1 - height with
    | zero => rfl
    | succ left => rw [nextLeafFrom,if_pos (top (height + 1) (by omega))]

def Tree.Sorted (level : Nat) (tree : Tree level) : Prop :=
  (Tree.items level tree).Pairwise fun x y => x.key.Before y.key

/- Where a search of a whole tree ends: at the item with the key, else at the last one
before it, else at the first one of all. -/
structure Reaches (block : Nat → TreeBuf) (key : DiskKey) (level : Nat) (tree : Tree level) (addr : Nat) (path : Path)
    (ret : Nat) (path' : Path) : Prop where
  at' : At block path' level tree addr
  outer : ∀ j, level < j → path'.offsets j = path.offsets j ∧ path'.itemsnr j = path.itemsnr j ∧ path'.slots j = path.slots j
  place : ∃ before, Tree.items level tree = before ++ Tree.rest path'.slots level tree ∧
    (∀ x ∈ before, x.key.Before key) ∧ (∀ x ∈ (Tree.rest path'.slots level tree).tail, key.Before x.key) ∧
    (ret = 0 ∧ path'.item.key = key ∨ ret = 1 ∧ path'.item.key.Before key ∨
      ret = 1 ∧ before = [] ∧ key.Before path'.item.key)

theorem searchWhole (key : DiskKey) : ∀ {level : Nat} {tree : Tree level} {addr : Nat} (turns : Nat) (path : Path),
    Holds block mapped level tree addr → Tree.Full level tree → level < turns → level < btrfsMaxLevel →
    Tree.Sorted level tree → (∀ j ≤ level, path.slots j = 0) →
    ∃ ret path', searchTree block key turns addr path = some (ret,path') ∧ Reaches block key level tree addr path ret path'
  | 0,tree,addr,turns+1,path,holds,full,_,_,sorted,zero => by
      obtain ⟨_,level,count,items⟩ := holds
      have sorted : tree.leaf.Pairwise fun x y => x.key.Before y.key := sorted
      have entry := fun i (h : i < tree.leaf.length) => items i tree.leaf[i] (List.getElem?_eq_getElem h)
      have order : ∀ i j, i < j → j < (block addr).nritems →
          ((block addr).items i).key.Before ((block addr).items j).key := by
        intro i j less inside
        rw [count] at inside
        rw [entry i (by omega),entry j inside]
        exact List.pairwise_iff_getElem.mp sorted i j (by omega) inside less
      obtain ⟨ret,slot,found,inside,behind,cases'⟩ := slotWhole key
        (show 0 < (block addr).nritems by rw [count]; exact List.length_pos_iff.mpr full) order
      let path' := (path.visit 0 addr (block addr).nritems slot).load ((block addr).items slot)
      have slots : path'.slots 0 = slot := by simp [path',Path.load,Path.visit]
      have item : path'.item = (block addr).items slot := rfl
      have small : slot < tree.leaf.length := by rwa [count] at inside
      have rest : Tree.rest path'.slots 0 tree = tree.leaf.drop slot := by rw [Tree.rest,slots]
      have beforeSlot : ∀ x ∈ tree.leaf.take slot, x.key.Before ((block addr).items slot).key := by
        intro x mem
        obtain ⟨i,less,eq⟩ := List.getElem_of_mem mem
        simp only [List.length_take] at less
        rw [List.getElem_take,← entry i (by omega)] at eq
        rw [← eq]
        exact order i slot (by omega) inside
      refine ⟨ret,path',?_,?_,?_,tree.leaf.take slot,?_,?_,?_,?_⟩
      · rw [searchTree]
        simp only [level,zero 0 (Nat.le_refl _),found]
        rfl
      · refine ⟨by simp [path',Path.load,Path.visit],by simp [path',Path.load,Path.visit,count],tree.leaf[slot],?_,?_,?_⟩
        · rw [slots]
          exact List.getElem?_eq_getElem small
        · exact entry slot small
        · intro i less
          have stored : store (path.visit 0 addr (block addr).nritems slot).data 0 tree.leaf[slot].data (0 + i) =
              tree.leaf[slot].data[i] := storeInside less
          rw [Nat.zero_add] at stored
          simp only [path',Path.load,entry slot small]
          exact stored
      · intro j more
        simp only [path',Path.load,Path.visit]
        exact ⟨Function.update_of_ne (by omega) _ _,Function.update_of_ne (by omega) _ _,Function.update_of_ne (by omega) _ _⟩
      · rw [rest]
        exact (List.take_append_drop slot tree.leaf).symm
      · intro x mem
        rcases cases' with ⟨_,same⟩ | ⟨_,below⟩ | ⟨_,first,_⟩
        · rw [← same]
          exact beforeSlot x mem
        · exact beforeTrans (beforeSlot x mem) below
        · rw [first] at mem
          simp at mem
      · intro x mem
        rw [rest,List.tail_drop] at mem
        obtain ⟨i,less,eq⟩ := List.getElem_of_mem mem
        simp only [List.length_drop] at less
        rw [List.getElem_drop,← entry (slot + 1 + i) (by omega)] at eq
        rw [← eq]
        exact behind (slot + 1 + i) (by omega) (by omega)
      · rw [item]
        rcases cases' with same | below | ⟨ret,first,above⟩
        · exact Or.inl same
        · exact Or.inr (Or.inl below)
        · rw [first]
          exact Or.inr (Or.inr ⟨ret,rfl,above⟩)
  | level+1,tree,addr,turns+1,path,holds,full,enough,low,sorted,zero => by
      obtain ⟨_,levelOf,count,below⟩ := holds
      obtain ⟨inChild,between⟩ := List.pairwise_flatMap.mp sorted
      have firstOf : ∀ i (h : i < tree.children.length), ∃ first later,
          Tree.items level tree.children[i] = first::later ∧ ((block addr).ptrs i).key = first.key ∧
          ∀ x ∈ later, first.key.Before x.key := by
        intro i h
        have here := List.getElem?_eq_getElem h
        obtain ⟨first,later,eq⟩ := List.exists_cons_of_ne_nil (fullItems (fullChild full here))
        have pairs := inChild _ (List.getElem_mem h)
        rw [eq] at pairs
        exact ⟨first,later,eq,(below i _ here).2 first (by rw [eq]; rfl),(List.pairwise_cons.mp pairs).1⟩
      have order : ∀ i j, i < j → j < (block addr).nritems → ((block addr).ptrs i).key.Before ((block addr).ptrs j).key := by
        intro i j less inside
        rw [count] at inside
        obtain ⟨first,_,eq,key,_⟩ := firstOf i (by omega)
        obtain ⟨first',_,eq',key',_⟩ := firstOf j inside
        rw [key,key']
        exact List.pairwise_iff_getElem.mp between i j (by omega) inside less first (by rw [eq]; simp) first' (by rw [eq']; simp)
      obtain ⟨ret,slot,found,inside,behind,cases'⟩ := slotWhole key
        (show 0 < (block addr).nritems by rw [count]; exact List.length_pos_iff.mpr full.1) order
      have small : slot < tree.children.length := by rwa [count] at inside
      have here := List.getElem?_eq_getElem small
      let next := path.visit (level + 1) addr (block addr).nritems slot
      obtain ⟨ret',path',search,reached⟩ := searchWhole key turns next (below slot _ here).1
        (fullChild full here) (by omega) (by omega) (inChild _ (List.getElem_mem small)) (by
          intro j le
          simp only [next,Path.visit]
          rw [Function.update_of_ne (by omega)]
          exact zero j (by omega))
      have slots : path'.slots (level + 1) = slot := by
        rw [(reached.outer (level + 1) (by omega)).2.2]
        simp [next,Path.visit]
      have there : tree.children[path'.slots (level + 1)]? = some tree.children[slot] := by rw [slots,here]
      obtain ⟨before,split,early,late,outcome⟩ := reached.place
      obtain ⟨later,head⟩ := restHead reached.at'
      obtain ⟨first,_,eqFirst,keyFirst,_⟩ := firstOf slot small
      have rest : Tree.rest path'.slots (level + 1) tree =
          Tree.rest path'.slots level tree.children[slot] ++ Tree.onwards (slot + 1) (level + 1) tree := by
        rw [restLeads there,slots]
      refine ⟨ret',path',?_,?_,?_,(tree.children.take slot).flatMap (Tree.items level) ++ before,?_,?_,?_,?_⟩
      · rw [searchTree]
        simp only [levelOf,zero (level + 1) (Nat.le_refl _),found,if_neg (show ¬ btrfsMaxLevel ≤ level + 1 by omega)]
        exact search
      · refine ⟨?_,?_,_,there,?_⟩
        · rw [(reached.outer (level + 1) (by omega)).1]
          simp [next,Path.visit]
        · rw [(reached.outer (level + 1) (by omega)).2.1]
          simp [next,Path.visit,count]
        · rw [slots]
          exact reached.at'
      · intro j more
        obtain ⟨offsets,itemsnr,same⟩ := reached.outer j (by omega)
        rw [offsets,itemsnr,same]
        simp only [next,Path.visit]
        exact ⟨Function.update_of_ne (by omega) _ _,Function.update_of_ne (by omega) _ _,Function.update_of_ne (by omega) _ _⟩
      · have cut : tree.children = tree.children.take slot ++ tree.children[slot]::tree.children.drop (slot + 1) := by
          rw [← List.drop_eq_getElem_cons small,List.take_append_drop]
        rw [rest,List.append_assoc,← List.append_assoc before,← split,Tree.onwards,Tree.items]
        conv_lhs => rw [cut]
        rw [List.flatMap_append,List.flatMap_cons]
      · intro x mem
        rcases List.mem_append.mp mem with earlier | inChild'
        · obtain ⟨child,inTake,mem⟩ := List.mem_flatMap.mp earlier
          obtain ⟨i,less,eq⟩ := List.getElem_of_mem inTake
          simp only [List.length_take] at less
          rw [List.getElem_take] at eq
          have toFirst := List.pairwise_iff_getElem.mp between i slot (by omega) small (by omega) x (by rw [eq]; exact mem)
            first (by rw [eqFirst]; simp)
          rcases cases' with ⟨_,same⟩ | ⟨_,before⟩ | ⟨_,zero',_⟩
          · rw [← same,keyFirst]
            exact toFirst
          · rw [keyFirst] at before
            exact beforeTrans toFirst before
          · omega
        · exact early x inChild'
      · intro x mem
        rw [rest,head,List.cons_append,List.tail_cons] at mem
        rw [head,List.tail_cons] at late
        rcases List.mem_append.mp mem with inside' | behind'
        · exact late x inside'
        · obtain ⟨child,inDrop,mem⟩ := List.mem_flatMap.mp behind'
          obtain ⟨i,less,eq⟩ := List.getElem_of_mem inDrop
          simp only [List.length_drop] at less
          rw [List.getElem_drop] at eq
          obtain ⟨first',later',eq',key',rising⟩ := firstOf (slot + 1 + i) (by omega)
          have after := behind (slot + 1 + i) (by omega) (by omega)
          rw [key'] at after
          rw [← eq,eq'] at mem
          rcases List.mem_cons.mp mem with same | later''
          · rw [same]
            exact after
          · exact beforeTrans after (rising x later'')
      · rcases outcome with same | before' | ⟨one,none',above⟩
        · exact Or.inl same
        · exact Or.inr (Or.inl before')
        · -- the path leads to the first item of the child
          rw [none',List.nil_append,head,eqFirst,List.cons.injEq] at split
          rw [← split.1,← keyFirst] at above
          rcases cases' with ⟨_,same⟩ | ⟨_,before'⟩ | ⟨_,zero',_⟩
          · exact absurd same.symm (beforeNe above)
          · exact absurd before' (beforeNot above)
          · refine Or.inr (Or.inr ⟨one,?_,by rw [← split.1,← keyFirst]; exact above⟩)
            rw [none',zero']
            rfl

end
end Syslinux.Btrfs
