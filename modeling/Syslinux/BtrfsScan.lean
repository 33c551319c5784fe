import Syslinux.BtrfsCursor

/-! The loop over the items of one kind, on a tree whose leaves next_leaf goes through one
by one: it is a loop over the list of the items. -/
namespace Syslinux.Btrfs

section
variable {block block' : Nat → TreeBuf} {mapped : Nat → Prop}

theorem holdsCongr (same : ∀ a, mapped a → block' a = block a) : ∀ {level : Nat} {tree : Tree level} {addr : Nat},
    Holds block mapped level tree addr → Holds block' mapped level tree addr
  | 0,_,addr,holds => by
      rw [Holds,same addr holds.1]
      exact holds
  | level+1,_,addr,holds => by
      rw [Holds,same addr holds.1]
      refine ⟨holds.1,holds.2.1,holds.2.2.1,fun i child at' => ?_⟩
      exact ⟨holdsCongr same (holds.2.2.2 i child at').1,(holds.2.2.2 i child at').2⟩

theorem atCongr (same : ∀ a, mapped a → block' a = block a) {path : Path} : ∀ {level : Nat} {tree : Tree level} {addr : Nat},
    Holds block mapped level tree addr → At block path level tree addr → At block' path level tree addr
  | 0,_,_,_,at' => at'
  | level+1,_,addr,holds,at' => by
      obtain ⟨offset,count,child,slot,inner⟩ := at'
      refine ⟨offset,count,child,slot,?_⟩
      rw [same addr holds.1]
      exact atCongr same (holds.2.2.2 _ child slot).1 inner

theorem atLoaded {path : Path} : ∀ {level : Nat} {tree : Tree level} {addr : Nat}, At block path level tree addr →
    path.item ∈ Tree.items level tree ∧ ∀ i (h : i < path.item.data.length), path.data i = path.item.data[i]
  | 0,_,_,at' => by
      obtain ⟨_,_,item,slot,rfl,loaded⟩ := at'
      exact ⟨List.mem_of_getElem? slot,loaded⟩
  | level+1,_,_,at' => by
      obtain ⟨_,_,child,slot,inner⟩ := at'
      obtain ⟨mem,loaded⟩ := atLoaded inner
      exact ⟨List.mem_flatMap.mpr ⟨child,List.mem_of_getElem? slot,mem⟩,loaded⟩

end

def scanList {σ : Type} (handle : σ → Item → σ × Bool) (key : DiskKey) : σ → List Item → σ × Option Item
  | s,[] => (s,none)
  | s,item::later =>
      if btrfsCompKeysType key item.key ≠ 0 then (s,none)
      else
        match handle s item with
        | (s,true) => (s,some item)
        | (s,false) => scanList handle key s later

def passed {σ : Type} (handle : σ → Item → σ × Bool) (key : DiskKey) : σ → List Item → List Item
  | _,[] => []
  | s,item::later =>
      if btrfsCompKeysType key item.key ≠ 0 then []
      else
        match handle s item with
        | (_,true) => []
        | (s,false) => item::passed handle key s later

theorem passedKind {σ : Type} {handle : σ → Item → σ × Bool} {key : DiskKey} : ∀ {s : σ} {items : List Item},
    ∀ item ∈ passed handle key s items, btrfsCompKeysType key item.key = 0
  | _,[],_,mem => by cases mem
  | s,first::later,item,mem => by
      rw [passed] at mem
      split at mem
      · cases mem
      rename_i kind
      cases result : handle s first with
      | mk s' stop =>
        rw [result] at mem
        cases stop with
        | true => cases mem
        | false =>
          rcases List.mem_cons.mp mem with rfl | behind
          · exact not_not.mp kind
          · exact passedKind item behind

def ofKind (key : DiskKey) (items : List Item) : List Item := items.filter fun item => btrfsCompKeysType key item.key = 0

theorem kindNotBefore {key : DiskKey} (first : key.offset = 0) {item : Item} (kind : btrfsCompKeysType key item.key = 0) :
    ¬ item.key.Before key := by
  obtain ⟨objectid,type⟩ := compTypeSame.1 kind
  unfold DiskKey.Before
  omega

theorem kindFirst {key : DiskKey} {items : List Item}
    (sorted : items.Pairwise fun x y => x.key.Before y.key) (from' : ∀ item ∈ items, ¬ item.key.Before key) :
    ofKind key items = items.takeWhile fun item => btrfsCompKeysType key item.key = 0 := by
  induction items with
  | nil => rfl
  | cons item later ih =>
    obtain ⟨less,rising⟩ := List.pairwise_cons.mp sorted
    rw [ofKind,List.filter_cons,List.takeWhile_cons]
    split
    · rw [← ih rising fun x mem => from' x (List.mem_cons_of_mem _ mem)]
      rfl
    · rename_i other
      refine List.filter_eq_nil_iff.mpr fun x mem kind => ?_
      have before := less x mem
      have notBefore := from' item (by simp)
      obtain ⟨objectid,type⟩ := compTypeSame.1 (of_decide_eq_true kind)
      have other : ¬ (key.objectid = item.key.objectid ∧ key.type = item.key.type) := fun same =>
        other (decide_eq_true (compTypeSame.2 same))
      unfold DiskKey.Before at before notBefore
      omega

theorem kindAppend {key : DiskKey} (first : key.offset = 0) {before rest : List Item}
    (early : ∀ item ∈ before, item.key.Before key) : ofKind key (before ++ rest) = ofKind key rest := by
  rw [ofKind,List.filter_append,List.filter_eq_nil_iff.mpr,List.nil_append,ofKind]
  intro item mem kind
  exact kindNotBefore first (of_decide_eq_true kind) (early item mem)

/- What becomes of a turn of the outer loop when the inner one has turns left. -/
def scanTurn {σ : Type} (block : σ → Nat → TreeBuf) (visit : σ → Path → σ × Bool) (key : DiskKey) (outer inner : Nat)
    (s : σ) (path : Path) : Option (σ × Path × Bool) :=
  match scanSlots block visit key inner s path with
  | none => none
  | some (s,path,true) => some (s,path,true)
  | some (s,path,false) =>
      if btrfsCompKeysType key path.item.key ≠ 0 then some (s,path,false)
      else
        match nextLeaf (block s) key path with
        | none => none
        | some (ret,path) => if ret = 0 then scanLeaves block visit key outer s path else some (s,path,false)

/- Every state in which the loop may be keeps the tree, and what is done with an item
depends on the item alone. -/
structure Scans {σ : Type} (block : σ → Nat → TreeBuf) (visit : σ → Path → σ × Bool) (key : DiskKey)
    (handle : σ → Item → σ × Bool) (Inv : σ → Prop) (mapped : Nat → Prop) (wanted : Item → Prop) (height : Nat)
    (tree : Tree height) (root : Nat) : Prop where
  holds : ∀ s, Inv s → Holds (block s) mapped height tree root
  stable : ∀ s t, Inv s → Inv t → ∀ a, mapped a → block s a = block t a
  full : Tree.Full height tree
  low : height < btrfsMaxLevel
  crosses : Tree.Crosses wanted height tree
  visits : ∀ s path item, Inv s → item ∈ Tree.items height tree → btrfsCompKeysType key item.key = 0 →
    path.item = item → (∀ i (h : i < item.data.length), path.data i = item.data[i]) →
    visit s path = handle s item ∧ Inv (handle s item).1

section
variable {σ : Type} {block : σ → Nat → TreeBuf} {visit : σ → Path → σ × Bool} {key : DiskKey}
  {handle : σ → Item → σ × Bool} {Inv : σ → Prop} {mapped : Nat → Prop} {wanted : Item → Prop} {height : Nat}
  {tree : Tree height} {root : Nat}

/- From an item on: the induction is on the items behind it. -/
theorem scanRest (scans : Scans block visit key handle Inv mapped wanted height tree root) (later : List Item)
    (outer inner : Nat) {s : σ} {path : Path} {item : Item} (inv : Inv s) (at' : At (block s) path height tree root)
    (top : ∀ j, height < j → path.itemsnr j = 0) (rest : Tree.rest path.slots height tree = item::later)
    (roomOuter : later.length < outer) (roomInner : later.length < inner) (above : ∀ x ∈ later, key.Before x.key)
    (all : ∀ x ∈ passed handle key s (item::later), wanted x) :
    ∃ path', scanTurn block visit key outer inner s path =
        some ((scanList handle key s (item::later)).1,path',(scanList handle key s (item::later)).2.isSome) ∧
      ∀ found ∈ (scanList handle key s (item::later)).2, path'.item = found := by
  induction size : later.length using Nat.strong_induction_on generalizing later s path item outer inner with
  | _ size ih
  subst size
  obtain ⟨inner,rfl⟩ : ∃ k, inner = k + 1 := ⟨inner - 1,by omega⟩
  obtain ⟨outer,rfl⟩ : ∃ k, outer = k + 1 := ⟨outer - 1,by omega⟩
  obtain ⟨_,head⟩ := restHead at'
  have same : path.item = item := (List.cons.inj (head.symm.trans rest)).1
  by_cases other : btrfsCompKeysType key item.key ≠ 0
  · refine ⟨path,?_,?_⟩
    · rw [scanTurn,scanSlots,same,if_pos other]
      simp only [same,if_pos other,scanList]
      rfl
    · simp [scanList,if_pos other]
  obtain ⟨mem,loaded⟩ := atLoaded at'
  rw [same] at mem loaded
  obtain ⟨visited,inv'⟩ := scans.visits s path item inv mem (by omega) same loaded
  rw [scanList,if_neg other,scanTurn,scanSlots,same,if_neg other,visited]
  rw [passed,if_neg other] at all
  cases result : handle s item with
  | mk s' stop =>
    rw [result] at inv' all
    cases stop with
    | true => exact ⟨path,rfl,fun found eq => by cases eq; exact same⟩
    | false =>
      have goesOn : ∀ x ∈ passed handle key s' later, wanted x := fun x m => all x (List.mem_cons_of_mem _ m)
      have holds := scans.holds s' inv'
      have at' : At (block s') path height tree root :=
        atCongr (fun a m => scans.stable s' s inv' inv a m) (scans.holds s inv) at'
      have tail : ∀ x ∈ (Tree.rest path.slots height tree).tail, key.Before x.key := by
        rw [rest]
        exact above
      simp only
      by_cases more : path.slots 0 + 1 < path.itemsnr 0
      · obtain ⟨path',moved,there,behind,outside⟩ := nextSlotMoves holds scans.full at' more tail
        rw [rest,same] at behind
        have behind := (List.cons.inj behind).2
        obtain ⟨later',eq⟩ := restHead there
        rw [eq] at behind
        subst behind
        rw [List.length_cons] at roomOuter roomInner
        obtain ⟨last,found,item'⟩ := ih later'.length (by simp) later' (outer + 1) inner inv' there
          (fun j lt => by rw [outside j lt]; exact top j lt) eq (by omega) (by omega)
          (fun x m => above x (List.mem_cons_of_mem _ m)) goesOn rfl
        refine ⟨last,?_,item'⟩
        rw [moved]
        exact found
      · have slots : nextSlot (block s') key path = some (1,path) := nextSlotLast (by omega)
        rw [slots]
        simp only [Nat.one_ne_zero,if_false,same,if_neg other]
        rcases nextLeafMoves holds scans.full scans.low at' top (by omega) scans.crosses (by rw [same]; exact all item (by simp)) tail with
          ⟨alone,stop⟩ | ⟨path',moved,there,behind,outside⟩
        · rw [rest,same] at alone
          rw [(List.cons.inj alone).2,stop]
          exact ⟨path,rfl,fun found eq => by cases eq⟩
        · rw [rest,same] at behind
          have behind := (List.cons.inj behind).2
          obtain ⟨later',eq⟩ := restHead there
          rw [eq] at behind
          subst behind
          rw [List.length_cons] at roomOuter roomInner
          obtain ⟨last,found,item'⟩ := ih later'.length (by simp) later' outer outer inv' there
            (fun j lt => by rw [outside j lt]; exact top j lt) eq (by omega) (by omega)
            (fun x m => above x (List.mem_cons_of_mem _ m)) goesOn rfl
          refine ⟨last,?_,item'⟩
          rw [moved]
          exact found

end
end Syslinux.Btrfs
