import Syslinux.BtrfsDir
import Mathlib.Data.List.GetD

/-! What btrfs_iget finds and btrfs_readdir lists: of the names stored under one hash only
the first is seen. -/
namespace Syslinux.Btrfs
open Fat (le16 le32 le64)

/- Where a search ends: at the item with the key, or, if there is none, at the last one
before it, or before all of them. -/
structure Lands (key : DiskKey) (items : List Item) (ret : Nat) (path : Path) : Prop where
  inside : path.item ∈ items
  loaded : ∀ i < path.item.data.length, path.data i = cString path.item.data i
  exact' : ret = 0 → path.item.key = key
  missing : ret ≠ 0 → ∀ item ∈ items, item.key ≠ key
  last : ∀ item ∈ items, ¬ key.Before item.key → ¬ path.item.key.Before item.key
  upTo : (∃ item ∈ items, ¬ key.Before item.key) → ¬ key.Before path.item.key

theorem beforeSelf {key : DiskKey} : ¬ key.Before key := fun less => beforeNot less less

section
variable {block : Nat → TreeBuf} {height : Nat} {tree : Tree height} {root : Nat}

theorem searchLands (t : FsTree block height tree root) (key : DiskKey) : ∃ ret path,
    searchTree block key btrfsMaxLevel root clearPath = some (ret,path) ∧ Lands key (Tree.items height tree) ret path := by
  obtain ⟨ret,path,search,at',_,before,split,early,late,outcome⟩ := searchWhole key btrfsMaxLevel clearPath
    t.holds t.full t.low t.low t.sorted (fun _ _ => rfl)
  obtain ⟨later,head⟩ := restHead at'
  obtain ⟨inside,loaded⟩ := atLoaded at'
  rw [head] at split
  rw [head,List.tail_cons] at late
  have sorted := t.sorted
  rw [Tree.Sorted,split] at sorted
  have place : ∀ item ∈ Tree.items height tree, item.key.Before key ∧ item.key.Before path.item.key ∨ item = path.item ∨
      key.Before item.key := by
    intro item mem
    rw [split] at mem
    rcases List.mem_append.mp mem with inBefore | inRest
    · exact Or.inl ⟨early item inBefore,(List.pairwise_append.mp sorted).2.2 item inBefore path.item (by simp)⟩
    · rcases List.mem_cons.mp inRest with here | behind
      · exact Or.inr (Or.inl here)
      · exact Or.inr (Or.inr (late item behind))
  refine ⟨ret,path,search,inside,?_,?_,?_,?_,?_⟩
  · intro i small
    rw [loaded i small]
    exact List.getElem_eq_getD _
  · intro zero
    rcases outcome with h | h | h
    · exact h.2
    · omega
    · omega
  · intro one item mem same
    rcases place item mem with ⟨below,_⟩ | rfl | above
    · exact beforeNe below same
    · rcases outcome with h | h | h
      · exact one h.1
      · exact beforeNe h.2 same
      · exact beforeNe h.2.2 same.symm
    · exact beforeNe above same.symm
  · intro item mem notAfter
    rcases place item mem with ⟨_,below⟩ | rfl | above
    · exact beforeNot below
    · exact beforeSelf
    · exact absurd above notAfter
  · rintro ⟨item,mem,notAfter⟩ above
    rcases outcome with h | h | h
    · rw [h.2] at above
      exact beforeSelf above
    · exact beforeNot above h.2
    · rcases place item mem with ⟨below,_⟩ | rfl | after
      · rw [split,h.2.1,List.nil_append] at mem
        rcases List.mem_cons.mp mem with rfl | behind
        · exact notAfter above
        · exact notAfter (late item behind)
      · exact notAfter above
      · exact notAfter after

theorem keyUnique (t : FsTree block height tree root) {item other : Item} (mem : item ∈ Tree.items height tree)
    (mem' : other ∈ Tree.items height tree) (same : item.key = other.key) : item = other := by
  have sorted : (Tree.items height tree).Pairwise fun x y => x.key.Before y.key := t.sorted
  have apart : ((Tree.items height tree).map Item.key).Nodup := List.pairwise_map.mpr (sorted.imp fun less => beforeNe less)
  exact List.inj_on_of_nodup_map apart mem mem' same

end

theorem le16Congr {f g : Nat → UInt8} {i : Nat} (same : ∀ k, i ≤ k → k < i + 2 → f k = g k) : le16 f i = le16 g i := by
  rw [le16,le16,same i (by omega) (by omega),same (i + 1) (by omega) (by omega)]

theorem le32Congr {f g : Nat → UInt8} {i : Nat} (same : ∀ k, i ≤ k → k < i + 4 → f k = g k) : le32 f i = le32 g i := by
  rw [le32,le32,le16Congr fun k _ _ => same k (by omega) (by omega),
    le16Congr (i := i + 2) fun k _ _ => same k (by omega) (by omega)]

structure ReadsFirst (path : Path) (first : DirItem) : Prop where
  nameLen : le16 path.data 27 = le16 (cString first.bytes) 27
  objectid : le64 path.data 0 = first.location.objectid
  name : ((List.range (le16 path.data 27)).map fun i => path.data (sizeofDirItem + i)) = first.name

theorem firstRead {path : Path} {first : DirItem} {later : List DirItem}
    (loaded : ∀ i < path.item.data.length, path.data i = cString path.item.data i)
    (bytes : path.item.data = (first::later).flatMap DirItem.bytes) : ReadsFirst path first := by
  have whole := first.whole
  have read : ∀ i < first.bytes.length, path.data i = cString first.bytes i := by
    intro i small
    rw [List.flatMap_cons] at bytes
    rw [loaded i (by rw [bytes,List.length_append]; omega),bytes,cString,cString,List.getD_append _ _ _ _ small]
  have large : sizeofDirItem ≤ first.bytes.length := by omega
  unfold sizeofDirItem at large
  have nameLen : le16 path.data 27 = le16 (cString first.bytes) 27 := le16Congr fun k _ _ => read k (by omega)
  refine ⟨nameLen,le64Congr fun k _ _ => read k (by omega),?_⟩
  rw [nameLen,DirItem.name]
  refine List.ext_getElem (by rw [List.length_map,List.length_range,List.length_take,List.length_drop]; omega) ?_
  intro i small small'
  rw [List.length_map,List.length_range] at small
  rw [List.getElem_map,List.getElem_range,List.getElem_take,List.getElem_drop,read _ (by omega),cString]
  exact (List.getElem_eq_getD _).symm

section
variable {block : Nat → TreeBuf} {height : Nat} {tree : Tree height} {root : Nat}

/- A number is opened exactly when it has an inode that opens; then this inode is. -/
theorem igetOpens (t : FsTree block height tree root) (itemOffset : Nat → Nat → Nat)
    (sizes : ∀ item ∈ Tree.items height tree, item.key.type = 1 → sizeofInodeItem ≤ item.data.length) (inr : Nat) :
    ∃ found, btrfsIgetByInr block itemOffset root inr = some found ∧ (found.isSome ↔ Opens (Tree.items height tree) inr) ∧
      ∀ inode ∈ found, ∃ item ∈ Tree.items height tree, item.key = inodeKey inr ∧
        { inode with offset := 0 } = inodeItem inr (cString item.data) := by
  obtain ⟨ret,path,search,lands⟩ := searchLands t (inodeKey inr)
  rw [btrfsIgetByInr,search]
  by_cases missing : ret ≠ 0
  · refine ⟨none,if_pos missing,?_,by simp⟩
    simp only [Option.isSome_none,Bool.false_eq_true,false_iff]
    rintro ⟨item,mem,key,_⟩
    exact lands.missing missing item mem key
  have key := lands.exact' (not_not.mp missing)
  have size := sizes path.item lands.inside (by rw [key]; rfl)
  unfold sizeofInodeItem at size
  have read : inodeItem inr path.data = inodeItem inr (cString path.item.data) := by
    rw [inodeItem,inodeItem,le64Congr fun k _ _ => lands.loaded k (by omega),
      le32Congr fun k _ _ => lands.loaded k (by omega)]
  have only : ∀ {item}, item ∈ Tree.items height tree → item.key = inodeKey inr → item = path.item :=
    fun mem same => keyUnique t mem lands.inside (same.trans key.symm)
  simp only [if_neg missing,read]
  by_cases data : (inodeItem inr (cString path.item.data)).mode = dtReg ∨
      (inodeItem inr (cString path.item.data)).mode = dtLnk
  · obtain ⟨ret',path',search',lands'⟩ := searchLands t (extentDataKey inr 0)
    simp only [if_pos data,search']
    by_cases missing' : ret' ≠ 0
    · refine ⟨none,if_pos missing',?_,by simp⟩
      simp only [Option.isSome_none,Bool.false_eq_true,false_iff]
      rintro ⟨item,mem,same,extents⟩
      rw [only mem same] at extents
      obtain ⟨extent,inside,here⟩ := extents data
      exact lands'.missing missing' extent inside here
    · have opens : Opens (Tree.items height tree) inr :=
        ⟨path.item,lands.inside,key,fun _ => ⟨path'.item,lands'.inside,lands'.exact' (not_not.mp missing')⟩⟩
      rw [if_neg missing']
      by_cases inline : (path'.data 20).toNat = fileExtentInline
      · refine ⟨_,if_pos inline,by simp [opens],?_⟩
        intro inode here
        cases Option.some.inj here
        exact ⟨path.item,lands.inside,key,rfl⟩
      · refine ⟨_,if_neg inline,by simp [opens],?_⟩
        intro inode here
        cases Option.some.inj here
        exact ⟨path.item,lands.inside,key,rfl⟩
  · refine ⟨_,if_neg data,?_,?_⟩
    · simp only [Option.isSome_some,true_iff]
      exact ⟨path.item,lands.inside,key,fun yes => absurd yes data⟩
    · intro inode here
      cases Option.some.inj here
      exact ⟨path.item,lands.inside,key,rfl⟩

variable {held : Item → List DirItem} {dir : Nat}

theorem dirItemIs {item : Item} {hash : Nat} (key : item.key = dirItemKey dir hash) : item.IsDirItem dir := by
  rw [Item.IsDirItem,key]
  exact ⟨rfl,rfl⟩

theorem entryOf {items : List Item} {e : DirItem} :
    e ∈ entries items held dir ↔ ∃ item ∈ items, item.IsDirItem dir ∧ e ∈ held item := by
  rw [entries,dirItems,List.mem_flatMap]
  constructor
  · rintro ⟨item,mem,here⟩
    obtain ⟨inside,kind⟩ := List.mem_filter.mp mem
    exact ⟨item,inside,of_decide_eq_true kind,here⟩
  · rintro ⟨item,inside,kind,here⟩
    exact ⟨item,List.mem_filter.mpr ⟨inside,decide_eq_true kind⟩,here⟩

/- A name is looked up as it has to be exactly when the first name with its hash leads
where it does. -/
theorem looksUpTold (t : FsTree block height tree root) (itemOffset : Nat → Nat → Nat)
    (d : Directory (Tree.items height tree) held dir) (name : List UInt8) :
    LooksUp (Tree.items height tree) held dir block itemOffset root name ↔
      FirstTold (Tree.items height tree) held dir name := by
  obtain ⟨ret,path,search,lands⟩ := searchLands t (dirItemKey dir (btrfsNameHash name))
  by_cases missing : ret ≠ 0
  · have looked : btrfsIget block itemOffset root name dir = some none := by
      rw [btrfsIget,search]
      exact if_pos missing
    have told : FirstTold (Tree.items height tree) held dir name :=
      fun item mem key => absurd key (lands.missing missing item mem)
    refine ⟨fun _ => told,fun _ => ⟨none,looked,?_,by simp⟩⟩
    simp only [Option.isSome_none,Bool.false_eq_true,false_iff]
    rintro ⟨e,mem,same⟩
    obtain ⟨item,inside,kind,here⟩ := entryOf.1 mem
    have hash := ((d.names item inside kind).2 e here).2.2.2
    refine lands.missing missing item inside (DiskKey.ext kind.1 kind.2 ?_)
    rw [← hash,same]
    rfl
  have key := lands.exact' (not_not.mp missing)
  obtain ⟨some',bytes⟩ := d.filled path.item lands.inside (dirItemIs key)
  obtain ⟨first,later,list⟩ := List.exists_cons_of_ne_nil some'
  rw [list] at bytes
  have read := firstRead lands.loaded bytes
  obtain ⟨found,opened,isOpen,refers⟩ := igetOpens t itemOffset d.sizes first.location.objectid
  have looked : btrfsIget block itemOffset root name dir = some found := by
    rw [btrfsIget,search]
    simp only [if_neg missing,read.objectid,opened]
  have firstIn : first ∈ entries (Tree.items height tree) held dir :=
    entryOf.2 ⟨path.item,lands.inside,dirItemIs key,by rw [list]; simp⟩
  constructor
  · rintro ⟨found',looked',iff',right⟩ item mem key' first' head
    cases Option.some.inj (looked.symm.trans looked')
    cases keyUnique t mem lands.inside (key'.trans key.symm)
    rw [list] at head
    cases Option.some.inj head
    cases found with
    | none =>
      refine Or.inr ⟨?_,fun opens => absurd (isOpen.mpr opens) (by simp)⟩
      intro e inside same
      exact absurd (iff'.mpr ⟨e,inside,same⟩) (by simp)
    | some inode =>
      obtain ⟨e,inside,same,type,item',_,_,refers'⟩ := right inode rfl
      obtain ⟨_,_,_,this⟩ := refers inode rfl
      refine Or.inl ⟨e,inside,same,type,?_,isOpen.mp rfl⟩
      exact (congrArg Inode.ino refers').symm.trans (congrArg Inode.ino this)
  · intro told
    refine ⟨found,looked,?_⟩
    rcases told path.item lands.inside key first (by rw [list]; rfl) with ⟨e,inside,same,type,number,opens⟩ | ⟨none',closed⟩
    · refine ⟨⟨fun _ => ⟨e,inside,same⟩,fun _ => isOpen.mpr opens⟩,?_⟩
      intro inode here
      obtain ⟨item,mem,key',is⟩ := refers inode here
      exact ⟨e,inside,same,type,item,mem,by rw [number]; exact key',by rw [number]; exact is⟩
    · have nothing : found = none := by
        cases found with
        | none => rfl
        | some inode => exact absurd (isOpen.mp rfl) closed
      rw [nothing]
      refine ⟨?_,by simp⟩
      simp only [Option.isSome_none,Bool.false_eq_true,false_iff]
      rintro ⟨e,inside,same⟩
      exact none' e inside same

/- The DIR_ITEMs with a hash below a bound, and the bound that file->offset stands for. -/
def below (items : List Item) (dir bound : Nat) : List Item :=
  (dirItems items dir).filter fun item => item.key.offset < bound
def bound (offset : Nat) : Nat := if offset = 0 then 2^32 else offset

theorem belowBound {offset : Nat} (small : offset < 2^32) : sub32 offset 1 + 1 = bound offset := by
  unfold sub32 bound
  split_ifs <;> omega

theorem belowIs {items : List Item} {limit : Nat} {item : Item} :
    item ∈ below items dir limit ↔ item ∈ items ∧ item.IsDirItem dir ∧ item.key.offset < limit := by
  simp only [below,dirItems,List.mem_filter,decide_eq_true_eq,and_assoc]

theorem belowRises (t : FsTree block height tree root) (limit : Nat) :
    (below (Tree.items height tree) dir limit).Pairwise fun x y => x.key.offset < y.key.offset := by
  have sorted : (Tree.items height tree).Pairwise fun x y => x.key.Before y.key := t.sorted
  refine ((sorted.filter _).filter _).imp_of_mem ?_
  intro x y memX memY less
  obtain ⟨_,⟨objectid,type⟩,_⟩ := belowIs.1 memX
  obtain ⟨_,⟨objectid',type'⟩,_⟩ := belowIs.1 memY
  unfold DiskKey.Before at less
  omega

theorem hashSmall {items : List Item} (d : Directory items held dir) {item : Item} (mem : item ∈ items)
    (kind : item.IsDirItem dir) : item.key.offset < 2^32 := by
  obtain ⟨first,later,list⟩ := List.exists_cons_of_ne_nil (d.filled item mem kind).1
  rw [← ((d.names item mem kind).2 first (by rw [list]; simp)).2.2.2]
  exact UInt32.toNat_lt _

def DirItem.said (e : DirItem) : List UInt8 × Nat := (e.name,e.location.objectid % 2^32)
def Dirent.said (d : Dirent) : List UInt8 × Nat := (d.dName,d.dIno)

theorem notAfterBound {offset : Nat} (small : offset < 2^32) {item : Item} (kind : item.IsDirItem dir)
    (upTo : ¬ (dirItemKey dir (sub32 offset 1)).Before item.key) : item.key.offset < bound offset := by
  have limit := belowBound small
  obtain ⟨objectid,type⟩ := kind
  simp only [DiskKey.Before,dirItemKey] at upTo
  omega

section
variable {offset ret : Nat} {path : Path} {init : List Item} {last : Item} (small : offset < 2^32)
  (lands : Lands (dirItemKey dir (sub32 offset 1)) (Tree.items height tree) ret path)
include small lands

theorem landsOutside (d : Directory (Tree.items height tree) held dir)
    (nothing : below (Tree.items height tree) dir (bound offset) = []) :
    ret ≠ 0 ∧ btrfsCompKeysType (dirItemKey dir (sub32 offset 1)) path.item.key ≠ 0 := by
  obtain ⟨inode,mem,key⟩ := d.inode
  have upTo := lands.upTo ⟨inode,mem,by
    rw [key]
    simp only [DiskKey.Before,inodeKey,dirItemKey]
    omega⟩
  have other : btrfsCompKeysType (dirItemKey dir (sub32 offset 1)) path.item.key ≠ 0 := by
    intro same
    obtain ⟨objectid,type⟩ := compTypeSame.1 same
    have kind : path.item.IsDirItem dir := ⟨objectid.symm,type.symm⟩
    have inside := belowIs.2 ⟨lands.inside,kind,notAfterBound small kind upTo⟩
    rw [nothing] at inside
    exact absurd inside List.not_mem_nil
  refine ⟨fun zero => other (compTypeSame.2 ?_),other⟩
  rw [lands.exact' zero]
  exact ⟨rfl,rfl⟩

theorem landsHighest (t : FsTree block height tree root)
    (split : below (Tree.items height tree) dir (bound offset) = init ++ [last]) : path.item = last := by
  have rises : (below (Tree.items height tree) dir (bound offset)).Pairwise fun x y => x.key.offset < y.key.offset :=
    belowRises t (bound offset)
  rw [split,List.pairwise_append] at rises
  obtain ⟨mem,kind,less⟩ := belowIs.1 (show last ∈ below (Tree.items height tree) dir (bound offset) by rw [split]; simp)
  have limit := belowBound small
  have lastUpTo : ¬ (dirItemKey dir (sub32 offset 1)).Before last.key := by
    obtain ⟨objectid,type⟩ := kind
    simp only [DiskKey.Before,dirItemKey]
    omega
  have upTo := lands.upTo ⟨last,mem,lastUpTo⟩
  have notBefore := lands.last last mem lastUpTo
  have kind' : path.item.IsDirItem dir := by
    obtain ⟨objectid,type⟩ := kind
    simp only [DiskKey.Before,dirItemKey,objectid,type] at upTo notBefore
    unfold Item.IsDirItem
    omega
  have inside := belowIs.2 ⟨lands.inside,kind',notAfterBound small kind' upTo⟩
  rw [split] at inside
  rcases List.mem_append.mp inside with earlier | same
  · have lower := rises.2.2 path.item earlier last (by simp)
    unfold DiskKey.Before at notBefore
    have := kind.1.trans kind'.1.symm
    have := kind.2.trans kind'.2.symm
    omega
  · exact List.mem_singleton.mp same

end

theorem belowHighest (t : FsTree block height tree root) {limit : Nat} {init : List Item} {last : Item}
    (split : below (Tree.items height tree) dir limit = init ++ [last]) :
    below (Tree.items height tree) dir last.key.offset = init := by
  have rises : (below (Tree.items height tree) dir limit).Pairwise fun x y => x.key.offset < y.key.offset := belowRises t limit
  have less := (belowIs.1 (show last ∈ below (Tree.items height tree) dir limit by rw [split]; simp)).2.2
  have again : below (Tree.items height tree) dir last.key.offset =
      (below (Tree.items height tree) dir limit).filter fun item => item.key.offset < last.key.offset := by
    unfold below
    rw [List.filter_filter]
    refine List.filter_congr fun item _ => ?_
    rw [← Bool.decide_and,decide_eq_decide]
    omega
  rw [split,List.pairwise_append] at rises
  rw [again,split,List.filter_append,
    List.filter_eq_self.mpr fun x inside => decide_eq_true (rises.2.2 x inside last (by simp)),
    List.filter_singleton,decide_eq_false (Nat.lt_irrefl _),cond_false,List.append_nil]

theorem readdirNext (t : FsTree block height tree root) (d : Directory (Tree.items height tree) held dir)
    {offset : Nat} (small : offset < 2^32) :
    below (Tree.items height tree) dir (bound offset) = [] ∧ btrfsReaddir block root dir offset = some none ∨
    ∃ init last dirent, below (Tree.items height tree) dir (bound offset) = init ++ [last] ∧
      btrfsReaddir block root dir offset = some (some (last.key.offset,dirent)) ∧
      below (Tree.items height tree) dir last.key.offset = init ∧
        (held last).head?.map DirItem.said = some dirent.said := by
  obtain ⟨ret,path,search,lands⟩ := searchLands t (dirItemKey dir (sub32 offset 1))
  rcases List.eq_nil_or_concat (below (Tree.items height tree) dir (bound offset)) with nothing | ⟨init,last,split⟩
  · refine Or.inl ⟨nothing,?_⟩
    rw [btrfsReaddir,search]
    exact congrArg some (if_pos (landsOutside small lands d nothing))
  · rw [List.concat_eq_append] at split
    have here := landsHighest small lands t split
    obtain ⟨mem,kind,_⟩ := belowIs.1 (show last ∈ below (Tree.items height tree) dir (bound offset) by rw [split]; simp)
    have same : btrfsCompKeysType (dirItemKey dir (sub32 offset 1)) path.item.key = 0 := by
      rw [here]
      exact compTypeSame.2 ⟨kind.1.symm,kind.2.symm⟩
    obtain ⟨some',bytes⟩ := d.filled last mem kind
    obtain ⟨first,later,list⟩ := List.exists_cons_of_ne_nil some'
    rw [list,← here] at bytes
    have read := firstRead lands.loaded bytes
    refine Or.inr ⟨init,last,(takeDirent path).2,split,?_,belowHighest t split,?_⟩
    · rw [btrfsReaddir,search]
      refine congrArg some ((if_neg fun other => other.2 same).trans (congrArg some (Prod.ext ?_ rfl)))
      simp only [takeDirent]
      rw [here,Nat.mod_eq_of_lt (hashSmall d mem kind)]
    · rw [list]
      simp only [List.head?_cons,Option.map_some,takeDirent,Dirent.said,DirItem.said,read.objectid,read.name]

/- All calls, while no hash is 0: the first names, the hashes falling. -/
theorem readAllBelow (t : FsTree block height tree root) (d : Directory (Tree.items height tree) held dir)
    (noZero : ∀ item ∈ Tree.items height tree, item.IsDirItem dir → item.key.offset ≠ 0) (xs : List Item) :
    ∀ {offset : Nat}, offset < 2^32 → below (Tree.items height tree) dir (bound offset) = xs →
    ∃ list, (∀ turns, readAll block root dir turns offset = if xs.length < turns then some list else none) ∧
      list.map (some ∘ Dirent.said) = xs.reverse.map fun item => (held item).head?.map DirItem.said := by
  induction xs using List.reverseRecOn with
  | nil =>
    intro offset small nothing
    rcases readdirNext t d small with ⟨_,ends⟩ | ⟨init,last,_,split,_⟩
    · refine ⟨[],fun turns => ?_,rfl⟩
      cases turns with
      | zero => rfl
      | succ turns =>
        rw [readAll,ends]
        rfl
    · rw [nothing] at split
      exact absurd split (by simp)
  | append_singleton xs item ih =>
    intro offset small listed
    rcases readdirNext t d small with ⟨nothing,_⟩ | ⟨init,last,dirent,split,next,later,head⟩
    · rw [listed] at nothing
      exact absurd nothing (by simp)
    obtain ⟨rfl,same⟩ := List.append_inj' (listed.symm.trans split) rfl
    cases List.singleton_inj.mp same
    obtain ⟨mem,kind,_⟩ := belowIs.1 (show item ∈ below (Tree.items height tree) dir (bound offset) by rw [listed]; simp)
    have further : bound item.key.offset = item.key.offset := if_neg (noZero item mem kind)
    obtain ⟨list,ran,firsts⟩ := ih (hashSmall d mem kind) (by rw [further]; exact later)
    refine ⟨dirent::list,fun turns => ?_,?_⟩
    · rw [List.length_append,List.length_singleton]
      cases turns with
      | zero => rfl
      | succ turns =>
        rw [readAll,next]
        simp only [ran turns,Nat.add_lt_add_iff_right]
        split <;> rfl
    · rw [List.reverse_append,List.reverse_singleton,List.singleton_append,List.map_cons,List.map_cons,firsts,head]
      rfl

theorem readAllNever (t : FsTree block height tree root) (d : Directory (Tree.items height tree) held dir)
    {item : Item} (mem : item ∈ Tree.items height tree) (kind : item.IsDirItem dir) (zero : item.key.offset = 0)
    (turns : Nat) :
    ∀ {offset : Nat}, offset < 2^32 → readAll block root dir turns offset = none := by
  induction turns with
  | zero =>
    intro _ _
    rfl
  | succ turns ih =>
    intro offset small
    have some' : item ∈ below (Tree.items height tree) dir (bound offset) :=
      belowIs.2 ⟨mem,kind,by rw [zero,← belowBound small]; omega⟩
    rcases readdirNext t d small with ⟨nothing,_⟩ | ⟨init,last,dirent,split,next,_⟩
    · rw [nothing] at some'
      exact absurd some' List.not_mem_nil
    · obtain ⟨inside,kind',_⟩ := belowIs.1
        (show last ∈ below (Tree.items height tree) dir (bound offset) by rw [split]; simp)
      rw [readAll,next]
      simp only [ih (hashSmall d inside kind'),Option.map_none]

theorem lengthsOne {items : List Item} (some' : ∀ item ∈ items, held item ≠ [])
    (same : (items.flatMap held).length ≤ items.length) : ∀ item ∈ items, (held item).length = 1 := by
  induction items with
  | nil => simp
  | cons item items ih =>
    have many : ∀ {xs : List Item}, (∀ item ∈ xs, held item ≠ []) → xs.length ≤ (xs.flatMap held).length := by
      intro xs filled
      induction xs with
      | nil => simp
      | cons x xs ih' =>
        have here := List.length_pos_iff.mpr (filled x List.mem_cons_self)
        have rest := ih' fun item mem => filled item (List.mem_cons_of_mem _ mem)
        rw [List.flatMap_cons,List.length_append,List.length_cons]
        omega
    have here := List.length_pos_iff.mpr (some' item List.mem_cons_self)
    have rest := many fun x mem => some' x (List.mem_cons_of_mem item mem)
    rw [List.flatMap_cons,List.length_append,List.length_cons] at same
    intro x mem
    rcases List.mem_cons.mp mem with rfl | later
    · omega
    · exact ih (fun y inside => some' y (List.mem_cons_of_mem _ inside)) (by omega) x later

theorem singlesSaid {items : List Item} (one : ∀ item ∈ items, (held item).length = 1) :
    (items.flatMap held).map (some ∘ DirItem.said) = items.map fun item => (held item).head?.map DirItem.said := by
  induction items with
  | nil => rfl
  | cons item items ih =>
    obtain ⟨e,only⟩ := List.length_eq_one_iff.mp (one item List.mem_cons_self)
    rw [List.flatMap_cons,List.map_append,List.map_cons,ih fun x mem => one x (List.mem_cons_of_mem _ mem),only]
    rfl

theorem listsApart (t : FsTree block height tree root) (d : Directory (Tree.items height tree) held dir) :
    ListsAll (Tree.items height tree) held dir block root ↔ Apart (Tree.items height tree) held dir := by
  have all : below (Tree.items height tree) dir (bound 0) = dirItems (Tree.items height tree) dir := by
    refine List.filter_eq_self.mpr fun item mem => decide_eq_true ?_
    obtain ⟨inside,kind⟩ := List.mem_filter.mp mem
    exact hashSmall d inside (of_decide_eq_true kind)
  constructor
  · rintro ⟨turns,list,ran,perm⟩
    have noZero : ∀ item ∈ Tree.items height tree, item.IsDirItem dir → item.key.offset ≠ 0 := by
      intro item mem kind zero
      rw [readAllNever t d mem kind zero turns (by decide)] at ran
      cases ran
    obtain ⟨list',ran',firsts⟩ := readAllBelow t d noZero _ (by decide) all
    have same : list = list' := by
      rw [ran'] at ran
      split at ran
      · exact (Option.some.inj ran).symm
      · cases ran
    have length := congrArg List.length firsts
    have length' := perm.length_eq
    simp only [List.length_map,List.length_reverse] at length length'
    rw [same,length] at length'
    intro item mem kind
    refine ⟨?_,noZero item mem kind⟩
    have listed : item ∈ dirItems (Tree.items height tree) dir := List.mem_filter.mpr ⟨mem,decide_eq_true kind⟩
    refine lengthsOne ?_ (Nat.le_of_eq length'.symm) item listed
    intro x inside
    obtain ⟨mem',kind'⟩ := List.mem_filter.mp inside
    exact (d.filled x mem' (of_decide_eq_true kind')).1
  · intro apart
    obtain ⟨list,ran,firsts⟩ := readAllBelow t d (fun item mem kind => (apart item mem kind).2) _ (by decide) all
    refine ⟨_,list,(ran _).trans (if_pos (Nat.lt_succ_self _)),?_⟩
    have one : ∀ item ∈ dirItems (Tree.items height tree) dir, (held item).length = 1 := by
      intro item mem
      obtain ⟨inside,kind⟩ := List.mem_filter.mp mem
      exact (apart item inside (of_decide_eq_true kind)).1
    refine (List.map_perm_map_iff (Option.some_injective _)).mp ?_
    rw [List.map_map,List.map_map]
    exact (List.Perm.of_eq (firsts.trans (List.map_reverse ..))).trans
      ((List.reverse_perm _).trans (List.Perm.of_eq (singlesSaid one).symm))

end

/- Each name is looked up as it has to be exactly when the first name stored under its hash
leads where it does; all entries are listed once exactly when their hashes are apart and
not 0. -/
theorem directoryServed {disk : Nat → TreeBuf} {map : ChunkMap} {height : Nat} {tree : Tree height} {root dir : Nat}
    {held : Item → List DirItem} (t : FsTree (blockOf disk map) height tree root)
    (d : Directory (Tree.items height tree) held dir) (itemOffset : Nat → Nat → Nat) :
    (∀ name, LooksUp (Tree.items height tree) held dir (blockOf disk map) itemOffset root name ↔
      FirstTold (Tree.items height tree) held dir name) ∧
    (ListsAll (Tree.items height tree) held dir (blockOf disk map) root ↔ Apart (Tree.items height tree) held dir) :=
  ⟨looksUpTold t itemOffset d,listsApart t d⟩

def entryBytes (id : UInt8) (name : List UInt8) : List UInt8 :=
  [id,1,0,0,0,0,0,0,1] ++ List.replicate 16 0 ++ [0,0,UInt8.ofNat name.length,0,2] ++ name
def dirInode (id : Nat) : Item := ⟨inodeKey id,List.replicate 52 0 ++ [0xED,0x41,0,0] ++ List.replicate 104 0⟩
def firstEntry : DirItem := ⟨entryBytes 1 [107,107,104,102,122,110,106],rfl⟩
def secondEntry : DirItem := ⟨entryBytes 2 [115,102,115,110,111,118,107],rfl⟩
def sameHash : Nat := 1288355866
def topDir (entries : List DirItem) : List Item :=
  [dirInode 256,⟨dirItemKey 256 sameHash,entries.flatMap DirItem.bytes⟩,dirInode 257,dirInode 258]
def heldIn (entries : List DirItem) (item : Item) : List DirItem := if item.IsDirItem 256 then entries else []

theorem topTree (entries : List DirItem) (short : (entries.flatMap DirItem.bytes).length ≤ btrfsMaxLeafSize) :
    @FsTree (blockOf (leafDisk (topDir entries)) (insertAll [systemChunk])) 0 (topDir entries) (2^20) := by
  have inode (id : Nat) : (dirInode id).data.length ≤ btrfsMaxLeafSize := by
    simp only [dirInode,btrfsMaxLeafSize,List.length_append,List.length_replicate,List.length_cons,List.length_nil]
    omega
  have all : ∀ item ∈ topDir entries, item.data.length ≤ btrfsMaxLeafSize := by
    intro item mem
    simp only [topDir,List.mem_cons,List.not_mem_nil,or_false] at mem
    rcases mem with rfl | rfl | rfl | rfl
    · exact inode 256
    · exact short
    · exact inode 257
    · exact inode 258
  refine ⟨by decide,by simp [Tree.Full,Tree.leaf,topDir],?_,all,leafHolds trivial⟩
  have sorted : (topDir entries).Pairwise fun x y => x.key.Before y.key := by
    simp [topDir,dirInode,inodeKey,dirItemKey,DiskKey.Before]
  exact sorted

set_option maxRecDepth 8000 in
theorem topDirectory {entries : List DirItem} (some' : entries ≠ []) (apart : (entries.map DirItem.name).Nodup)
    (known : ∀ e ∈ entries, e = firstEntry ∨ e = secondEntry) : Directory (topDir entries) (heldIn entries) 256 := by
  have only : ∀ item ∈ topDir entries, item.IsDirItem 256 →
    item = ⟨dirItemKey 256 sameHash,entries.flatMap DirItem.bytes⟩ := by
    intro item mem kind
    simp only [topDir,List.mem_cons,List.not_mem_nil,or_false] at mem
    rcases mem with rfl | rfl | rfl | rfl
    · cases kind.2
    · rfl
    · cases kind.2
    · cases kind.2
  have here : heldIn entries ⟨dirItemKey 256 sameHash,entries.flatMap DirItem.bytes⟩ = entries := if_pos ⟨rfl,rfl⟩
  refine ⟨⟨dirInode 256,by simp [topDir],rfl⟩,?_,?_,?_,?_⟩
  · intro item mem kind
    simp only [topDir,List.mem_cons,List.not_mem_nil,or_false] at mem
    rcases mem with rfl | rfl | rfl | rfl
    · exact Nat.le_refl 160
    · cases kind
    · exact Nat.le_refl 160
    · exact Nat.le_refl 160
  · intro item mem kind
    rw [only item mem kind,here]
    exact ⟨some',rfl⟩
  · intro item mem kind
    rw [only item mem kind,here]
    have named : ∀ e ∈ [firstEntry,secondEntry], e.name ≠ [] ∧ e.name.length ≤ 255 ∧ 0 ∉ e.name ∧
        btrfsNameHash e.name = sameHash := by decide
    exact ⟨apart,fun e inside => named e (by simpa using known e inside)⟩
  · intro item mem kind e inside _
    rw [only item mem kind,here] at inside
    rcases known e inside with rfl | rfl
    · exact ⟨dirInode 257,by simp [topDir],by decide⟩
    · exact ⟨dirInode 258,by simp [topDir],by decide⟩

set_option maxRecDepth 8000 in
theorem directoryServedSmall :
    LooksUp (topDir [firstEntry]) (heldIn [firstEntry]) 256 (blockOf (leafDisk (topDir [firstEntry]))
    (insertAll [systemChunk]))
      (fun _ _ => 0) (2^20) firstEntry.name ∧
    ListsAll (topDir [firstEntry]) (heldIn [firstEntry]) 256
      (blockOf (leafDisk (topDir [firstEntry])) (insertAll [systemChunk])) (2^20) := by
  have served := directoryServed (topTree [firstEntry] (by decide))
    (topDirectory (by simp) (List.nodup_singleton _) (fun e mem => Or.inl (List.mem_singleton.mp mem))) fun _ _ => 0
  exact ⟨(served.1 firstEntry.name).mpr (by decide),served.2.mpr (by decide)⟩

/- Of two names with one hash the second leads to the inode of the first. -/
set_option maxRecDepth 8000 in
theorem otherNameTaken : ¬ ∀ (disk : Nat → TreeBuf) (map : ChunkMap) (height : Nat) (tree : Tree height) (root dir : Nat)
    (held : Item → List DirItem) (itemOffset : Nat → Nat → Nat), FsTree (blockOf disk map) height tree root →
    Directory (Tree.items height tree) held dir →
    (∀ name, LooksUp (Tree.items height tree) held dir (blockOf disk map) itemOffset root name) ∧
      ListsAll (Tree.items height tree) held dir (blockOf disk map) root := by
  intro claim
  have tree := topTree [firstEntry,secondEntry] (by decide)
  have directory : Directory (topDir [firstEntry,secondEntry]) (heldIn [firstEntry,secondEntry]) 256 :=
    topDirectory (by simp) (by decide) (by simp)
  have looked := (claim _ _ 0 _ _ 256 _ (fun _ _ => 0) tree directory).1 secondEntry.name
  have told : FirstTold (topDir [firstEntry,secondEntry]) (heldIn [firstEntry,secondEntry]) 256 secondEntry.name :=
    (looksUpTold tree _ directory _).mp looked
  exact absurd told (by decide)

end Syslinux.Btrfs
