import Syslinux.BinSearch

/-! The chunk map of core/fs/btrfs/btrfs.c: insert_map keeps it sorted by logical start,
logical_physical looks an address up in it. Addresses and lengths are u64. -/
namespace Syslinux.Btrfs
open BinSearch

structure ChunkMapItem where
  logical : Nat
  length : Nat
  devid : Nat
  physical : Nat
  deriving DecidableEq, Repr

/- struct btrfs_chunk_map; the pointer is NULL until the first item comes. -/
structure ChunkMap where
  map : Option (Nat → ChunkMapItem)
  curLength : Nat

def btrfsMaxChunkEntries : Nat := 256
/- (u64)-1 -/
def noAddress : Nat := 2^64 - 1

def emptyMap : ChunkMap := ⟨none,0⟩

def ChunkMap.item (m : ChunkMap) (i : Nat) : ChunkMapItem :=
  match m.map with
  | some map => map i
  | none => ⟨0,0,0,0⟩

def btrfsCompChunkMap (m1 m2 : ChunkMapItem) : Int :=
  if m2.logical < m1.logical then 1 else if m1.logical < m2.logical then -1 else 0

def moveUp (slot : Nat) : Nat → (Nat → ChunkMapItem) → Nat → ChunkMapItem
  | 0,map => map
  | i+1,map => if slot < i + 1 then moveUp slot i (Function.update map (i + 1) (map i)) else map

/- Behind the first item the new array holds what malloc left there: it is written
before it is read. -/
def insertMap (m : ChunkMap) (item : ChunkMapItem) : ChunkMap :=
  match m.map with
  | none => ⟨some fun _ => item,1⟩
  | some map =>
      let (ret,slot) := search (fun i => btrfsCompChunkMap (map i) item) 0 m.curLength
      if ret = 0 then m
      else if m.curLength = btrfsMaxChunkEntries then m
      else ⟨some (Function.update (moveUp slot m.curLength map) slot item),m.curLength + 1⟩

def ChunkMapItem.answer (entry : ChunkMapItem) (logical : Nat) : Nat :=
  if (entry.logical + entry.length) % 2^64 ≤ logical then noAddress
  else (entry.physical + logical + (2^64 - entry.logical)) % 2^64

def logicalPhysical (m : ChunkMap) (logical : Nat) : Nat :=
  let (ret,slot) := search (fun i => btrfsCompChunkMap (m.item i) ⟨logical,0,0,0⟩) 0 m.curLength
  let slot := if ret = 0 then slot + 1 else slot
  if slot = 0 then noAddress else (m.item (slot - 1)).answer logical

def insertAll (items : List ChunkMapItem) : ChunkMap := items.foldl insertMap emptyMap

/- A chunk of the 64-bit address space. -/
structure ChunkMapItem.Chunk (c : ChunkMapItem) : Prop where
  some' : 0 < c.length
  inside : c.logical + c.length ≤ 2^64
  physical : c.physical < 2^64

def ChunkMapItem.Covers (c : ChunkMapItem) (a : Nat) : Prop := c.logical ≤ a ∧ a < c.logical + c.length
instance (c : ChunkMapItem) (a : Nat) : Decidable (c.Covers a) := by unfold ChunkMapItem.Covers; infer_instance

def ChunkMapItem.Apart (c d : ChunkMapItem) : Prop := ∀ a, ¬ (c.Covers a ∧ d.Covers a)

def firsts (items : List ChunkMapItem) : List ChunkMapItem :=
  items.foldl (fun kept item => if item.logical ∈ kept.map ChunkMapItem.logical then kept else kept ++ [item]) []

structure MapServes (chunks : List ChunkMapItem) (m : ChunkMap) : Prop where
  sorted : ∀ i j, i < j → j < m.curLength → (m.item i).logical < (m.item j).logical
  found : ∀ c ∈ chunks, ∀ a, c.Covers a → logicalPhysical m a = (c.physical + (a - c.logical)) % 2^64
  missing : ∀ a < 2^64, (∀ c ∈ chunks, ¬ c.Covers a) → logicalPhysical m a = noAddress

structure Listed (m : ChunkMap) (l : List ChunkMapItem) : Prop where
  count : m.curLength = l.length
  null : m.map = none ↔ l = []
  entries : ∀ i (h : i < l.length), m.item i = l[i]
  sorted : l.Pairwise (fun c d => c.logical < d.logical)

section
variable {m : ChunkMap} {l : List ChunkMapItem} {item : ChunkMapItem}

theorem compSame {c d : ChunkMapItem} : btrfsCompChunkMap c d = 0 ↔ c.logical = d.logical := by
  unfold btrfsCompChunkMap
  split
  · omega
  · split <;> omega

theorem compBelow {c d : ChunkMapItem} : btrfsCompChunkMap c d < 0 ↔ c.logical < d.logical := by
  unfold btrfsCompChunkMap
  split
  · omega
  · split <;> omega

theorem compAbove {c d : ChunkMapItem} : 0 < btrfsCompChunkMap c d ↔ d.logical < c.logical := by
  unfold btrfsCompChunkMap
  split
  · omega
  · split <;> omega

theorem moveUpEq (slot i : Nat) (map : Nat → ChunkMapItem) (k : Nat) :
    moveUp slot i map k = if slot < k ∧ k ≤ i then map (k - 1) else map k := by
  induction i generalizing map with
  | zero => rw [moveUp,if_neg (by omega)]
  | succ i ih =>
    rw [moveUp]
    split
    · rename_i above
      rw [ih]
      by_cases last : k = i + 1
      · rw [if_neg (by omega),if_pos (by omega),last,Function.update_self,Nat.add_sub_cancel]
      · by_cases between : slot < k ∧ k ≤ i
        · rw [if_pos between,if_pos (by omega),Function.update_of_ne (by omega)]
        · rw [if_neg between,if_neg (by omega),Function.update_of_ne last]
    · rw [if_neg (by omega)]

/- What the search makes of the list: the item with the logical start, or the place
between those below it and those above. -/
theorem listedSearch (h : Listed m l) (item : ChunkMapItem) :
    (∃ xs c ys, l = xs ++ c::ys ∧ c.logical = item.logical ∧
      search (fun i => btrfsCompChunkMap (m.item i) item) 0 m.curLength = (0,xs.length)) ∨
    ∃ xs ys, l = xs ++ ys ∧ (∀ c ∈ xs, c.logical < item.logical) ∧ (∀ c ∈ ys, item.logical < c.logical) ∧
      search (fun i => btrfsCompChunkMap (m.item i) item) 0 m.curLength = (1,xs.length) := by
  have ascends : Ascends (fun i => btrfsCompChunkMap (m.item i) item) 0 m.curLength := by
    intro i j _ less inside notAbove
    have notAbove : btrfsCompChunkMap (m.item j) item ≤ 0 := notAbove
    rw [h.count] at inside
    have order := List.pairwise_iff_getElem.mp h.sorted i j (by omega) inside less
    rw [← h.entries i (by omega),← h.entries j inside] at order
    have notBehind : ¬ item.logical < (m.item j).logical := fun behind => by
      have := compAbove.2 behind
      omega
    exact compBelow.2 (by omega)
  have found := searchFound (Nat.zero_le m.curLength) ascends
  cases eq : search (fun i => btrfsCompChunkMap (m.item i) item) 0 m.curLength with
  | mk ret slot =>
    rw [eq] at found
    cases found with
    | here _ below same =>
      rw [h.count] at below
      refine Or.inl ⟨l.take slot,l[slot],l.drop (slot + 1),?_,?_,?_⟩
      · rw [← List.drop_eq_getElem_cons below,List.take_append_drop]
      · rw [← h.entries slot below]
        exact compSame.1 same
      · rw [List.length_take,Nat.min_eq_left (by omega)]
    | missing _ below before behind =>
      rw [h.count] at below behind
      refine Or.inr ⟨l.take slot,l.drop slot,(List.take_append_drop slot l).symm,?_,?_,?_⟩
      · intro c mem
        obtain ⟨i,small,eq⟩ := List.getElem_of_mem mem
        simp only [List.length_take] at small
        rw [List.getElem_take,← h.entries i (by omega)] at eq
        rw [← eq]
        exact compBelow.1 (before i (Nat.zero_le _) (by omega))
      · intro c mem
        obtain ⟨i,small,eq⟩ := List.getElem_of_mem mem
        simp only [List.length_drop] at small
        rw [List.getElem_drop,← h.entries (slot + i) (by omega)] at eq
        rw [← eq]
        exact compAbove.1 (behind (slot + i) (by omega) (by omega))
      · rw [List.length_take,Nat.min_eq_left below]

theorem insertKnown (h : Listed m l) (known : item.logical ∈ l.map ChunkMapItem.logical) : insertMap m item = m := by
  obtain ⟨c,mem,same⟩ := List.mem_map.mp known
  have some' : m.map ≠ none := fun null => by
    rw [h.null.mp null] at mem
    contradiction
  obtain ⟨map,eq⟩ := Option.ne_none_iff_exists'.mp some'
  have item' : m.item = map := by
    funext i
    rw [ChunkMap.item,eq]
  rcases listedSearch h item with ⟨xs,d,ys,_,_,found⟩ | ⟨xs,ys,split,below,above,_⟩
  · rw [item'] at found
    rw [insertMap,eq]
    simp only [found,if_true]
  · rw [split] at mem
    rcases List.mem_append.mp mem with early | late
    · have := below c early
      omega
    · have := above c late
      omega

theorem insertNew (h : Listed m l) (new : item.logical ∉ l.map ChunkMapItem.logical)
    (room : l.length ≠ btrfsMaxChunkEntries) :
    ∃ xs ys, l = xs ++ ys ∧ Listed (insertMap m item) (xs ++ item::ys) := by
  cases eq : m.map with
  | none =>
    have empty := h.null.mp eq
    refine ⟨[],[],empty,?_⟩
    rw [insertMap,eq]
    refine ⟨rfl,by simp,?_,List.pairwise_singleton _ _⟩
    intro i small
    cases Nat.lt_one_iff.mp small
    rfl
  | some map =>
    have item' : m.item = map := by
      funext i
      rw [ChunkMap.item,eq]
    rcases listedSearch h item with ⟨xs,d,ys,split,same,_⟩ | ⟨xs,ys,split,below,above,found⟩
    · refine absurd (List.mem_map.mpr ⟨d,?_,same⟩) new
      rw [split]
      simp
    refine ⟨xs,ys,split,?_⟩
    have full : m.curLength ≠ btrfsMaxChunkEntries := by
      rw [h.count]
      exact room
    have insert : insertMap m item =
        ⟨some (Function.update (moveUp xs.length m.curLength map) xs.length item),m.curLength + 1⟩ := by
      rw [item'] at found
      rw [insertMap,eq]
      simp only [found,if_neg full,Nat.one_ne_zero,if_false]
    have count := h.count
    rw [split,List.length_append] at count
    rw [insert]
    refine ⟨?_,by simp,?_,?_⟩
    · simp only [List.length_append,List.length_cons]
      omega
    · intro i small
      have before : ∀ k (inside : k < (xs ++ ys).length), map k = (xs ++ ys)[k] := by
        intro k inside
        rw [← item']
        subst split
        exact h.entries k inside
      simp only [ChunkMap.item]
      simp only [List.length_append,List.length_cons] at small before
      rcases Nat.lt_trichotomy i xs.length with less | same | more
      · rw [Function.update_of_ne (by omega),moveUpEq,if_neg (by omega),before i (by omega),
          List.getElem_append_left less,List.getElem_append_left less]
      · subst same
        simp
      · rw [Function.update_of_ne (by omega),moveUpEq,if_pos (by omega),before (i - 1) (by omega),
          List.getElem_append_right (by omega),List.getElem_append_right (by omega)]
        obtain ⟨k,rfl⟩ : ∃ k, i = xs.length + 1 + k := ⟨i - xs.length - 1,by omega⟩
        simp only [show xs.length + 1 + k - xs.length = k + 1 by omega,List.getElem_cons_succ,
          show xs.length + 1 + k - 1 - xs.length = k by omega]
    · have sorted := h.sorted
      rw [split,List.pairwise_append] at sorted
      rw [List.pairwise_append,List.pairwise_cons]
      refine ⟨sorted.1,⟨above,sorted.2.1⟩,?_⟩
      intro c early d late
      rcases List.mem_cons.mp late with here | later
      · rw [here]
        exact below c early
      · exact sorted.2.2 c early d later

theorem insertFull (h : Listed m l) (new : item.logical ∉ l.map ChunkMapItem.logical)
    (full : l.length = btrfsMaxChunkEntries) : insertMap m item = m := by
  cases eq : m.map with
  | none =>
    rw [h.null.mp eq] at full
    contradiction
  | some map =>
    have item' : m.item = map := by
      funext i
      rw [ChunkMap.item,eq]
    rcases listedSearch h item with ⟨xs,d,ys,split,same,_⟩ | ⟨_,_,_,_,_,found⟩
    · refine absurd (List.mem_map.mpr ⟨d,?_,same⟩) new
      rw [split]
      simp
    · rw [item'] at found
      rw [insertMap,eq]
      simp only [found,Nat.one_ne_zero,if_false,if_pos (h.count.trans full)]

theorem firstsSnoc (items : List ChunkMapItem) (item : ChunkMapItem) : firsts (items ++ [item]) =
    if item.logical ∈ (firsts items).map ChunkMapItem.logical then firsts items else firsts items ++ [item] := by
  rw [firsts,List.foldl_append]
  rfl

theorem emptyListed : Listed emptyMap [] := ⟨rfl,by simp [emptyMap],fun i h => absurd h (Nat.not_lt_zero i),List.Pairwise.nil⟩

theorem insertAllListed (items : List ChunkMapItem) (room : (firsts items).length ≤ btrfsMaxChunkEntries) :
    ∃ l, Listed (insertAll items) l ∧ l.Perm (firsts items) := by
  induction items using List.reverseRecOn with
  | nil => exact ⟨[],emptyListed,List.Perm.refl _⟩
  | append_singleton items item ih =>
    have last : insertAll (items ++ [item]) = insertMap (insertAll items) item := by
      rw [insertAll,List.foldl_append]
      rfl
    rw [firstsSnoc] at room ⊢
    rw [last]
    split
    · rename_i known
      rw [if_pos known] at room
      obtain ⟨l,listed,perm⟩ := ih room
      refine ⟨l,?_,perm⟩
      rw [insertKnown listed ((perm.map _).mem_iff.mpr known)]
      exact listed
    · rename_i new
      rw [if_neg new,List.length_append,List.length_singleton] at room
      obtain ⟨l,listed,perm⟩ := ih (by omega)
      have length := perm.length_eq
      obtain ⟨xs,ys,split,after⟩ := insertNew listed (fun known => new ((perm.map _).mem_iff.mp known)) (by omega)
      refine ⟨_,after,?_⟩
      rw [split] at perm
      exact List.perm_middle.trans ((perm.cons item).trans (List.perm_append_singleton item _).symm)

/- The last chunk that starts at the address or before it decides. -/
theorem lookupListed (h : Listed m l) (a : Nat) :
    (∃ xs c ys, l = xs ++ c::ys ∧ c.logical ≤ a ∧ (∀ d ∈ ys, a < d.logical) ∧ logicalPhysical m a = c.answer a) ∨
    ((∀ d ∈ l, a < d.logical) ∧ logicalPhysical m a = noAddress) := by
  rcases listedSearch h ⟨a,0,0,0⟩ with ⟨xs,c,ys,split,same,found⟩ | ⟨xs,ys,split,below,above,found⟩
  · refine Or.inl ⟨xs,c,ys,split,Nat.le_of_eq same,?_,?_⟩
    · have sorted := h.sorted
      rw [split] at sorted
      intro d mem
      have := (List.pairwise_cons.mp (List.pairwise_append.mp sorted).2.1).1 d mem
      rwa [same] at this
    · have entry : m.item xs.length = c := by
        rw [h.entries xs.length (by rw [split]; simp)]
        simp [split]
      rw [logicalPhysical,found]
      simp only [if_true,Nat.succ_ne_zero,if_false,Nat.add_sub_cancel,entry]
  · rcases List.eq_nil_or_concat xs with none' | ⟨zs,c,eq⟩
    · refine Or.inr ⟨?_,?_⟩
      · rw [split,none']
        exact above
      · rw [logicalPhysical,found,none']
        rfl
    · rw [List.concat_eq_append] at eq
      refine Or.inl ⟨zs,c,ys,by rw [split,eq]; simp,Nat.le_of_lt (below c (by rw [eq]; simp)),above,?_⟩
      have length : xs.length = zs.length + 1 := by
        rw [eq]
        simp
      have entry : m.item zs.length = c := by
        rw [h.entries zs.length (by rw [split]; simp; omega)]
        simp [split,eq]
      rw [logicalPhysical,found]
      simp only [if_false,length,Nat.succ_ne_zero,Nat.add_sub_cancel,entry]

theorem answerInside {c : ChunkMapItem} {a : Nat} (covers : c.Covers a) (before : c.logical + c.length < 2^64) :
    c.answer a = (c.physical + (a - c.logical)) % 2^64 := by
  obtain ⟨le,lt⟩ := covers
  rw [ChunkMapItem.answer,Nat.mod_eq_of_lt before,if_neg (by omega),
    show c.physical + a + (2^64 - c.logical) = c.physical + (a - c.logical) + 2^64 by omega,Nat.add_mod_right]

theorem answerBehind {c : ChunkMapItem} {a : Nat} (behind : c.logical + c.length ≤ a) (word : a < 2^64) :
    c.answer a = noAddress := by
  rw [ChunkMapItem.answer,Nat.mod_eq_of_lt (by omega),if_pos behind]

/- The end of the last chunk of the address space wraps to 0. -/
theorem answerLast {c : ChunkMapItem} (a : Nat) (last : c.logical + c.length = 2^64) : c.answer a = noAddress := by
  rw [ChunkMapItem.answer,last,Nat.mod_self,if_pos (Nat.zero_le a)]

/- Of the chunks of a map only the last one up to an address can cover it. -/
theorem coverLast {xs ys : List ChunkMapItem} {c d : ChunkMapItem} {a : Nat} (h : Listed m (xs ++ c::ys))
    (chunk : c.Chunk) (apart : d ≠ c → d.Apart c) (upTo : c.logical ≤ a) (above : ∀ d ∈ ys, a < d.logical)
    (mem : d ∈ xs ++ c::ys) (covers : d.Covers a) : d = c := by
  by_contra other
  rcases List.mem_append.mp mem with early | late
  · have order := (List.pairwise_append.mp h.sorted).2.2 d early c (by simp)
    have := chunk.some'
    have := covers.2
    exact apart other c.logical ⟨⟨by omega,by omega⟩,⟨by omega,by omega⟩⟩
  · rcases List.mem_cons.mp late with same | later
    · exact other same
    · have := above d later
      have := covers.1
      omega

end

def Resolves (m : ChunkMap) (a : Nat) (c : ChunkMapItem) : Prop :=
  ∃ xs ys, Listed m (xs ++ c::ys) ∧ c.Covers a ∧ ∀ d ∈ ys, a < d.logical

theorem resolvesAnswer {m : ChunkMap} {a : Nat} {c : ChunkMapItem} (h : Resolves m a c) : logicalPhysical m a = c.answer a := by
  obtain ⟨xs,ys,listed,covers,above⟩ := h
  rcases lookupListed listed a with ⟨xs',d,ys',split,upTo,above',eq⟩ | ⟨none',_⟩
  · have same : c = d := by
      have mem : d ∈ xs ++ c::ys := by rw [split]; simp
      have mem' : c ∈ xs' ++ d::ys' := by rw [← split]; simp
      have sorted := listed.sorted
      have sorted' := sorted
      rw [split] at sorted'
      rcases List.mem_append.mp mem with early | late
      · have less := (List.pairwise_append.mp sorted).2.2 d early c (by simp)
        rcases List.mem_append.mp mem' with early' | late'
        · have := (List.pairwise_append.mp sorted').2.2 c early' d (by simp)
          omega
        · rcases List.mem_cons.mp late' with same | later
          · exact same
          · have := above' c later
            have := covers.1
            omega
      · rcases List.mem_cons.mp late with same | later
        · exact same.symm
        · have := above d later
          omega
    rw [eq,same]
  · have := none' c (by simp)
    have := covers.1
    omega

/- A chunk apart from the one that covers the address does not change the answer. -/
theorem resolvesInsert {m : ChunkMap} {a : Nat} {c item : ChunkMapItem} (h : Resolves m a c)
    (other : item.logical = c.logical ∨ 0 < item.length ∧ c.Apart item) : Resolves (insertMap m item) a c := by
  obtain ⟨xs,ys,listed,covers,above⟩ := h
  by_cases known : item.logical ∈ (xs ++ c::ys).map ChunkMapItem.logical
  · rw [insertKnown listed known]
    exact ⟨xs,ys,listed,covers,above⟩
  by_cases full : (xs ++ c::ys).length = btrfsMaxChunkEntries
  · rw [insertFull listed known full]
    exact ⟨xs,ys,listed,covers,above⟩
  obtain ⟨us,vs,split,after⟩ := insertNew listed known full
  have apart : item.logical < c.logical ∨ a < item.logical := by
    rcases other with same | ⟨some',apart⟩
    · exact absurd (List.mem_map.mpr ⟨c,by simp,same.symm⟩) known
    · by_contra between
      have := covers.2
      exact apart item.logical ⟨⟨by omega,by omega⟩,⟨by omega,by omega⟩⟩
  rcases List.append_eq_append_iff.mp split with ⟨zs,usEq,tail⟩ | ⟨zs,xsEq,vsEq⟩
  · cases zs with
    | nil =>
      rw [List.nil_append] at tail
      rw [usEq,List.append_nil,← tail] at after
      refine ⟨xs ++ [item],ys,by simpa using after,covers,above⟩
    | cons z zs =>
      obtain ⟨rfl,rest⟩ := List.cons.inj tail
      rw [usEq] at after
      refine ⟨xs,zs ++ item::vs,by simpa using after,covers,?_⟩
      have order : c.logical < item.logical := by
        have sorted := after.sorted
        exact (List.pairwise_append.mp sorted).2.2 c (by simp) item (by simp)
      intro d mem
      rcases List.mem_append.mp mem with early | late
      · exact above d (by rw [rest]; simp [early])
      · rcases List.mem_cons.mp late with same | later
        · rw [same]
          omega
        · exact above d (by rw [rest]; simp [later])
  · rw [vsEq] at after
    exact ⟨us ++ item::zs,ys,by simpa using after,covers,above⟩

/- Chunks that do not end with the address space; where the one answer for it is -1, that
one may. -/
def EndsInside (c : ChunkMapItem) : Prop := c.logical + c.length = 2^64 → c.length = 1 ∧ c.physical = noAddress

/- Chunks in any order, with repeats: the map serves them exactly when none ends at 2^64. -/
theorem chunkMapServes {items : List ChunkMapItem} (chunks : ∀ c ∈ firsts items, c.Chunk)
    (apart : ∀ c ∈ firsts items, ∀ d ∈ firsts items, c ≠ d → c.Apart d)
    (room : (firsts items).length ≤ btrfsMaxChunkEntries) :
    MapServes (firsts items) (insertAll items) ↔ ∀ c ∈ firsts items, EndsInside c := by
  obtain ⟨l,listed,perm⟩ := insertAllListed items room
  constructor
  · intro serves c mem last
    have word := chunks c mem
    have answer : ∀ a, c.Covers a → (c.physical + (a - c.logical)) % 2^64 = noAddress := by
      intro a covers
      rw [← serves.found c mem a covers]
      rcases lookupListed listed a with ⟨xs,d,ys,split,upTo,above,eq⟩ | ⟨above,eq⟩
      · have inside := perm.mem_iff.mpr mem
        subst split
        have memD : d ∈ firsts items := perm.mem_iff.mp (by simp)
        have same := coverLast listed (chunks d memD) (apart c mem d memD) upTo above inside covers
        rw [eq,← same]
        exact answerLast a last
      · exact eq
    have positive := word.some'
    have physical := word.physical
    have first := answer c.logical ⟨Nat.le_refl _,by omega⟩
    rw [Nat.sub_self,Nat.add_zero,Nat.mod_eq_of_lt physical] at first
    refine ⟨?_,first⟩
    by_contra more
    have second := answer (c.logical + 1) ⟨by omega,by omega⟩
    rw [Nat.add_sub_cancel_left,first] at second
    exact absurd second (by decide)
  · intro inside
    refine ⟨?_,?_,?_⟩
    · intro i j less small
      rw [listed.count] at small
      rw [listed.entries i (by omega),listed.entries j small]
      exact List.pairwise_iff_getElem.mp listed.sorted i j (by omega) small less
    · intro c mem a covers
      rcases lookupListed listed a with ⟨xs,d,ys,split,upTo,above,eq⟩ | ⟨above,_⟩
      · have here := perm.mem_iff.mpr mem
        subst split
        have memD : d ∈ firsts items := perm.mem_iff.mp (by simp)
        have same := coverLast listed (chunks d memD) (apart c mem d memD) upTo above here covers
        rw [eq,← same]
        have bound := (chunks c mem).inside
        rcases Nat.lt_or_eq_of_le bound with before | last
        · exact answerInside covers before
        · obtain ⟨one,physical⟩ := inside c mem last
          have first : a = c.logical := by
            have := covers.1
            have := covers.2
            omega
          rw [answerLast a last,first,Nat.sub_self,physical]
          rfl
      · have := above c (perm.mem_iff.mpr mem)
        have := covers.1
        omega
    · intro a word missing
      rcases lookupListed listed a with ⟨xs,d,ys,split,upTo,above,eq⟩ | ⟨_,eq⟩
      · have memD : d ∈ firsts items := perm.mem_iff.mp (by rw [split]; simp)
        have outside : d.logical + d.length ≤ a := by
          by_contra covers
          exact missing d memD ⟨upTo,by omega⟩
        rw [eq,answerBehind outside word]
      · exact eq

/- Three chunks with a gap between them, not in order and one of them twice. -/
def smallChunks : List ChunkMapItem := [⟨8,4,1,100⟩,⟨0,4,1,200⟩,⟨8,6,1,300⟩,⟨4,2,1,400⟩]

theorem chunkMapServesSmall : MapServes [⟨8,4,1,100⟩,⟨0,4,1,200⟩,⟨4,2,1,400⟩] (insertAll smallChunks) := by
  have kept : firsts smallChunks = [⟨8,4,1,100⟩,⟨0,4,1,200⟩,⟨4,2,1,400⟩] := by decide
  have serves := @chunkMapServes smallChunks ?_ ?_ (by decide)
  · rw [kept] at serves
    refine serves.mpr ?_
    intro c mem
    simp only [List.mem_cons,List.not_mem_nil,or_false] at mem
    rcases mem with rfl | rfl | rfl <;> exact fun last => absurd last (by decide)
  · rw [kept]
    intro c mem
    simp only [List.mem_cons,List.not_mem_nil,or_false] at mem
    rcases mem with rfl | rfl | rfl <;> exact ⟨by decide,by decide,by decide⟩
  · rw [kept]
    intro c memC d memD other a covers
    simp only [List.mem_cons,List.not_mem_nil,or_false] at memC memD
    obtain ⟨⟨le,lt⟩,le',lt'⟩ := covers
    rcases memC with rfl | rfl | rfl <;> rcases memD with rfl | rfl | rfl <;>
      first | exact other rfl | (simp only at le lt le' lt'; omega)

/- The last page of the address space: its first byte is in the chunk, and is not found. -/
theorem lastChunkMissed : ¬ ∀ items : List ChunkMapItem, (∀ c ∈ firsts items, c.Chunk) →
    (∀ c ∈ firsts items, ∀ d ∈ firsts items, c ≠ d → c.Apart d) →
    (firsts items).length ≤ btrfsMaxChunkEntries → MapServes (firsts items) (insertAll items) := by
  intro claim
  have one : firsts [⟨2^64 - 4096,4096,1,0⟩] = [⟨2^64 - 4096,4096,1,0⟩] := by decide
  have serves := claim [⟨2^64 - 4096,4096,1,0⟩]
    (by
      rw [one]
      intro c mem
      cases List.mem_singleton.mp mem
      exact ⟨by decide,by decide,by decide⟩)
    (by
      rw [one]
      intro c memC d memD other
      exact absurd ((List.mem_singleton.mp memC).trans (List.mem_singleton.mp memD).symm) other)
    (by decide)
  have answer := serves.found ⟨2^64 - 4096,4096,1,0⟩ (by rw [one]; simp) (2^64 - 4096) ⟨by decide,by decide⟩
  exact absurd answer (by decide)

end Syslinux.Btrfs
