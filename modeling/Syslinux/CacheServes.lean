import Syslinux.Cache

/-! What the block cache is for: every get_cache and cache_read answers with the bytes of
the disk, the chain orders the unlocked entries by their last use, and a locked entry
keeps its block. -/
namespace Syslinux.Cache
open Chain Runs

/- The promises in a state: about the descriptors, and about any get_cache or cache_read
called next. -/
structure Serves (disk : Nat → UInt8) (shift : Nat) (s : Session) : Prop where
  unique : ∀ e f, s.dev.isEntry e → s.dev.isEntry f → s.dev.block e = s.dev.block f → s.dev.block e ≠ noBlock → e = f
  chain : ∃ lru, Circular s.dev.links head lru ∧ (∀ e, e ∈ lru ↔ s.dev.isEntry e ∧ e ∉ s.locked) ∧
    lru.Pairwise (fun e f => lastUse s.used e ≤ lastUse s.used f)
  returns : ∀ block < noBlock, ∃ p, (getCache disk s.dev block).2 = some p ∧
    read (getCache disk s.dev block).1.mem p (2^shift) = read disk (block*2^shift) (2^shift)
  evicts : ∀ block < noBlock, (∀ e, s.dev.isEntry e → s.dev.block e ≠ block) →
    s.dev.isEntry (getCacheBlock s.dev block).2 ∧ (getCacheBlock s.dev block).2 ∉ s.locked ∧
    ∀ e, s.dev.isEntry e → e ∉ s.locked → lastUse s.used (getCacheBlock s.dev block).2 ≤ lastUse s.used e
  keeps : ∀ block < noBlock, ∀ e ∈ s.locked, ∃ p, s.dev.data e = some p ∧
    (getCache disk s.dev block).1.block e = s.dev.block e ∧ (getCache disk s.dev block).1.data e = some p ∧
    read (getCache disk s.dev block).1.mem p (2^shift) = read s.dev.mem p (2^shift)
  reads : ∀ offset count, offset + count ≤ 2^64 → offset + count ≤ noBlock*2^shift →
    (cacheRead disk shift s.dev offset count).2 = read disk offset count ∧
    ∃ blocks : List Nat, ∃ s', run (step disk) s (blocks.map .get) = some s' ∧
      s'.dev = (cacheRead disk shift s.dev offset count).1

section
variable {used : List Nat} {e v : Nat}

theorem lastUseNew : lastUse (used ++ [v]) v = used.length + 1 := by simp [lastUse]

theorem lastUseOther (h : e ≠ v) : lastUse (used ++ [v]) e = lastUse used e := by
  simp [lastUse,h.symm]

theorem lastUseLe : lastUse used e ≤ used.length := by simp [lastUse]

end

/- The entries of a cache with `n` of them, and where the data of one lies. -/
def isEntry (n e : Nat) : Prop := head < e ∧ e ≤ head + n
def place (shift e : Nat) : Nat := (e - 2)*2^shift

structure Kept (disk : Nat → UInt8) (shift n : Nat) (lru : List Nat) (s : Session) : Prop where
  head : s.dev.cacheHead = head
  entries : s.dev.cacheEntries = n
  size : s.dev.cacheBlockSize = 2^shift
  data : ∀ e, isEntry n e → s.dev.data e = some (place shift e)
  holds : ∀ e, isEntry n e → s.dev.block e ≠ noBlock →
    read s.dev.mem (place shift e) (2^shift) = read disk (s.dev.block e*2^shift) (2^shift)
  unique : ∀ e f, isEntry n e → isEntry n f → s.dev.block e = s.dev.block f → s.dev.block e ≠ noBlock → e = f
  ring : Circular s.dev.links Cache.head lru
  members : ∀ e, e ∈ lru ↔ isEntry n e ∧ e ∉ s.locked
  sorted : lru.Pairwise (fun e f => lastUse s.used e ≤ lastUse s.used f)
  unlocked : lru ≠ []
  locked : ∀ e ∈ s.locked, isEntry n e ∧ s.dev.links.next e = 0

section
variable {disk : Nat → UInt8} {shift n : Nat} {lru : List Nat} {s : Session}

theorem findBlockSound {dev : Device} {block left cs e : Nat} (found : findBlock dev block left cs = some e) :
    cs ≤ e ∧ e < cs + left ∧ dev.block e = block := by
  induction left generalizing cs with
  | zero => contradiction
  | succ left ih =>
    rw [findBlock] at found
    split at found
    · cases Option.some.inj found
      exact ⟨by omega,by omega,by assumption⟩
    · obtain ⟨above,below,holds⟩ := ih found
      exact ⟨by omega,by omega,holds⟩

theorem findBlockNone {dev : Device} {block left cs : Nat} (missing : findBlock dev block left cs = none) {e : Nat}
    (above : cs ≤ e) (below : e < cs + left) : dev.block e ≠ block := by
  induction left generalizing cs with
  | zero => omega
  | succ left ih =>
    rw [findBlock] at missing
    split at missing
    · contradiction
    · by_cases first : e = cs
      · subst first; assumption
      · exact ih missing (by omega) (by omega)

theorem chosen (h : Kept disk shift n lru s) (block : Nat) :
    (isEntry n (getCacheBlock s.dev block).2 ∧ s.dev.block (getCacheBlock s.dev block).2 = block) ∨
    ((∀ e, isEntry n e → s.dev.block e ≠ block) ∧ ∃ rest, lru = (getCacheBlock s.dev block).2::rest) := by
  have where' : (getCacheBlock s.dev block).2 =
      (findBlock s.dev block n (head + 1)).getD (s.dev.links.next head) := by
    rw [getCacheBlock,h.head,h.entries]
  rw [where']
  cases found : findBlock s.dev block n (head + 1) with
  | some e =>
    obtain ⟨above,below,holds⟩ := findBlockSound found
    exact Or.inl ⟨⟨above,by simp only [Option.getD_some]; omega⟩,holds⟩
  | none =>
    refine Or.inr ⟨?_,?_⟩
    · intro e entry
      exact findBlockNone found entry.1 (by have := entry.2; omega)
    · obtain ⟨first,rest,eq⟩ := List.exists_cons_of_ne_nil h.unlocked
      refine ⟨rest,?_⟩
      have next := circularHeadNext h.ring
      simp only [eq,List.cons_append,List.head_cons] at next
      simp [next,eq]

theorem chosenEntry (h : Kept disk shift n lru s) (block : Nat) : isEntry n (getCacheBlock s.dev block).2 := by
  rcases chosen h block with hit | ⟨_,rest,eq⟩
  · exact hit.1
  · exact ((h.members _).mp (by rw [eq]; simp)).1

theorem nextOfUnlocked (h : Kept disk shift n lru s) {e : Nat} (m : e ∈ lru) : s.dev.links.next e ≠ 0 := by
  obtain ⟨xs,ys,eq⟩ := List.append_of_mem m
  have ring := h.ring
  rw [eq] at ring
  rw [circularNext ring]
  have mem := List.head_mem (l := ys ++ [Cache.head]) (by simp)
  intro zero
  rw [zero] at mem
  rcases List.mem_append.mp mem with inside | atHead
  · have entry := ((h.members 0).mp (by simp [eq,inside])).1
    exact absurd entry.1 (by simp)
  · exact absurd (List.mem_singleton.mp atHead) (by decide)

section
variable {xs ys : List Nat} {c : Nat}

theorem moveWrites (h : Kept disk shift n (xs ++ c::ys) s) : (moveToEnd s.dev c).links =
    ((s.dev.links.join (s.dev.links.prev c) (s.dev.links.next c)).join c head).join (lastOf head (xs ++ ys)) c := by
  have ring := circularUnlink h.ring
  have fresh := freshOf h.ring.2
  have notHead : Cache.head ≠ c := fun same => fresh (by simp [same])
  have lastNe : lastOf Cache.head (xs ++ ys) ≠ c := fun same => fresh (same ▸ lastMem _ _)
  simp only [moveToEnd,nextOfUnlocked h (e := c) (by simp),if_false,h.head,setNextPrev,
    unlinkWrites (circularPrevNe h.ring)]
  rw [setPrevPrev,Function.update_of_ne notHead,circularHeadPrev ring]
  exact insertWrites lastNe notHead

theorem moveRing (h : Kept disk shift n (xs ++ c::ys) s) :
    Circular (moveToEnd s.dev c).links head (xs ++ ys ++ [c]) := by
  have ring := circularUnlink h.ring
  rw [moveWrites h,← circularHeadPrev ring]
  exact circularSnoc ring (freshOf h.ring.2)

theorem moveFrame (h : Kept disk shift n (xs ++ c::ys) s) {e : Nat} (outside : e ∉ head::(xs ++ c::ys)) :
    (moveToEnd s.dev c).links.next e = s.dev.links.next e := by
  have notC : e ≠ c := fun same => outside (by simp [same])
  have notLast : e ≠ lastOf Cache.head (xs ++ ys) := by
    intro same
    have m := lastMem Cache.head (xs ++ ys)
    rw [← same] at m
    refine outside ?_
    simp only [List.mem_cons,List.mem_append] at m ⊢
    tauto
  have notPrev : e ≠ s.dev.links.prev c := by
    intro same
    rw [circularPrev h.ring] at same
    have m := lastMem Cache.head xs
    rw [← same] at m
    refine outside ?_
    simp only [List.mem_cons,List.mem_append] at m ⊢
    tauto
  rw [moveWrites h]
  simp [Links.join,notC,notLast,notPrev]

end

theorem moveLocked {dev : Device} {c : Nat} (locked : dev.links.next c = 0) : moveToEnd dev c = dev := by
  simp [moveToEnd,locked]

theorem moveOnlyLinks (dev : Device) (c : Nat) : moveToEnd dev c = { dev with links := (moveToEnd dev c).links } := by
  unfold moveToEnd
  split <;> rfl

theorem getCacheEq (dev : Device) (block : Nat) : getCache disk dev block =
    ({ dev with
        links := (moveToEnd dev (getCacheBlock dev block).2).links
        block := Function.update dev.block (getCacheBlock dev block).2 block
        mem := if dev.block (getCacheBlock dev block).2 = block then dev.mem
          else getoneblk disk dev.mem (dev.data (getCacheBlock dev block).2) block dev.cacheBlockSize },
      dev.data (getCacheBlock dev block).2) := by
  have first : (getCacheBlock dev block).1 = moveToEnd dev (getCacheBlock dev block).2 := rfl
  rw [getCache]
  simp only
  rw [first]
  generalize (getCacheBlock dev block).2 = v
  rw [moveOnlyLinks]
  by_cases hit : dev.block v = block
  · subst hit
    simp
  · simp [hit]

theorem placeApart {e f : Nat} (he : isEntry n e) (hf : isEntry n f) (h : e ≠ f) :
    place shift e + 2^shift ≤ place shift f ∨ place shift f + 2^shift ≤ place shift e := by
  have pos := he.1
  have pos' := hf.1
  simp only [head] at pos pos'
  unfold place
  rcases Nat.lt_or_gt_of_ne h with lt | gt
  · left
    calc (e - 2)*2^shift + 2^shift = (e - 2 + 1)*2^shift := by ring
      _ ≤ (f - 2)*2^shift := Nat.mul_le_mul_right _ (by omega)
  · right
    calc (f - 2)*2^shift + 2^shift = (f - 2 + 1)*2^shift := by ring
      _ ≤ (e - 2)*2^shift := Nat.mul_le_mul_right _ (by omega)

theorem getHolds (h : Kept disk shift n lru s) {block : Nat} (real : block < noBlock) :
    read (getCache disk s.dev block).1.mem (place shift (getCacheBlock s.dev block).2) (2^shift) =
      read disk (block*2^shift) (2^shift) := by
  have entry := chosenEntry h block
  rw [getCacheEq]
  simp only
  split
  · rename_i hit
    rw [h.holds _ entry (by rw [hit]; omega),hit]
  · rw [h.data _ entry,h.size,getoneblk,readInside (by simp)]
    simp

theorem getOthers (h : Kept disk shift n lru s) (block : Nat) {e : Nat} (entry : isEntry n e)
    (other : e ≠ (getCacheBlock s.dev block).2) :
    read (getCache disk s.dev block).1.mem (place shift e) (2^shift) = read s.dev.mem (place shift e) (2^shift) := by
  have chosen := chosenEntry h block
  rw [getCacheEq]
  simp only
  split
  · rfl
  · rw [h.data _ chosen,h.size,getoneblk]
    exact readApart (by simpa using placeApart entry chosen other)

theorem getSole (h : Kept disk shift n lru s) {block : Nat} (real : block < noBlock) {e : Nat} (entry : isEntry n e)
    (other : e ≠ (getCacheBlock s.dev block).2) : s.dev.block e ≠ block := by
  rcases chosen h block with ⟨here,hit⟩ | ⟨missing,_⟩
  · intro same
    exact other (h.unique e _ entry here (by rw [same,hit]) (by omega))
  · exact missing e entry

theorem getRing (h : Kept disk shift n lru s) (block : Nat) : ∃ lru',
    Circular (moveToEnd s.dev (getCacheBlock s.dev block).2).links head lru' ∧ (∀ e, e ∈ lru' ↔ e ∈ lru) ∧
    lru'.Pairwise (fun e f => lastUse (s.used ++ [(getCacheBlock s.dev block).2]) e ≤
      lastUse (s.used ++ [(getCacheBlock s.dev block).2]) f) ∧
    ∀ e ∈ s.locked, (moveToEnd s.dev (getCacheBlock s.dev block).2).links.next e = 0 := by
  have entry := chosenEntry h block
  generalize (getCacheBlock s.dev block).2 = v at entry
  by_cases m : v ∈ lru
  · obtain ⟨xs,ys,eq⟩ := List.append_of_mem m
    subst eq
    have fresh := freshOf h.ring.2
    have others : ∀ e ∈ xs ++ ys, lastUse (s.used ++ [v]) e = lastUse s.used e := by
      intro e me
      exact lastUseOther (fun same => fresh (List.mem_cons_of_mem _ (same ▸ me)))
    refine ⟨xs ++ ys ++ [v],moveRing h,?_,?_,?_⟩
    · intro e
      simp only [List.mem_append,List.mem_cons,List.not_mem_nil,or_false]
      tauto
    · rw [List.pairwise_append]
      have shorter := h.sorted.sublist ((List.sublist_cons_self v ys).append_left xs)
      refine ⟨shorter.imp_of_mem ?_,by simp,?_⟩
      · intro e f me mf le
        rw [others e me,others f mf]
        exact le
      · intro e me f mf
        rw [List.mem_singleton.mp mf,lastUseNew,others e me]
        exact Nat.le_succ_of_le lastUseLe
    · intro e me
      rw [moveFrame h ?_]
      · exact (h.locked e me).2
      · intro inside
        rcases List.mem_cons.mp inside with atHead | inside
        · have above := (h.locked e me).1.1
          omega
        · exact ((h.members e).mp inside).2 me
  · have locked : v ∈ s.locked := by
      by_contra free
      exact m ((h.members v).mpr ⟨entry,free⟩)
    rw [moveLocked (h.locked v locked).2]
    refine ⟨lru,h.ring,fun _ => Iff.rfl,h.sorted.imp_of_mem ?_,fun e me => (h.locked e me).2⟩
    intro e f me mf le
    have notE : e ≠ v := fun same => m (same ▸ me)
    have notF : f ≠ v := fun same => m (same ▸ mf)
    rw [lastUseOther notE,lastUseOther notF]
    exact le

theorem keptGet (h : Kept disk shift n lru s) {block : Nat} (real : block < noBlock) : ∃ lru', Kept disk shift n lru'
    { s with dev := (getCache disk s.dev block).1, used := s.used ++ [(getCacheBlock s.dev block).2] } := by
  obtain ⟨lru',ring,members,sorted,locked⟩ := getRing h block
  have entry := chosenEntry h block
  have holds := getHolds h real
  have others := fun e => getOthers h block (e := e)
  have sole := fun e => getSole h real (e := e)
  have blockOf : (getCache disk s.dev block).1.block = Function.update s.dev.block (getCacheBlock s.dev block).2 block := by
    rw [getCacheEq]
  refine ⟨lru',?_⟩
  constructor
  case head => rw [getCacheEq]; exact h.head
  case entries => rw [getCacheEq]; exact h.entries
  case size => rw [getCacheEq]; exact h.size
  case data => rw [getCacheEq]; exact h.data
  case holds =>
    intro e he used
    by_cases same : e = (getCacheBlock s.dev block).2
    · subst same
      simpa [blockOf] using holds
    · simp only [blockOf,Function.update_of_ne same] at used ⊢
      rw [others e he same]
      exact h.holds e he used
  case unique =>
    intro e f he hf eq used
    simp only [blockOf] at eq used
    by_cases se : e = (getCacheBlock s.dev block).2
    · by_cases sf : f = (getCacheBlock s.dev block).2
      · rw [se,sf]
      · rw [se,Function.update_self,Function.update_of_ne sf] at eq
        exact absurd eq.symm (sole f hf sf)
    · by_cases sf : f = (getCacheBlock s.dev block).2
      · rw [sf,Function.update_self,Function.update_of_ne se] at eq
        exact absurd eq (sole e he se)
      · rw [Function.update_of_ne se,Function.update_of_ne sf] at eq
        rw [Function.update_of_ne se] at used
        exact h.unique e f he hf eq used
  case ring => rw [getCacheEq]; exact ring
  case members =>
    intro e
    rw [members e]
    exact h.members e
  case sorted => exact sorted
  case unlocked =>
    obtain ⟨first,rest,eq⟩ := List.exists_cons_of_ne_nil h.unlocked
    exact List.ne_nil_of_mem ((members first).mpr (by simp [eq]))
  case locked =>
    intro e m
    rw [getCacheEq]
    exact ⟨(h.locked e m).1,locked e m⟩

theorem keptLock (h : Kept disk shift n lru s) {cs : Nat} (entry : isEntry n cs) (free : cs ∉ s.locked)
    (other : ∃ e, isEntry n e ∧ e ≠ cs ∧ e ∉ s.locked) :
    ∃ lru', Kept disk shift n lru' { s with dev := cacheLockBlock s.dev cs, locked := s.locked ++ [cs] } := by
  obtain ⟨xs,ys,eq⟩ := List.append_of_mem ((h.members cs).mpr ⟨entry,free⟩)
  subst eq
  have fresh := freshOf h.ring.2
  have writes : (cacheLockBlock s.dev cs).links =
      ((s.dev.links.join (s.dev.links.prev cs) (s.dev.links.next cs)).setPrev cs 0).setNext cs 0 := by
    simp only [cacheLockBlock,setNextPrev,unlinkWrites (circularPrevNe h.ring)]
  have members : ∀ e, e ∈ xs ++ ys ↔ isEntry n e ∧ e ∉ s.locked ++ [cs] := by
    intro e
    have same := h.members e
    have notHere : e ∈ xs ++ ys → e ≠ cs := fun m sameE => fresh (List.mem_cons_of_mem _ (sameE ▸ m))
    simp only [List.mem_append,List.mem_cons,List.not_mem_nil,or_false] at same notHere ⊢
    tauto
  refine ⟨xs ++ ys,h.head,h.entries,h.size,h.data,h.holds,h.unique,?_,members,?_,?_,?_⟩
  · refine circularCongr ?_ ?_ (circularUnlink h.ring)
    · intro p m
      have ne : p ≠ cs := fun same => fresh (same ▸ m)
      simp only [writes,setNextNext,setPrevNext,Function.update_of_ne ne]
    · intro p m
      have ne : p ≠ cs := fun same => fresh (same ▸ m)
      simp only [writes,setNextPrev,setPrevPrev,Function.update_of_ne ne]
  · exact h.sorted.sublist ((List.sublist_cons_self cs ys).append_left xs)
  · obtain ⟨e,he,ne,unlocked⟩ := other
    exact List.ne_nil_of_mem ((members e).mpr ⟨he,by simp [ne,unlocked]⟩)
  · intro e m
    simp only [writes,setNextNext,setPrevNext]
    by_cases same : e = cs
    · subst same
      exact ⟨entry,by simp⟩
    · rw [Function.update_of_ne same]
      have before := h.locked e (by simpa [same] using m)
      refine ⟨before.1,?_⟩
      have notPrev : e ≠ s.dev.links.prev cs := by
        intro atPrev
        rw [circularPrev h.ring] at atPrev
        have inside := lastMem Cache.head xs
        rw [← atPrev] at inside
        rcases List.mem_cons.mp inside with atHead | inside
        · have above := before.1.1
          omega
        · exact ((members e).mp (by simp [inside])).2 m
      simp [Links.join,notPrev,before.2]

theorem keptStep {e : Event} {s' : Session} (h : Kept disk shift n lru s) (ok : step disk s e = some s') :
    ∃ lru', Kept disk shift n lru' s' := by
  cases e with
  | get block =>
    simp only [step] at ok
    split at ok
    · cases Option.some.inj ok
      exact keptGet h (by assumption)
    · contradiction
  | lock cs =>
    simp only [step] at ok
    split at ok
    · rename_i enabled
      cases Option.some.inj ok
      obtain ⟨entry,free,e,m,ne,unlocked⟩ := enabled
      simp only [Device.isEntry,Device.entries,h.head,h.entries,List.mem_range'_1] at entry m
      exact keptLock h entry free ⟨e,⟨m.1,by omega⟩,ne,unlocked⟩
    · contradiction

/- cache_read asks for the blocks of the range one after the other. -/
theorem readLoop (turns : Nat) {offset count : Nat} (h : Kept disk shift n lru s) (enough : count ≤ turns)
    (inside : offset + count ≤ 2^64) (real : offset + count ≤ noBlock*2^shift) :
    (cacheReadLoop disk shift turns s.dev offset count).2 = read disk offset count ∧
    ∃ blocks : List Nat, ∃ s', run (step disk) s (blocks.map .get) = some s' ∧
      s'.dev = (cacheReadLoop disk shift turns s.dev offset count).1 := by
  induction turns generalizing s lru offset count with
  | zero =>
    obtain rfl : count = 0 := by omega
    exact ⟨rfl,[],s,rfl,rfl⟩
  | succ turns ih =>
    by_cases none' : count = 0
    · subst none'
      exact ⟨rfl,[],s,rfl,rfl⟩
    have below : offset >>> shift < noBlock := by
      rw [Nat.shiftRight_eq_div_pow]
      exact Nat.div_lt_of_lt_mul (by rw [Nat.mul_comm]; omega)
    have data : (getCache disk s.dev (offset >>> shift)).2 =
        some (place shift (getCacheBlock s.dev (offset >>> shift)).2) := by
      rw [getCacheEq]
      exact h.data _ (chosenEntry h _)
    have holds := getHolds h below
    obtain ⟨lru',kept⟩ := keptGet h below
    have part : offset >>> shift*2^shift + offset % 2^shift = offset := by
      rw [Nat.shiftRight_eq_div_pow,Nat.mul_comm]
      exact Nat.div_add_mod offset (2^shift)
    have room := Nat.mod_lt offset (Nat.two_pow_pos shift)
    generalize took : min (2^shift - offset % 2^shift) count = cnt
    have here := readPart holds (show offset % 2^shift + cnt ≤ 2^shift by omega)
    rw [part] at here
    have next : (cacheReadLoop disk shift (turns + 1) s.dev offset count) =
        ((cacheReadLoop disk shift turns (getCache disk s.dev (offset >>> shift)).1
            ((offset + cnt) % 2^64) (count - cnt)).1,
          read disk offset cnt ++ (cacheReadLoop disk shift turns (getCache disk s.dev (offset >>> shift)).1
            ((offset + cnt) % 2^64) (count - cnt)).2) := by
      rw [cacheReadLoop,if_neg none',← here,← took]
      simp only [Nat.and_two_pow_sub_one_eq_mod]
      split
      · rename_i eq
        rw [eq] at data
        contradiction
      · rename_i eq
        rw [eq] at data
        cases Option.some.inj data
        rw [eq]
    have wrapped : (offset + cnt) % 2^64 + (count - cnt) ≤ offset + count := by
      have := Nat.mod_le (offset + cnt) (2^64)
      omega
    obtain ⟨bytes,blocks,s',ran,dev⟩ := ih kept (show count - cnt ≤ turns by omega)
      (wrapped.trans inside) (wrapped.trans real)
    rw [next]
    refine ⟨?_,(offset >>> shift)::blocks,s',?_,dev⟩
    · simp only [bytes]
      by_cases last : cnt = count
      · simp [last,read]
      · rw [Nat.mod_eq_of_lt (by omega),← readAppend,Nat.add_sub_cancel' (by omega)]
    · rw [List.map_cons,run,step,if_pos below]
      exact ran

theorem keptServes (h : Kept disk shift n lru s) : Serves disk shift s := by
  have entryIff : ∀ e, s.dev.isEntry e ↔ isEntry n e := by
    intro e
    rw [Device.isEntry,isEntry,h.head,h.entries]
  have dataOf : ∀ block, (getCache disk s.dev block).1.data = s.dev.data := by
    intro block
    rw [getCacheEq]
  constructor
  case unique =>
    intro e f he hf
    exact h.unique e f ((entryIff e).mp he) ((entryIff f).mp hf)
  case chain =>
    refine ⟨lru,h.ring,?_,h.sorted⟩
    intro e
    rw [entryIff e]
    exact h.members e
  case returns =>
    intro block real
    refine ⟨_,?_,getHolds h real⟩
    rw [getCacheEq]
    exact h.data _ (chosenEntry h block)
  case evicts =>
    intro block real missing
    rcases chosen h block with ⟨here,hit⟩ | ⟨_,rest,eq⟩
    · exact absurd hit (missing _ ((entryIff _).mpr here))
    · have first := (h.members _).mp (show (getCacheBlock s.dev block).2 ∈ lru by rw [eq]; simp)
      refine ⟨(entryIff _).mpr first.1,first.2,?_⟩
      intro e entry free
      have m := (h.members e).mpr ⟨(entryIff e).mp entry,free⟩
      have sorted := h.sorted
      rw [eq] at m sorted
      rcases List.mem_cons.mp m with same | later
      · rw [same]
      · exact (List.pairwise_cons.mp sorted).1 e later
  case keeps =>
    intro block real e m
    obtain ⟨entry,null⟩ := h.locked e m
    refine ⟨place shift e,h.data e entry,?_,by rw [dataOf,h.data e entry],?_⟩
    · rw [getCacheEq]
      by_cases same : e = (getCacheBlock s.dev block).2
      · rcases chosen h block with ⟨_,hit⟩ | ⟨_,rest,eq⟩
        · rw [same]
          simp [hit]
        · exact absurd m ((h.members e).mp (by rw [eq,same]; simp)).2
      · simp [Function.update_of_ne same]
    · by_cases same : e = (getCacheBlock s.dev block).2
      · rcases chosen h block with ⟨_,hit⟩ | ⟨_,rest,eq⟩
        · rw [getCacheEq]
          simp [hit]
        · exact absurd m ((h.members e).mp (by rw [eq,same]; simp)).2
      · exact getOthers h block entry same
  case reads =>
    intro offset count inside real
    exact readLoop count h (Nat.le_refl count) inside real

theorem keptRun {events : List Event} {s' : Session} (h : Kept disk shift n lru s)
    (ok : run (step disk) s events = some s') : ∃ lru', Kept disk shift n lru' s' := by
  have keeps : ∀ s e s', (∃ lru, Kept disk shift n lru s) → step disk s e = some s' → ∃ lru, Kept disk shift n lru s' :=
    fun _ _ _ ⟨_,kept⟩ here => keptStep kept here
  exact runInvariant keeps ⟨lru,h⟩ ok

theorem runServes {events : List Event} {s' : Session} (h : Kept disk shift n lru s)
    (ok : run (step disk) s events = some s') : Serves disk shift s' := by
  obtain ⟨lru',kept⟩ := keptRun h ok
  exact keptServes kept

end

/- What the loop of cache_init leaves in the descriptors it has passed. -/
theorem initEntriesEq (left prev data : Nat) (dev : Device) : initEntries left prev data dev = { dev with
    links :=
      ⟨fun q => if prev ≤ q ∧ q < prev + left then q + 1 else dev.links.next q,
        fun q => if prev < q ∧ q ≤ prev + left then q - 1 else dev.links.prev q⟩
    block := fun q => if prev < q ∧ q ≤ prev + left then noBlock else dev.block q
    data := fun q => if prev < q ∧ q ≤ prev + left then some (data + (q - prev - 1)*dev.cacheBlockSize)
      else dev.data q } := by
  induction left generalizing prev data dev with
  | zero =>
    have none' : ∀ q, ¬ (prev ≤ q ∧ q < prev) := by omega
    have none'' : ∀ q, ¬ (prev < q ∧ q ≤ prev) := by omega
    simp only [initEntries,Nat.add_zero,none',none'',if_false]
  | succ left ih =>
    rw [initEntries,ih]
    simp only [Device.mk.injEq,Links.mk.injEq,setNextNext,setPrevNext,setNextPrev,setPrevPrev,true_and,and_true]
    refine ⟨⟨?_,?_⟩,?_,?_⟩
    · funext q
      by_cases first : q = prev
      · simp [first]
      · rw [Function.update_of_ne first]
        exact if_congr (by omega) rfl rfl
    · funext q
      by_cases first : q = prev + 1
      · simp [first]
      · rw [Function.update_of_ne first]
        exact if_congr (by omega) rfl rfl
    · funext q
      by_cases first : q = prev + 1
      · simp [first]
      · rw [Function.update_of_ne first]
        exact if_congr (by omega) rfl rfl
    · funext q
      by_cases first : q = prev + 1
      · simp [first]
      · rw [Function.update_of_ne first]
        by_cases later : prev + 1 < q ∧ q ≤ prev + 1 + left
        · obtain ⟨k,rfl⟩ : ∃ k, q = prev + 2 + k := ⟨q - prev - 2,by omega⟩
          rw [if_pos later,if_pos (by omega),show prev + 2 + k - (prev + 1) - 1 = k by omega,
            show prev + 2 + k - prev - 1 = k + 1 by omega,Nat.succ_mul]
          congr 1
          omega
        · rw [if_neg later,if_neg (by omega)]

theorem pathRange {l : Links Nat} (a n : Nat) (next : ∀ q, a ≤ q → q < a + n → l.next q = q + 1)
    (prev : ∀ q, a < q → q ≤ a + n → l.prev q = q - 1) : Path l a (List.range' (a + 1) n) := by
  induction n generalizing a with
  | zero => trivial
  | succ n ih =>
    rw [List.range'_succ]
    refine ⟨next a (by omega) (by omega),?_,ih (a + 1) ?_ ?_⟩
    · rw [prev (a + 1) (by omega) (by omega)]; rfl
    · intro q above below
      exact next q (by omega) (by omega)
    · intro q above below
      exact prev q (by omega) (by omega)

theorem lastRange (a n : Nat) : lastOf a (List.range' (a + 1) n) = a + n := by
  induction n generalizing a with
  | zero => rfl
  | succ n ih =>
    rw [List.range'_succ,lastOf,ih]
    omega

/- The uint16_t fields hold what they should. -/
def Fits (sizeofCache cacheSize shift : Nat) : Prop :=
  shift ≤ 15 ∧ (cacheSize - sizeofCache) / (2^shift + sizeofCache) % 2^16 ≠ 0

section
variable {disk : Nat → UInt8} {sizeofCache shift : Nat} {dev : Device}

theorem keptInit (disk : Nat → UInt8) (room : 2^shift + 2*sizeofCache ≤ dev.cacheSize) (fits : Fits sizeofCache dev.cacheSize shift) :
    ∃ n lru, Kept disk shift n lru (opened sizeofCache dev shift) := by
  have small : 2^shift % 2^16 = 2^shift :=
    Nat.mod_eq_of_lt (Nat.pow_lt_pow_right (by omega) (by have := fits.1; omega))
  generalize count : (dev.cacheSize - sizeofCache) / (2^shift + sizeofCache) % 2^16 = n
  have some' : 0 < n := by
    have := fits.2
    omega
  refine ⟨n,List.range' (Cache.head + 1) n,?_⟩
  rw [opened,cacheInit]
  simp only [small,count]
  rw [if_neg (by omega),initEntriesEq]
  constructor
  case head => rfl
  case entries => rfl
  case size => rfl
  case data =>
    intro e entry
    have above := entry.1
    simp only [if_pos (show Cache.head < e ∧ e ≤ Cache.head + n from entry),place,Nat.zero_add]
    rfl
  case holds =>
    intro e entry used
    simp only [if_pos (show Cache.head < e ∧ e ≤ Cache.head + n from entry)] at used
    exact absurd rfl used
  case unique =>
    intro e f entry _ _ used
    simp only [if_pos (show Cache.head < e ∧ e ≤ Cache.head + n from entry)] at used
    exact absurd rfl used
  case ring =>
    refine ⟨pathAppend.2 ⟨pathRange Cache.head n ?_ ?_,?_⟩,?_⟩
    · intro q above below
      exact if_pos ⟨above,below⟩
    · intro q above below
      exact if_pos ⟨above,below⟩
    · rw [lastRange]
      refine ⟨?_,?_,trivial⟩
      · simp
      · simp
    · simp [List.nodup_range']
  case members =>
    intro e
    simp only [List.mem_range'_1,isEntry,List.not_mem_nil,not_false_eq_true,and_true]
    omega
  case sorted =>
    refine List.pairwise_of_forall ?_
    intro e f
    simp [lastUse]
  case unlocked =>
    simp
    omega
  case locked => simp

theorem initMem : (cacheInit sizeofCache dev shift).mem = dev.mem := by
  rw [cacheInit]
  simp only
  split
  · rfl
  · rw [initEntriesEq]

theorem initSizeZero (large : 16 ≤ shift) : (cacheInit sizeofCache dev shift).cacheBlockSize = 0 := by
  have zero : 2^shift % 2^16 = 0 := Nat.mod_eq_zero_of_dvd (Nat.pow_dvd_pow 2 large)
  rw [cacheInit]
  simp only [zero]
  split
  · rfl
  · rw [initEntriesEq]

theorem getReadsNothing (zero : dev.cacheBlockSize = 0) (block : Nat) : (getCache disk dev block).1.mem = dev.mem := by
  rw [getCacheEq]
  simp only [zero]
  split
  · rfl
  · unfold getoneblk
    split
    · exact storeNothing _ _
    · rfl

theorem largeBlocksFail (dev : Device) (large : 16 ≤ shift) :
    ¬ Serves (fun _ => 1) shift (opened sizeofCache { dev with mem := fun _ => 0 } shift) := by
  intro serves
  obtain ⟨p,_,same⟩ := serves.returns 0 (by decide)
  rw [opened,getReadsNothing (initSizeZero large),initMem] at same
  have first := List.map_inj_left.mp same 0 (List.mem_range.mpr (Nat.two_pow_pos shift))
  simp at first

theorem noEntriesFail (small : shift ≤ 15) (room : 2^shift + 2*sizeofCache ≤ dev.cacheSize)
    (none' : (dev.cacheSize - sizeofCache) / (2^shift + sizeofCache) % 2^16 = 0) :
    ¬ Serves disk shift (opened sizeofCache dev shift) := by
  intro serves
  have fits : 2^shift % 2^16 = 2^shift := Nat.mod_eq_of_lt (Nat.pow_lt_pow_right (by omega) (by omega))
  obtain ⟨p,data,_⟩ := serves.returns 0 (by decide)
  rw [getCacheEq,opened,cacheInit] at data
  simp only [fits,none'] at data
  rw [if_neg (by omega)] at data
  simp [initEntries,getCacheBlock,findBlock] at data

end

/- With room for at least one entry, cache_init sets up a cache that keeps its promises
over every run exactly when the fields of struct device hold its parameters. -/
theorem cacheServesDisk {sizeofCache cacheSize shift : Nat} (room : 2^shift + 2*sizeofCache ≤ cacheSize) :
    (∀ disk dev events s, dev.cacheSize = cacheSize →
      run (step disk) (opened sizeofCache dev shift) events = some s → Serves disk shift s) ↔
    Fits sizeofCache cacheSize shift := by
  constructor
  · intro serves
    by_contra unfit
    by_cases small : shift ≤ 15
    · have none' : (cacheSize - sizeofCache) / (2^shift + sizeofCache) % 2^16 = 0 := by
        by_contra some'
        exact unfit ⟨small,some'⟩
      let dev : Device := ⟨0,0,0,cacheSize,⟨id,id⟩,id,fun _ => none,fun _ => 0⟩
      exact noEntriesFail small room none' (serves (fun _ => 1) dev [] _ rfl rfl)
    · let dev : Device := ⟨0,0,0,cacheSize,⟨id,id⟩,id,fun _ => none,fun _ => 0⟩
      exact largeBlocksFail dev (by omega) (serves _ dev [] _ rfl rfl)
  · intro fits disk dev events s size ok
    subst size
    obtain ⟨n,lru,kept⟩ := keptInit disk room fits
    exact runServes kept ok

/- 512-byte blocks in 128 KiB, with descriptors of 20 bytes. -/
theorem cacheServesSectors : 2^9 + 2*20 ≤ 128*1024 ∧ ∀ disk dev events s, dev.cacheSize = 128*1024 →
    run (step disk) (opened 20 dev 9) events = some s → Serves disk 9 s :=
  ⟨by decide,(cacheServesDisk (by decide)).mpr ⟨by decide,by decide⟩⟩

/- Blocks of 64 KiB, one of which has room: a get_cache of block 0 of a disk of
ones returns the zeros that were in the cache. -/
theorem cacheForgetsLargeBlocks : ¬ ∀ (sizeofCache cacheSize shift : Nat) (disk : Nat → UInt8) (dev : Device)
    (events : List Event) (s : Session), 2^shift + 2*sizeofCache ≤ cacheSize → dev.cacheSize = cacheSize →
    run (step disk) (opened sizeofCache dev shift) events = some s → Serves disk shift s := by
  intro claim
  let dev : Device := ⟨0,0,0,128*1024,⟨id,id⟩,id,fun _ => none,fun _ => 0⟩
  exact largeBlocksFail dev (Nat.le_refl 16) (claim 20 (128*1024) 16 (fun _ => 1) dev [] _ (by decide) rfl rfl)

end Syslinux.Cache
