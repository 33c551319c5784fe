import Syslinux.CacheServes

/-! How long the data that get_cache has returned stay: the entry keeps its block until as
many other blocks have been read as there are entries. -/
namespace Syslinux.Cache
open Chain Runs

section
variable {used : List Nat} {e f : Nat}

theorem lastUseInj (used' : 0 < lastUse used e) (same : lastUse used e = lastUse used f) : e = f := by
  unfold lastUse at used' same
  have mem : e ∈ used.reverse := List.idxOf_lt_length_iff.mp (by rw [List.length_reverse]; omega)
  have bound := List.idxOf_le_length (a := f) (l := used.reverse)
  rw [List.length_reverse] at bound
  exact (List.idxOf_inj mem).mp (by omega)

end

/- An entry holds a block, and what has been read after it was used last is from `others`. -/
structure Stays (disk : Nat → UInt8) (shift n : Nat) (others : Finset Nat) (block e : Nat) (lru : List Nat)
    (s : Session) : Prop where
  kept : Kept disk shift n lru s
  free : s.locked = []
  entry : isEntry n e
  real : block < noBlock
  here : s.dev.block e = block
  used : 0 < lastUse s.used e
  later : ∀ f, isEntry n f → lastUse s.used e < lastUse s.used f → s.dev.block f ∈ others ∧ s.dev.block f ≠ noBlock

section
variable {disk : Nat → UInt8} {shift n block e : Nat} {others : Finset Nat} {lru : List Nat} {s : Session}

theorem entriesCard (n : Nat) : ((List.range' (head + 1) n).toFinset).card = n := by
  rw [List.toFinset_card_of_nodup List.nodup_range',List.length_range']

theorem memEntries {n f : Nat} : f ∈ (List.range' (head + 1) n).toFinset ↔ isEntry n f := by
  simp only [List.mem_toFinset,List.mem_range'_1,isEntry]
  omega

/- An entry with fewer other blocks behind it is not the one that is given up. -/
theorem staysBehind (h : Stays disk shift n others block e lru s) (few : (others.erase block).card < n) {c : Nat}
    (member : c ∈ others) (other : c ≠ block) : (getCacheBlock s.dev c).2 ≠ e := by
  intro victim
  rcases chosen h.kept c with ⟨_,hit⟩ | ⟨missing,rest,eq⟩
  · rw [victim,h.here] at hit
    exact other hit.symm
  · rw [victim] at eq
    have behind : ∀ f, isEntry n f → f ≠ e → s.dev.block f ∈ others ∧ s.dev.block f ≠ noBlock := by
      intro f entry distinct
      have mem : f ∈ lru := (h.kept.members f).mpr ⟨entry,by simp [h.free]⟩
      rw [eq] at mem
      have sorted := h.kept.sorted
      rw [eq] at sorted
      have le := List.rel_of_pairwise_cons sorted ((List.mem_cons.mp mem).resolve_left distinct)
      exact h.later f entry (Nat.lt_of_le_of_ne le fun same => distinct (lastUseInj h.used same).symm)
    -- the blocks of the other entries, and the one asked for
    have inside : insert c ((((List.range' (head + 1) n).toFinset).erase e).image s.dev.block) ⊆ others.erase block := by
      intro b mem
      rcases Finset.mem_insert.mp mem with rfl | mem
      · exact Finset.mem_erase.mpr ⟨other,member⟩
      · obtain ⟨f,fm,rfl⟩ := Finset.mem_image.mp mem
        obtain ⟨distinct,entry⟩ := Finset.mem_erase.mp fm
        have entry := memEntries.1 entry
        obtain ⟨from',real⟩ := behind f entry distinct
        refine Finset.mem_erase.mpr ⟨fun same => distinct ?_,from'⟩
        exact h.kept.unique f e entry h.entry (by rw [same,h.here]) real
    have fresh : c ∉ (((List.range' (head + 1) n).toFinset).erase e).image s.dev.block := by
      intro mem
      obtain ⟨f,mem,same⟩ := Finset.mem_image.mp mem
      exact missing f (memEntries.1 (Finset.mem_of_mem_erase mem)) same
    have inj : Set.InjOn s.dev.block ↑(((List.range' (head + 1) n).toFinset).erase e) := by
      intro f fm g gm same
      obtain ⟨fe,fm⟩ := Finset.mem_erase.mp (Finset.mem_coe.mp fm)
      have gm := Finset.mem_of_mem_erase (Finset.mem_coe.mp gm)
      exact h.kept.unique f g (memEntries.1 fm) (memEntries.1 gm) same (behind f (memEntries.1 fm) fe).2
    have card := Finset.card_le_card inside
    rw [Finset.card_insert_of_notMem fresh,Finset.card_image_of_injOn inj,
      Finset.card_erase_of_mem (memEntries.2 h.entry),entriesCard] at card
    have positive : 0 < n := by
      have := h.entry
      unfold isEntry at this
      omega
    omega

/- get_cache in a session. -/
def Session.get (disk : Nat → UInt8) (s : Session) (block : Nat) : Session :=
  { s with dev := (getCache disk s.dev block).1, used := s.used ++ [(getCacheBlock s.dev block).2] }

theorem getBlock (s : Session) (c : Nat) :
    (s.get disk c).dev.block = Function.update s.dev.block (getCacheBlock s.dev c).2 c := by
  simp only [Session.get]
  rw [getCacheEq]

theorem getPointer (h : Kept disk shift n lru s) (c : Nat) :
    (getCache disk s.dev c).2 = some (place shift (getCacheBlock s.dev c).2) := by
  rw [getCacheEq]
  exact h.data _ (chosenEntry h c)

theorem byteOf {mem mem' : Nat → UInt8} {a b k : Nat} (same : read mem a k = read mem' b k) {i : Nat} (inside : i < k) :
    mem (a + i) = mem' (b + i) := List.map_inj_left.mp same i (List.mem_range.mpr inside)

theorem staysGot (h : Kept disk shift n lru s) (free : s.locked = []) (real : block < noBlock) (others : Finset Nat) :
    ∃ lru', Stays disk shift n others block (getCacheBlock s.dev block).2 lru' (s.get disk block) := by
  obtain ⟨lru',kept⟩ := keptGet h real
  refine ⟨lru',kept,free,chosenEntry h block,real,?_,?_,?_⟩
  · rw [getBlock,Function.update_self]
  · simp [Session.get,lastUseNew]
  · intro f _ after
    simp only [Session.get] at after
    rw [lastUseNew] at after
    have bound : lastUse (s.used ++ [(getCacheBlock s.dev block).2]) f ≤ (s.used ++ [(getCacheBlock s.dev block).2]).length := lastUseLe
    rw [List.length_append,List.length_singleton] at bound
    omega

theorem staysGet (h : Stays disk shift n others block e lru s) (few : (others.erase block).card < n) {c : Nat}
    (member : c ∈ others) (real : c < noBlock) : ∃ lru', Stays disk shift n others block e lru' (s.get disk c) := by
  by_cases same : c = block
  · subst same
    have hit : (getCacheBlock s.dev c).2 = e := by
      by_contra other
      exact getSole h.kept real h.entry (Ne.symm other) h.here
    obtain ⟨lru',stays⟩ := staysGot h.kept h.free real others
    rw [hit] at stays
    exact ⟨lru',stays⟩
  · have victim := staysBehind h few member same
    obtain ⟨lru',kept⟩ := keptGet h.kept real
    refine ⟨lru',kept,h.free,h.entry,h.real,?_,?_,?_⟩
    · rw [getBlock,Function.update_of_ne victim.symm,h.here]
    · simp only [Session.get]
      rw [lastUseOther victim.symm]
      exact h.used
    · intro f entry after
      rw [getBlock]
      by_cases new : f = (getCacheBlock s.dev c).2
      · rw [new,Function.update_self]
        exact ⟨member,by omega⟩
      · rw [Function.update_of_ne new]
        simp only [Session.get] at after
        rw [lastUseOther victim.symm,lastUseOther new] at after
        exact h.later f entry after

theorem staysByte (h : Stays disk shift n others block e lru s) {i : Nat} (inside : i < 2^shift) :
    s.dev.mem (place shift e + i) = disk (block*2^shift + i) := by
  have holds := h.kept.holds e h.entry (by rw [h.here]; have := h.real; omega)
  rw [h.here] at holds
  exact byteOf holds inside

end
end Syslinux.Cache
