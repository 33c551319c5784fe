import Syslinux.CacheStays
import Syslinux.SuspReads

/-! The System Use entries of a record whose block lies in the cache, while the Continuation
Areas are read through the same cache: they are those of the image as long as the block stays. -/
namespace Syslinux.Susp
open Fat (le32)
open Cache (Session Stays getCache noBlock)

/- get_cache, with the bytes at its pointer as they are then. Blocks are of 2048 bytes. -/
def cacheReader (disk behind : Nat → UInt8) : Reader Session (Nat → UInt8) :=
  ⟨fun s lba => (s.get disk lba,fun i => (s.get disk lba).dev.mem ((getCache disk s.dev lba).2.getD 0 + i)),fun d i => d i,behind⟩

def diskBlock (disk : Nat → UInt8) (lba i : Nat) : UInt8 := if i < 2048 then disk (lba*2048 + i) else 0

def diskReader (disk : Nat → UInt8) : Reader Unit Nat := imageReader (diskBlock disk) (fun _ => 0)

/- There are n bytes left in what has been read: of the record's block, or of the blocks of a
Continuation Area. -/
def Held (limit : Nat) (it : Iter Nat) (n : Nat) : Prop :=
  it.readPos + n ≤ if it.inCe then 2048*it.ceData.length else limit

/- What is looked at of an entry has been read, and the blocks for it are from `others`. -/
structure Loaded (r : Reader Unit Nat) (dirRec : Nat → UInt8) (sig : UInt8 × UInt8) (limit : Nat) (others : Finset Nat)
    (it : Iter Nat) : Prop where
  whole : it.whole → Held limit it 4
  found : ∀ pos next, (suspRrIterate r dirRec () it).2 = .found pos next →
    Held limit pos (needed r dirRec sig pos) ∧ ∀ lba ∈ pos.ceData, lba ∈ others

structure Like (disk : Nat → UInt8) (it : Iter (Nat → UInt8)) (it₀ : Iter Nat) : Prop where
  inCe : it.inCe = it₀.inCe
  readPos : it.readPos = it₀.readPos
  readEnd : it.readEnd = it₀.readEnd
  nextLba : it.nextLba = it₀.nextLba
  nextOffset : it.nextOffset = it₀.nextOffset
  nextLength : it.nextLength = it₀.nextLength
  ceData : List.Forall₂ (fun d lba => ∀ i < 2048, d i = disk (lba*2048 + i)) it.ceData it₀.ceData

inductive LikeOutcome (disk : Nat → UInt8) : Outcome (Nat → UInt8) → Outcome Nat → Prop where
  | failed : LikeOutcome disk .failed .failed
  | over' : LikeOutcome disk .over' .over'
  | found {pos next pos₀ next₀} : Like disk pos pos₀ → Like disk next next₀ → LikeOutcome disk (.found pos next) (.found pos₀ next₀)

section
variable {disk behind dirRec dirRec₀ : Nat → UInt8} {limit : Nat} {it : Iter (Nat → UInt8)} {it₀ : Iter Nat}

theorem ceByteLike {ds : List (Nat → UInt8)} {lbas : List Nat}
    (like : List.Forall₂ (fun d lba => ∀ i < 2048, d i = disk (lba*2048 + i)) ds lbas) {pos : Nat}
    (inside : pos < 2048*lbas.length) : ceByte (cacheReader disk behind) ds pos = ceByte (diskReader disk) lbas pos := by
  have several : ∀ {ds : List (Nat → UInt8)} {lbas : List Nat} {k : Nat},
      List.Forall₂ (fun d lba => ∀ i < 2048, d i = disk (lba*2048 + i)) ds lbas → k < lbas.length →
      ∃ d lba, ds[k]? = some d ∧ lbas[k]? = some lba ∧ ∀ i < 2048, d i = disk (lba*2048 + i) := by
    intro ds lbas k like
    induction like generalizing k with
    | nil => intro none'; simp at none'
    | cons first _ ih =>
      intro less
      cases k with
      | zero => exact ⟨_,_,rfl,rfl,first⟩
      | succ k => exact ih (Nat.lt_of_succ_lt_succ less)
  have byte : ∀ {d : Nat → UInt8} {lba i : Nat}, (∀ i < 2048, d i = disk (lba*2048 + i)) → i < 2048 →
      (cacheReader disk behind).byte d i = (diskReader disk).byte lba i := by
    intro d lba i same less
    simp only [cacheReader,diskReader,imageReader,diskBlock,if_pos less]
    exact same i less
  have small := Nat.mod_lt pos (show 0 < 2048 by norm_num)
  obtain ⟨d,lba,atD,atLba,same⟩ := several like (show pos / 2048 < lbas.length by omega)
  cases like with
  | nil => simp at inside
  | cons first rest =>
    cases rest with
    | nil =>
      simp only [ceByte]
      exact byte first (by simpa using inside)
    | cons second rest =>
      simp only [ceByte,atD,atLba]
      exact byte same small

theorem byteLike (like : Like disk it it₀) (record : ∀ i < limit, dirRec i = dirRec₀ i) {n i : Nat} (held : Held limit it₀ n)
    (less : i < n) : it.byte (cacheReader disk behind) dirRec i = it₀.byte (diskReader disk) dirRec₀ i := by
  unfold Held at held
  unfold Iter.byte
  rw [like.inCe,like.readPos]
  cases ce : it₀.inCe with
  | true =>
    rw [ce] at held
    exact ceByteLike like.ceData (by simp at held; omega)
  | false =>
    rw [ce] at held
    exact record _ (by simp at held; omega)

theorem heldLess {n m : Nat} (held : Held limit it₀ n) (le : m ≤ n) : Held limit it₀ m := by
  unfold Held at held ⊢
  omega

theorem isCeLike (like : Like disk it it₀) (record : ∀ i < limit, dirRec i = dirRec₀ i) (held : Held limit it₀ 2) :
    it.isCe (cacheReader disk behind) dirRec = it₀.isCe (diskReader disk) dirRec₀ := by
  unfold Iter.isCe
  rw [byteLike like record held (show 0 < 2 by norm_num),byteLike like record held (show 1 < 2 by norm_num)]

theorem wholeLike (like : Like disk it it₀) : it.whole = it₀.whole := by
  unfold Iter.whole
  rw [like.readPos,like.readEnd]

theorem areaDoneLike (like : Like disk it it₀) (record : ∀ i < limit, dirRec i = dirRec₀ i)
    (held : it₀.whole → Held limit it₀ 4) :
    it.areaDone (cacheReader disk behind) dirRec = it₀.areaDone (diskReader disk) dirRec₀ := by
  unfold Iter.areaDone
  rw [wholeLike like]
  by_cases whole : it₀.whole
  · rw [byteLike like record (held whole) (show 0 < 4 by norm_num),byteLike like record (held whole) (show 1 < 4 by norm_num)]
  · simp [whole]

theorem le32Like (like : Like disk it it₀) (record : ∀ i < limit, dirRec i = dirRec₀ i) (held : Held limit it₀ 24) {i : Nat}
    (less : i + 3 < 24) : le32 (it.byte (cacheReader disk behind) dirRec) i = le32 (it₀.byte (diskReader disk) dirRec₀) i := by
  unfold le32 Fat.le16
  rw [byteLike like record held (show i < 24 by omega),byteLike like record held (show i + 1 < 24 by omega),
    byteLike like record held (show i + 2 < 24 by omega),byteLike like record held (show i + 2 + 1 < 24 by omega)]

theorem registerLike (like : Like disk it it₀) (record : ∀ i < limit, dirRec i = dirRec₀ i) (two : Held limit it₀ 2)
    (held : ¬(it₀.isCe (diskReader disk) dirRec₀ ∧ 0 < it₀.nextLength) →
      Held limit it₀ (max 3 (if it₀.isCe (diskReader disk) dirRec₀ then 24 else 0))) :
    LikeOutcome disk (registerEntry (cacheReader disk behind) dirRec it) (registerEntry (diskReader disk) dirRec₀ it₀) := by
  unfold registerEntry
  simp only
  rw [isCeLike like record two,like.nextLength,like.readPos]
  by_cases ce : it₀.isCe (diskReader disk) dirRec₀
  · rw [if_pos ce,if_pos ce]
    by_cases surplus : 0 < it₀.nextLength
    · rw [if_pos surplus,if_pos surplus]
      exact .failed
    · rw [if_neg surplus,if_neg surplus]
      have all := held fun both => surplus both.2
      rw [if_pos ce] at all
      have all : Held limit it₀ 24 := heldLess all (by omega)
      rw [byteLike like record all (show 2 < 24 by norm_num),le32Like like record all (show 4 + 3 < 24 by norm_num),
        le32Like like record all (show 12 + 3 < 24 by norm_num),le32Like like record all (show 20 + 3 < 24 by norm_num)]
      exact .found like ⟨like.inCe,rfl,like.readEnd,rfl,rfl,rfl,like.ceData⟩
  · rw [if_neg ce,if_neg ce]
    have all : Held limit it₀ 3 := heldLess (held fun both => ce both.1) (by omega)
    rw [byteLike like record all (show 2 < 3 by norm_num)]
    exact .found like ⟨like.inCe,rfl,like.readEnd,like.nextLba,like.nextOffset,rfl,like.ceData⟩

end

def Staying (disk : Nat → UInt8) (n : Nat) (others : Finset Nat) (block e : Nat) (s : Session) : Prop :=
  ∃ lru, Stays disk 11 n others block e lru s

section
variable {disk behind : Nat → UInt8} {n block e : Nat} {others : Finset Nat} {s : Session}

theorem blocksLike (behind : Nat → UInt8) (few : (others.erase block).card < n) {lba count : Nat} (stays : Staying disk n others block e s)
    (member : ∀ c ∈ List.range' lba count, c ∈ others) (real : lba + count ≤ noBlock) :
    Staying disk n others block e (getBlocks (cacheReader disk behind) s lba count).1 ∧
      List.Forall₂ (fun d b => ∀ i < 2048, d i = disk (b*2048 + i)) (getBlocks (cacheReader disk behind) s lba count).2
        (List.range' lba count) := by
  induction count generalizing s lba with
  | zero => exact ⟨stays,.nil⟩
  | succ count ih =>
    obtain ⟨lru,stays⟩ := stays
    rw [List.range'_succ] at member ⊢
    have got := Cache.staysGet stays few (member lba List.mem_cons_self) (show lba < noBlock by omega)
    obtain ⟨stays',rest⟩ := ih got (fun c mem => member c (List.mem_cons_of_mem _ mem)) (by omega)
    refine ⟨stays',.cons ?_ rest⟩
    intro i less
    simp only [Cache.getPointer stays.kept,Option.getD_some]
    exact Cache.byteOf (Cache.getHolds stays.kept (show lba < noBlock by omega)) less

variable {dirRec dirRec₀ : Nat → UInt8} {limit : Nat} {it : Iter (Nat → UInt8)} {it₀ : Iter Nat} {sig : UInt8 × UInt8}

theorem switchLike (behind : Nat → UInt8) (few : (others.erase block).card < n) (stays : Staying disk n others block e s) (like : Like disk it it₀)
    (small : it₀.nextLba < 2^32)
    (member : ∀ it₀', suspRrSwitchToCa (diskReader disk) () it₀ = some ((),it₀') → ∀ lba ∈ it₀'.ceData, lba ∈ others) :
    (suspRrSwitchToCa (cacheReader disk behind) s it = none ∧ suspRrSwitchToCa (diskReader disk) () it₀ = none) ∨
    ∃ s' it' it₀', suspRrSwitchToCa (cacheReader disk behind) s it = some (s',it') ∧
      suspRrSwitchToCa (diskReader disk) () it₀ = some ((),it₀') ∧ Staying disk n others block e s' ∧ Like disk it' it₀' := by
  have blocks : numBlocks it = numBlocks it₀ := by
    unfold numBlocks
    rw [like.nextOffset,like.nextLength]
  unfold suspRrSwitchToCa at member ⊢
  rw [blocks,like.nextLba,like.nextOffset,like.nextLength]
  by_cases many : 50 < numBlocks it₀
  · rw [if_pos many,if_pos many]
    exact Or.inl ⟨rfl,rfl⟩
  · simp only [if_neg many] at member ⊢
    generalize count : (if 1 < numBlocks it₀ then numBlocks it₀ else 1) = k at member ⊢
    have few' : k ≤ 50 := by split_ifs at count <;> omega
    have image : getBlocks (diskReader disk) () it₀.nextLba k = ((),List.range' it₀.nextLba k) := blocksImage it₀.nextLba k
    simp only [image] at member ⊢
    obtain ⟨stays',data⟩ := blocksLike behind few stays (member _ rfl)
      (show it₀.nextLba + k ≤ noBlock by simp only [noBlock]; omega)
    exact Or.inr ⟨_,_,_,rfl,rfl,stays',rfl,rfl,rfl,rfl,rfl,rfl,data⟩

theorem iterateLike (behind : Nat → UInt8) (few : (others.erase block).card < n) (stays : Staying disk n others block e s) (like : Like disk it it₀)
    (record : ∀ i < limit, dirRec i = dirRec₀ i) (small : it₀.nextLba < 2^32)
    (loaded : Loaded (diskReader disk) dirRec₀ sig limit others it₀) :
    Staying disk n others block e (suspRrIterate (cacheReader disk behind) dirRec s it).1 ∧
      LikeOutcome disk (suspRrIterate (cacheReader disk behind) dirRec s it).2
        (suspRrIterate (diskReader disk) dirRec₀ () it₀).2 := by
  have found := loaded.found
  unfold suspRrIterate nextEntry at found ⊢
  rw [wholeLike like,areaDoneLike like record loaded.whole,like.nextLength]
  have broken : (it₀.whole ∧ it.byte (cacheReader disk behind) dirRec 3 ≠ 1) ↔
      (it₀.whole ∧ it₀.byte (diskReader disk) dirRec₀ 3 ≠ 1) := by
    refine and_congr_right fun whole => ?_
    rw [byteLike like record (loaded.whole whole) (show 3 < 4 by norm_num)]
  simp only [broken]
  by_cases bad : it₀.whole ∧ it₀.byte (diskReader disk) dirRec₀ 3 ≠ 1
  · simp only [if_pos bad]
    exact ⟨stays,.failed⟩
  simp only [if_neg bad] at found ⊢
  by_cases done : it₀.areaDone (diskReader disk) dirRec₀
  · simp only [if_pos done] at found ⊢
    by_cases last : it₀.nextLength = 0
    · simp only [if_pos last]
      exact ⟨stays,.over'⟩
    simp only [if_neg last] at found ⊢
    -- behind a switch no address of another area is kept, so that the entry is found
    have member : ∀ it₀', suspRrSwitchToCa (diskReader disk) () it₀ = some ((),it₀') →
        Held limit it₀' (needed (diskReader disk) dirRec₀ sig it₀') ∧ ∀ lba ∈ it₀'.ceData, lba ∈ others := by
      intro it₀' switch
      rw [switch] at found
      have fresh := (switchedAt switch).2.2
      unfold registerEntry at found
      simp only [fresh,lt_irrefl,if_false] at found
      split_ifs at found
      · exact found _ _ rfl
      · exact found _ _ rfl
    rcases switchLike behind few stays like small (fun it₀' switch => (member it₀' switch).2) with
      ⟨cached,image⟩ | ⟨s',it',it₀',cached,image,stays',like'⟩
    · rw [cached,image]
      exact ⟨stays,.failed⟩
    · rw [cached,image]
      obtain ⟨held,_⟩ := member it₀' image
      unfold needed at held
      exact ⟨stays',registerLike like' record (heldLess held (by omega)) fun _ => heldLess held (by omega)⟩
  · simp only [if_neg done] at found ⊢
    have whole : it₀.whole := by
      by_contra short
      exact done (by simp [Iter.areaDone,short])
    refine ⟨stays,registerLike like record (heldLess (loaded.whole whole) (by norm_num)) fun free => ?_⟩
    have entry : ∃ next, registerEntry (diskReader disk) dirRec₀ it₀ = .found it₀ next := by
      unfold registerEntry
      simp only
      split_ifs with ce more
      · exact absurd ⟨ce,more⟩ free
      · exact ⟨_,rfl⟩
      · exact ⟨_,rfl⟩
    obtain ⟨next,entry⟩ := entry
    have held := (found it₀ next entry).1
    unfold needed at held
    exact heldLess held (by omega)

def LikeResult (disk : Nat → UInt8) (n : Nat) (others : Finset Nat) (block e : Nat) (res : Result Session (Nat → UInt8))
    (res₀ : Result Unit Nat) : Prop :=
  res.ret = res₀.ret ∧ res.data = res₀.data ∧ Staying disk n others block e res.state

variable {nm : Bool}

theorem payloadLike (like : Like disk it it₀) (record : ∀ i < limit, dirRec i = dirRec₀ i)
    (same : it.len (cacheReader disk behind) dirRec = it₀.len (diskReader disk) dirRec₀)
    (held : 4 < it₀.len (diskReader disk) dirRec₀ → Held limit it₀ (it₀.len (diskReader disk) dirRec₀)) :
    it.payload (cacheReader disk behind) dirRec nm = it₀.payload (diskReader disk) dirRec₀ nm := by
  unfold Iter.payload
  rw [same]
  refine List.map_congr_left fun i mem => ?_
  have inside := List.mem_range.mp mem
  have skip : 4 ≤ headSkip nm := by cases nm <;> simp [headSkip]
  exact byteLike like record (held (by omega)) (show headSkip nm + i < _ by omega)

theorem behindLike {a : Option (Result Session (Nat → UInt8))} {b : Option (Result Unit Nat)}
    (like : Option.Rel (LikeResult disk n others block e) a b) (reads : List (Iter (Nat → UInt8) × Nat)) (reads₀ : List (Iter Nat × Nat)) :
    Option.Rel (LikeResult disk n others block e) (a.map (·.behind reads)) (b.map (·.behind reads₀)) := by
  cases like with
  | none => exact .none
  | some same => exact .some same

/- The loop of susp_rr_get_entries, by induction on its turns: the walk over the image tells
what is looked at and which blocks are asked for. -/
theorem loopLike (few : (others.erase block).card < n) (record : ∀ i < limit, dirRec i = dirRec₀ i) (turns : Nat)
    {c : Collected} (stays : Staying disk n others block e s) (like : Like disk it it₀) (small : Small it₀)
    (loaded : ∀ k at', Walk.state (turn (diskReader disk) dirRec₀ sig nm) (it₀,c.count) k = some at' →
      Loaded (diskReader disk) dirRec₀ sig limit others at'.1) :
    Option.Rel (LikeResult disk n others block e) (entriesLoop (cacheReader disk behind) dirRec sig nm turns s it c)
      (entriesLoop (diskReader disk) dirRec₀ sig nm turns () it₀ c) := by
  induction turns generalizing s it it₀ c with
  | zero => exact .none
  | succ turns ih =>
    have first := loaded 0 (it₀,c.count) rfl
    obtain ⟨stays',outcome⟩ := iterateLike behind few stays like record small.nextLba first
    have step := turn.eq_def (diskReader disk) dirRec₀ sig nm (it₀,c.count)
    simp only [entriesLoop]
    have found := first.found
    have smallNext : ∀ pos next, (suspRrIterate (diskReader disk) dirRec₀ () it₀).2 = .found pos next → Small next := by
      intro pos next ok
      obtain ⟨here,register⟩ := iterateFound ok
      exact registerSmall (nextEntrySmall small here) register
    generalize suspRrIterate (cacheReader disk behind) dirRec s it = cached at stays' outcome
    generalize suspRrIterate (diskReader disk) dirRec₀ () it₀ = image at outcome step found smallNext
    obtain ⟨s',cached⟩ := cached
    obtain ⟨_,image⟩ := image
    simp only at stays' outcome step found smallNext
    cases outcome with
    | failed => exact .some ⟨rfl,rfl,stays'⟩
    | over' => exact .some ⟨rfl,rfl,stays'⟩
    | found pos next =>
      rename_i pos' next' pos₀ next₀
      obtain ⟨held,_⟩ := found pos₀ next₀ rfl
      have three : Held limit pos₀ 3 := heldLess held (Nat.le_max_left _ _)
      have wanted : pos'.matches' (cacheReader disk behind) dirRec sig = pos₀.matches' (diskReader disk) dirRec₀ sig := by
        unfold Iter.matches'
        rw [byteLike pos record three (show 0 < 3 by norm_num),byteLike pos record three (show 1 < 3 by norm_num)]
      have len : pos'.len (cacheReader disk behind) dirRec = pos₀.len (diskReader disk) dirRec₀ := by
        unfold Iter.len
        rw [byteLike pos record three (show 2 < 3 by norm_num)]
      simp only [wanted,len] at step ⊢
      by_cases other : ¬ pos₀.matches' (diskReader disk) dirRec₀ sig
      · simp only [if_pos other] at step ⊢
        refine behindLike (ih stays' next (smallNext _ _ rfl) fun k at' here => ?_) _ _
        exact loaded (k + 1) at' (by rw [Walk.stateNext step]; exact here)
      simp only [if_neg other] at step ⊢
      by_cases short : pos₀.len (diskReader disk) dirRec₀ < headSkip nm
      · simp only [if_pos short]
        exact .some ⟨rfl,rfl,stays'⟩
      simp only [if_neg short] at step ⊢
      by_cases large : 102400 < c.count + (pos₀.len (diskReader disk) dirRec₀ - headSkip nm)
      · simp only [if_pos large]
        exact .some ⟨rfl,rfl,stays'⟩
      simp only [if_neg large] at step ⊢
      have all : 4 < pos₀.len (diskReader disk) dirRec₀ → Held limit pos₀ (pos₀.len (diskReader disk) dirRec₀) := by
        intro long
        refine heldLess held ?_
        unfold needed
        rw [show (if pos₀.matches' (diskReader disk) dirRec₀ sig = true ∧ 4 < pos₀.len (diskReader disk) dirRec₀ then
          pos₀.len (diskReader disk) dirRec₀ else 0) = pos₀.len (diskReader disk) dirRec₀ from if_pos ⟨not_not.mp other,long⟩]
        omega
      have flags : nm → pos'.byte (cacheReader disk behind) dirRec 4 = pos₀.byte (diskReader disk) dirRec₀ 4 := by
        intro nm'
        rw [nm',headSkip,if_pos rfl] at short
        exact byteLike pos record (all (by omega)) (by omega)
      have add : c.add (cacheReader disk behind) dirRec nm pos' = c.add (diskReader disk) dirRec₀ nm pos₀ := by
        unfold Collected.add
        rw [payloadLike pos record len all]
        cases nm with
        | true => rw [flags rfl]
        | false => rfl
      have done : isDone (cacheReader disk behind) dirRec nm pos' = isDone (diskReader disk) dirRec₀ nm pos₀ := by
        unfold isDone
        cases nm with
        | true => rw [flags rfl]
        | false => rfl
      rw [add,done]
      by_cases last : isDone (diskReader disk) dirRec₀ nm pos₀
      · simp only [if_pos last]
        exact .some ⟨rfl,rfl,stays'⟩
      · simp only [if_neg last] at step ⊢
        refine behindLike (ih stays' next (smallNext _ _ rfl) fun k at' here => ?_) _ _
        exact loaded (k + 1) at' (by rw [Walk.stateNext step,← countAdd]; exact here)

end

section
variable {σ δ : Type} {r : Reader σ δ} {dirRec : Nat → UInt8} {sig : UInt8 × UInt8} {nm : Bool}

theorem loopMore {turns : Nat} {s : σ} {it : Iter δ} {c : Collected} {res : Result σ δ}
    (ok : entriesLoop r dirRec sig nm turns s it c = some res) : entriesLoop r dirRec sig nm (turns + 1) s it c = some res := by
  induction turns generalizing s it c res with
  | zero => cases ok
  | succ turns ih =>
    unfold entriesLoop at ok ⊢
    generalize suspRrIterate r dirRec s it = outcome at ok ⊢
    rcases outcome with ⟨s',_ | _ | ⟨pos,next⟩⟩
    · exact ok
    · exact ok
    · have later : ∀ {c' : Collected} {reads : List (Iter δ × Nat)},
          (entriesLoop r dirRec sig nm turns s' next c').map (·.behind reads) = some res →
          (entriesLoop r dirRec sig nm (turns + 1) s' next c').map (·.behind reads) = some res := by
        intro c' reads rest
        obtain ⟨tail,rest,same⟩ := Option.map_eq_some_iff.mp rest
        rw [ih rest,Option.map_some,same]
      simp only at ok ⊢
      by_cases other : ¬ pos.matches' r dirRec sig
      · rw [if_pos other] at ok ⊢
        exact later ok
      rw [if_neg other] at ok ⊢
      split_ifs at ok ⊢
      · exact ok
      · exact ok
      · exact ok
      · exact later ok

theorem nmMore {sbi : SbInfo} {turns : Nat} {s : σ} {res : σ × Int × Option (List UInt8)}
    (ok : suspRrGetNm r dirRec sbi turns s = some res) (more : Nat) : suspRrGetNm r dirRec sbi (turns + more) s = some res := by
  induction more with
  | zero => exact ok
  | succ more ih =>
    unfold suspRrGetNm suspRrGetEntries at ih ⊢
    by_cases off : sbi.doRr = 0
    · rwa [if_pos off] at ih ⊢
    rw [if_neg off] at ih ⊢
    cases new : (suspRrIterNew dirRec sbi.suspSkip : Option (Iter δ)) with
    | none => rwa [new] at ih
    | some it =>
      rw [new] at ih
      obtain ⟨res',rest,same⟩ := Option.map_eq_some_iff.mp ih
      simp only at rest ⊢
      rw [← Nat.add_assoc,loopMore rest,Option.map_some,same]

end

/- What susp_rr_get_nm looks at of a record has been read, within `limit` of the record, and the
blocks it asks for are from `others`. -/
def NmLoaded (disk dirRec : Nat → UInt8) (sbi : SbInfo) (limit : Nat) (others : Finset Nat) : Prop :=
  ∀ it, sbi.doRr ≠ 0 → suspRrIterNew dirRec sbi.suspSkip = some it →
    ∀ k at', Walk.state (turn (diskReader disk) dirRec (0x4e,0x4d) true) (it,0) k = some at' →
      Loaded (diskReader disk) dirRec (0x4e,0x4d) limit others at'.1

section
variable {disk behind dirRec dirRec₀ : Nat → UInt8} {n block e limit : Nat} {others : Finset Nat} {s : Session} {sbi : SbInfo}

/- susp_rr_get_nm over the cache. -/
theorem nmLike (few : (others.erase block).card < n) (record : ∀ i < limit, dirRec i = dirRec₀ i) (header : 33 ≤ limit)
    (length : (dirRec₀ 0).toNat ≤ limit) (loaded : NmLoaded disk dirRec₀ sbi limit others)
    (stays : Staying disk n others block e s) (turns : Nat) :
    Option.Rel (fun a b => a.2 = b.2 ∧ Staying disk n others block e a.1)
      (suspRrGetNm (cacheReader disk behind) dirRec sbi turns s) (suspRrGetNm (diskReader disk) dirRec₀ sbi turns ()) := by
  have result : Option.Rel (LikeResult disk n others block e)
      (suspRrGetEntries (cacheReader disk behind) dirRec (0x4e,0x4d) true sbi turns s)
      (suspRrGetEntries (diskReader disk) dirRec₀ (0x4e,0x4d) true sbi turns ()) := by
    unfold suspRrGetEntries
    by_cases off : sbi.doRr = 0
    · rw [if_pos off,if_pos off]
      exact .some ⟨rfl,rfl,stays⟩
    rw [if_neg off,if_neg off]
    have loaded := fun it => loaded it off
    unfold suspRrIterNew at loaded ⊢
    rw [record 32 (by omega),record 0 (by omega)]
    simp only at loaded ⊢
    generalize start : 33 + (dirRec₀ 32).toNat + (if (dirRec₀ 32).toNat % 2 = 0 then 1 else 0) + sbi.suspSkip = readPos at loaded ⊢
    by_cases short : (dirRec₀ 0).toNat < readPos + 4
    · rw [if_pos short,if_pos short]
      exact .some ⟨rfl,rfl,stays⟩
    rw [if_neg short,if_neg short,record (readPos + 3) (by omega)]
    simp only [if_neg short] at loaded
    by_cases version : dirRec₀ (readPos + 3) ≠ 1
    · rw [if_pos version,if_pos version]
      exact .some ⟨rfl,rfl,stays⟩
    rw [if_neg version,if_neg version]
    simp only [if_neg version] at loaded
    have new : Small ⟨false,[],readPos,(dirRec₀ 0).toNat,0,0,0,0,(dirRec₀ 0).toNat⟩ := by
      have byte := (dirRec₀ 0).toNat_lt
      exact ⟨by simp only; omega,by simp only; omega,by simp,by simp,by simp,by simp,by simp only; omega,0,0,by simp,by simp,rfl⟩
    exact loopLike few record turns stays ⟨rfl,rfl,rfl,rfl,rfl,rfl,.nil⟩ new (loaded _ rfl)
  unfold suspRrGetNm
  generalize suspRrGetEntries (cacheReader disk behind) dirRec (0x4e,0x4d) true sbi turns s = a at result ⊢
  generalize suspRrGetEntries (diskReader disk) dirRec₀ (0x4e,0x4d) true sbi turns () = b at result ⊢
  cases result with
  | none => exact .none
  | some same =>
    obtain ⟨ret,data,stays'⟩ := same
    refine .some ?_
    simp only [ret,data]
    split_ifs <;> exact ⟨rfl,stays'⟩

end
end Syslinux.Susp
