import Syslinux.Susp
import Syslinux.Walk

/-! When susp_rr_get_entries returns and keeps to its bounds: the walk of the iterator over
the entries of a record and of its Continuation Areas, on an image. -/
namespace Syslinux.Susp
open Fat (le32)

def imageReader (block : Nat → Nat → UInt8) (behind : Nat → UInt8) : Reader Unit Nat := ⟨fun s lba => (s,lba),block,behind⟩

/- A byte of the directory record, or of the area that a CE entry has announced, where that
has been read from the image. -/
def InArea (it : Iter Nat) (i : Nat) : Prop :=
  it.areaOffset ≤ it.readPos + i ∧ it.readPos + i < it.areaOffset + it.areaLength ∧
  (it.inCe → it.readPos + i < 2048*it.ceData.length)

def Room (it : Iter Nat) (n : Nat) : Prop :=
  it.readPos + n ≤ it.areaOffset + it.areaLength ∧ (it.inCe → it.readPos + n ≤ 2048*it.ceData.length)

section
variable (r : Reader Unit Nat) (dirRec : Nat → UInt8) (sig : UInt8 × UInt8) (nm : Bool)

def ReadsInside (sbi : SbInfo) : Prop :=
  ∃ turns res, suspRrGetEntries r dirRec sig nm sbi turns () = some res ∧ ∀ access ∈ res.reads, InArea access.1 access.2

/- The iterator and the number of bytes collected, from one turn of the loop to the next. -/
def turn (at' : Iter Nat × Nat) : Option (Iter Nat × Nat) :=
  match (suspRrIterate r dirRec () at'.1).2 with
  | .found pos next =>
      if ¬ pos.matches' r dirRec sig then some (next,at'.2)
      else if pos.len r dirRec < headSkip nm then none
      else if 102400 < at'.2 + (pos.len r dirRec - headSkip nm) then none
      else if isDone r dirRec nm pos then none
      else some (next,at'.2 + (pos.len r dirRec - headSkip nm))
  | _ => none

/- What has to be there of an entry: three bytes of any, the address of a CE entry, and all
of one that is wanted. -/
def needed (pos : Iter Nat) : Nat :=
  max 3 (max (if pos.isCe r dirRec then 24 else 0)
    (if pos.matches' r dirRec sig ∧ 4 < pos.len r dirRec then pos.len r dirRec else 0))

/- An entry that is taken for a whole one has its four bytes, and one that is found has all
that is needed of it. -/
structure Bounded (it : Iter Nat) : Prop where
  whole : it.whole → Room it 4
  found : ∀ pos next, (suspRrIterate r dirRec () it).2 = .found pos next → Room pos (needed r dirRec sig pos)

structure TurnsBounded (it : Iter Nat) : Prop where
  distinct : Walk.NoRepeat (turn r dirRec sig nm) (it,0)
  bounded : ∀ n at', Walk.state (turn r dirRec sig nm) (it,0) n = some at' → Bounded r dirRec sig at'.1

def turnReads (it : Iter Nat) : List (Iter Nat × Nat) :=
  iterateReads r dirRec () it ++
  match (suspRrIterate r dirRec () it).2 with
  | .found pos _ => (entryReads r dirRec sig nm pos).map (pos,·)
  | _ => []

end

section
variable {r : Reader Unit Nat} {dirRec : Nat → UInt8} {sig : UInt8 × UInt8} {nm : Bool}

theorem countAdd (c : Collected) (pos : Iter Nat) :
    (c.add r dirRec nm pos).count = c.count + (pos.len r dirRec - headSkip nm) := by
  simp [Collected.count,Collected.add,Iter.payload]

theorem loopTurn (it : Iter Nat) (c : Collected) :
    (∃ res, res.reads = turnReads r dirRec sig nm it ∧ turn r dirRec sig nm (it,c.count) = none ∧
      ∀ turns, entriesLoop r dirRec sig nm (turns + 1) () it c = some res) ∨
    ∃ next c', turn r dirRec sig nm (it,c.count) = some (next,c'.count) ∧
      ∀ turns, entriesLoop r dirRec sig nm (turns + 1) () it c =
        (entriesLoop r dirRec sig nm turns () next c').map (·.behind (turnReads r dirRec sig nm it)) := by
  simp only [entriesLoop]
  unfold turn turnReads
  generalize suspRrIterate r dirRec () it = outcome
  rcases outcome with ⟨_,_ | _ | ⟨pos,next⟩⟩
  · exact Or.inl ⟨_,by simp,rfl,fun _ => rfl⟩
  · exact Or.inl ⟨_,by simp,rfl,fun _ => rfl⟩
  · simp only
    by_cases other : ¬ pos.matches' r dirRec sig
    · simp only [if_pos other]
      exact Or.inr ⟨next,c,rfl,fun _ => rfl⟩
    simp only [if_neg other]
    by_cases short : pos.len r dirRec < headSkip nm
    · simp only [if_pos short]
      exact Or.inl ⟨_,rfl,trivial,fun _ => rfl⟩
    simp only [if_neg short]
    by_cases large : 102400 < c.count + (pos.len r dirRec - headSkip nm)
    · simp only [if_pos large]
      exact Or.inl ⟨_,rfl,trivial,fun _ => rfl⟩
    simp only [if_neg large]
    by_cases done : isDone r dirRec nm pos
    · simp only [if_pos done]
      exact Or.inl ⟨_,rfl,trivial,fun _ => rfl⟩
    simp only [if_neg done]
    exact Or.inr ⟨next,c.add r dirRec nm pos,by rw [countAdd],fun _ => rfl⟩

theorem loopReads {turns : Nat} {it : Iter Nat} {c : Collected} {res : Result Unit Nat}
    (ok : entriesLoop r dirRec sig nm turns () it c = some res) :
    Walk.Ends (turn r dirRec sig nm) (it,c.count) ∧ ∀ access, access ∈ res.reads ↔
      ∃ n at', Walk.state (turn r dirRec sig nm) (it,c.count) n = some at' ∧ access ∈ turnReads r dirRec sig nm at'.1 := by
  induction turns generalizing it c res with
  | zero => contradiction
  | succ turns ih =>
    rcases loopTurn it c with ⟨last,reads,stop,same⟩ | ⟨next,c',step,same⟩
    · rw [same] at ok
      cases ok
      refine ⟨Walk.endsStop stop,fun access => ?_⟩
      rw [reads]
      constructor
      · exact fun mem => ⟨0,_,rfl,mem⟩
      · rintro ⟨n,at',here,mem⟩
        cases n with
        | zero => cases here; exact mem
        | succ n =>
          have first : Walk.state (turn r dirRec sig nm) (it,c.count) 1 = none := by simp [Walk.state,stop]
          rw [Walk.noneLater first (Nat.le_add_left 1 n)] at here
          cases here
    · rw [same] at ok
      obtain ⟨tail,rest,rfl⟩ := Option.map_eq_some_iff.mp ok
      obtain ⟨ends,reads⟩ := ih rest
      refine ⟨(Walk.endsNext step).mpr ends,fun access => ?_⟩
      rw [show (tail.behind (turnReads r dirRec sig nm it)).reads = turnReads r dirRec sig nm it ++ tail.reads from rfl,
        List.mem_append,reads]
      constructor
      · rintro (mem | ⟨n,at',here,mem⟩)
        · exact ⟨0,_,rfl,mem⟩
        · exact ⟨n + 1,at',by rw [Walk.stateNext step]; exact here,mem⟩
      · rintro ⟨n,at',here,mem⟩
        cases n with
        | zero => cases here; exact Or.inl mem
        | succ n => exact Or.inr ⟨n,at',by rw [← Walk.stateNext step]; exact here,mem⟩

theorem loopReturns {it : Iter Nat} {c : Collected} (ends : Walk.Ends (turn r dirRec sig nm) (it,c.count)) :
    ∃ turns res, entriesLoop r dirRec sig nm turns () it c = some res := by
  obtain ⟨n,over'⟩ := ends
  induction n generalizing it c with
  | zero => contradiction
  | succ n ih =>
    rcases loopTurn it c with ⟨last,_,_,same⟩ | ⟨next,c',step,same⟩
    · exact ⟨1,last,same 0⟩
    · obtain ⟨turns,res,ok⟩ := ih (by rw [← Walk.stateNext step]; exact over')
      exact ⟨turns + 1,res.behind (turnReads r dirRec sig nm it),by rw [same,ok]; rfl⟩

theorem readsInsideWalk (sbi : SbInfo) : ReadsInside r dirRec sig nm sbi ↔
    ∀ it, sbi.doRr ≠ 0 → suspRrIterNew dirRec sbi.suspSkip = some it →
      Walk.Ends (turn r dirRec sig nm) (it,0) ∧ ∀ n at', Walk.state (turn r dirRec sig nm) (it,0) n = some at' →
        ∀ access ∈ turnReads r dirRec sig nm at'.1, InArea access.1 access.2 := by
  unfold ReadsInside suspRrGetEntries
  by_cases off : sbi.doRr = 0
  · simp only [if_pos off]
    exact iff_of_true ⟨0,_,rfl,by simp⟩ (fun it on => absurd off on)
  simp only [if_neg off]
  cases new : suspRrIterNew dirRec sbi.suspSkip with
  | none => exact iff_of_true ⟨0,_,rfl,by simp⟩ (fun it _ some' => by cases some')
  | some it =>
    constructor
    · rintro ⟨turns,res,ok,inside⟩ it' _ same
      cases same
      obtain ⟨ends,reads⟩ := loopReads ok
      exact ⟨ends,fun n at' here access mem => inside access ((reads access).mpr ⟨n,at',here,mem⟩)⟩
    · intro walk
      obtain ⟨ends,inside⟩ := walk it off rfl
      obtain ⟨turns,res,ok⟩ := loopReturns (c := ⟨none,none⟩) ends
      refine ⟨turns,res,ok,fun access mem => ?_⟩
      obtain ⟨n,at',here,mem'⟩ := ((loopReads ok).2 access).mp mem
      exact inside n at' here access mem'

theorem roomLess {it : Iter Nat} {n m : Nat} (room : Room it n) (le : m ≤ n) : Room it m :=
  ⟨Nat.le_trans (Nat.add_le_add_left le _) room.1,fun ce => Nat.le_trans (Nat.add_le_add_left le _) (room.2 ce)⟩

theorem roomMax {it : Iter Nat} {n m : Nat} : Room it (max n m) ↔ Room it n ∧ Room it m := by
  constructor
  · exact fun room => ⟨roomLess room (Nat.le_max_left n m),roomLess room (Nat.le_max_right n m)⟩
  · rintro ⟨first,second⟩
    rcases Nat.le_total n m with le | le
    · rwa [Nat.max_eq_right le]
    · rwa [Nat.max_eq_left le]

theorem roomInArea {it : Iter Nat} (from' : it.areaOffset ≤ it.readPos) {n i : Nat} (room : Room it n) (less : i < n) :
    InArea it i :=
  ⟨Nat.le_trans from' (Nat.le_add_right _ _),by have := room.1; omega,fun ce => by have := room.2 ce; omega⟩

theorem inAreaRoom {it : Iter Nat} {n : Nat} (inside : InArea it n) : Room it (n + 1) :=
  ⟨inside.2.1,inside.2.2⟩

theorem checkInside (r : Reader Unit Nat) (dirRec : Nat → UInt8) {it : Iter Nat} (from' : it.areaOffset ≤ it.readPos) :
    (∀ i ∈ checkReads r dirRec it, InArea it i) ↔ (it.whole → Room it 4) := by
  unfold checkReads
  by_cases whole : it.whole
  · rw [if_pos whole]
    constructor
    · exact fun inside _ => inAreaRoom (inside 3 (by simp))
    · intro room i mem
      have small : i < 4 := by
        rcases List.mem_cons.mp mem with rfl | mem
        · omega
        · split_ifs at mem <;> simp at mem <;> omega
      exact roomInArea from' (room whole) small
  · rw [if_neg whole]
    simp [whole]

theorem foundInside (nm : Bool) {pos : Iter Nat} (from' : pos.areaOffset ≤ pos.readPos)
    (register : ¬(pos.isCe r dirRec ∧ 0 < pos.nextLength)) :
    (∀ i ∈ registerReads r dirRec pos ++ entryReads r dirRec sig nm pos, InArea pos i) ↔ Room pos (needed r dirRec sig pos) := by
  constructor
  · intro inside
    rw [needed,roomMax,roomMax]
    refine ⟨?_,?_,?_⟩
    · refine inAreaRoom (inside 2 (List.mem_append_left _ ?_))
      unfold registerReads
      split_ifs <;> simp_all
    · split_ifs with ce
      · refine inAreaRoom (inside 23 (List.mem_append_left _ ?_))
        have idle : ¬ 0 < pos.nextLength := fun more => register ⟨ce,more⟩
        simp [registerReads,ce,idle,ceFields]
      · exact ⟨by have := (inside 0 (by simp [registerReads])).2.1; omega,
          fun ce => by have := (inside 0 (by simp [registerReads])).2.2 ce; omega⟩
    · split_ifs with wanted
      · obtain ⟨same,long⟩ := wanted
        have skip : headSkip nm ≤ pos.len r dirRec := by cases nm <;> simp [headSkip] <;> omega
        have last : pos.len r dirRec - 1 ∈ entryReads r dirRec sig nm pos := by
          unfold entryReads
          rw [if_pos same,if_neg (show ¬ pos.len r dirRec < headSkip nm by omega)]
          refine List.mem_append_right _ (List.mem_cons_of_mem _ ?_)
          by_cases more : headSkip nm < pos.len r dirRec
          · refine List.mem_append_right _ (List.mem_map.mpr ⟨pos.len r dirRec - headSkip nm - 1,?_,by omega⟩)
            exact List.mem_range.mpr (by omega)
          · cases nm with
            | true =>
              simp only [headSkip] at more skip
              refine List.mem_append_left _ (List.mem_singleton.mpr ?_)
              simp only [if_true] at more
              omega
            | false =>
              simp only [headSkip,Bool.false_eq_true,if_false] at more
              omega
        have room := inAreaRoom (inside _ (List.mem_append_right _ last))
        rwa [Nat.sub_add_cancel (by omega)] at room
      · exact ⟨by have := (inside 0 (by simp [registerReads])).2.1; omega,
          fun ce => by have := (inside 0 (by simp [registerReads])).2.2 ce; omega⟩
  · intro room i mem
    refine roomInArea from' room ?_
    unfold needed
    rcases List.mem_append.mp mem with mem | mem
    · unfold registerReads at mem
      by_cases ce : pos.isCe r dirRec
      · rw [if_pos ce] at mem ⊢
        have small : i < 24 := by
          rcases List.mem_append.mp mem with mem | mem
          · split_ifs at mem <;> simp at mem <;> omega
          · split_ifs at mem
            · simp at mem
            · simp [ceFields] at mem
              omega
        omega
      · rw [if_neg ce] at mem
        have small : i < 3 := by split_ifs at mem <;> simp at mem <;> omega
        omega
    · unfold entryReads at mem
      rcases List.mem_append.mp mem with mem | mem
      · have small : i < 3 := by split_ifs at mem <;> simp at mem <;> omega
        omega
      · by_cases same : pos.matches' r dirRec sig
        · rw [if_pos same] at mem
          rcases List.mem_cons.mp mem with rfl | mem
          · omega
          by_cases short : pos.len r dirRec < headSkip nm
          · rw [if_pos short] at mem
            simp at mem
          · rw [if_neg short] at mem
            have large : i < pos.len r dirRec ∧ 4 < pos.len r dirRec := by
              cases nm with
              | true =>
                simp only [headSkip,if_true] at mem short
                rcases List.mem_append.mp mem with mem | mem
                · obtain rfl := List.mem_singleton.mp mem
                  omega
                · obtain ⟨k,inside,rfl⟩ := List.mem_map.mp mem
                  have := List.mem_range.mp inside
                  omega
              | false =>
                simp only [headSkip,Bool.false_eq_true,if_false,List.nil_append] at mem short
                obtain ⟨k,inside,rfl⟩ := List.mem_map.mp mem
                have := List.mem_range.mp inside
                omega
            rw [show (if pos.matches' r dirRec sig = true ∧ 4 < pos.len r dirRec then pos.len r dirRec else 0) =
              pos.len r dirRec from if_pos ⟨same,large.2⟩]
            omega
        · rw [if_neg same] at mem
          simp at mem

theorem nextEntryFound {it it' : Iter Nat} (ok : (nextEntry r dirRec () it).2 = some (some it')) :
    it' = it ∧ it.whole ∨ suspRrSwitchToCa r () it = some ((),it') := by
  unfold nextEntry at ok
  by_cases broken : it.whole ∧ it.byte r dirRec 3 ≠ 1
  · rw [if_pos broken] at ok
    cases ok
  rw [if_neg broken] at ok
  by_cases done : it.areaDone r dirRec
  · rw [if_pos done] at ok
    by_cases last : it.nextLength = 0
    · rw [if_pos last] at ok
      cases ok
    rw [if_neg last] at ok
    cases switch : suspRrSwitchToCa r () it with
    | none => rw [switch] at ok; cases ok
    | some at' =>
      rw [switch] at ok
      cases ok
      exact Or.inr rfl
  · rw [if_neg done] at ok
    cases ok
    refine Or.inl ⟨rfl,?_⟩
    by_contra short
    exact done (by simp [Iter.areaDone,short])

theorem registerFound {it pos next : Iter Nat} (ok : registerEntry r dirRec it = .found pos next) :
    pos = it ∧ ¬(it.isCe r dirRec ∧ 0 < it.nextLength) ∧
    next = (if it.isCe r dirRec then { it with
        readPos := add32 it.readPos (it.byte r dirRec 2).toNat
        nextLba := le32 (it.byte r dirRec) 4
        nextOffset := le32 (it.byte r dirRec) 12
        nextLength := le32 (it.byte r dirRec) 20 }
      else { it with readPos := add32 it.readPos (it.byte r dirRec 2).toNat }) := by
  unfold registerEntry at ok
  simp only at ok
  split_ifs at ok with ce surplus
  · cases ok
    exact ⟨rfl,fun h => surplus h.2,by rw [if_pos ce]⟩
  · cases ok
    exact ⟨rfl,fun h => ce h.1,by rw [if_neg ce]⟩

theorem switchedAt {it it' : Iter Nat} (ok : suspRrSwitchToCa r () it = some ((),it')) :
    it'.readPos = it.nextOffset ∧ it'.areaOffset = it.nextOffset ∧ it'.nextLength = 0 := by
  unfold suspRrSwitchToCa at ok
  by_cases many : 50 < numBlocks it
  · rw [if_pos many] at ok
    cases ok
  rw [if_neg many] at ok
  cases ok
  exact ⟨rfl,rfl,rfl⟩

theorem iterateFound {it pos next : Iter Nat} (ok : (suspRrIterate r dirRec () it).2 = .found pos next) :
    (nextEntry r dirRec () it).2 = some (some pos) ∧ registerEntry r dirRec pos = .found pos next := by
  unfold suspRrIterate at ok
  generalize nextEntry r dirRec () it = outcome at ok ⊢
  rcases outcome with ⟨_,_ | _ | it'⟩
  · cases ok
  · cases ok
  · obtain ⟨rfl,_⟩ := registerFound ok
    exact ⟨rfl,ok⟩

theorem nextEntryFrom {it it' : Iter Nat} (from' : it.areaOffset ≤ it.readPos)
    (ok : (nextEntry r dirRec () it).2 = some (some it')) : it'.areaOffset ≤ it'.readPos := by
  rcases nextEntryFound ok with ⟨rfl,_⟩ | switch
  · exact from'
  · obtain ⟨pos,area,_⟩ := switchedAt switch
    rw [pos,area]

/- The second half of susp_rr_iterate, whether it finds an entry or a surplus CE entry. -/
theorem registerInside {it : Iter Nat} {access : Iter Nat × Nat} (from' : it.areaOffset ≤ it.readPos)
    (bounded : Bounded r dirRec sig it)
    (mem : access ∈ reachedReads r dirRec (nextEntry r dirRec () it).2) : InArea access.1 access.2 := by
  cases at' : (nextEntry r dirRec () it).2 with
  | none => rw [at'] at mem; cases mem
  | some found =>
    cases found with
    | none => rw [at'] at mem; cases mem
    | some it' =>
      have both : nextEntry r dirRec () it = ((),some (some it')) := Prod.ext rfl at'
      rw [at'] at mem
      obtain ⟨i,inside,rfl⟩ := List.mem_map.mp mem
      have start := nextEntryFrom from' at'
      by_cases surplus : it'.isCe r dirRec ∧ 0 < it'.nextLength
      · -- a surplus CE entry is not behind a switch
        rcases nextEntryFound at' with ⟨rfl,whole⟩ | switch
        · refine roomInArea from' (bounded.whole whole) ?_
          simp only [registerReads,surplus.1,surplus.2,if_true,List.append_nil] at inside
          split_ifs at inside <;> simp at inside <;> omega
        · exact absurd surplus.2 (by rw [(switchedAt switch).2.2]; omega)
      · have register : ∃ next, registerEntry r dirRec it' = .found it' next := by
          unfold registerEntry
          simp only
          split_ifs with ce more
          · exact absurd ⟨ce,more⟩ surplus
          · exact ⟨_,rfl⟩
          · exact ⟨_,rfl⟩
        obtain ⟨next,register⟩ := register
        have ok : (suspRrIterate r dirRec () it).2 = .found it' next := by
          rw [suspRrIterate,both]
          exact register
        exact (foundInside false start surplus).mpr (bounded.found it' next ok) i (List.mem_append_left _ inside)

theorem turnInside {it : Iter Nat} (from' : it.areaOffset ≤ it.readPos) :
    (∀ access ∈ turnReads r dirRec sig nm it, InArea access.1 access.2) ↔ Bounded r dirRec sig it := by
  constructor
  · intro inside
    refine ⟨(checkInside r dirRec from').mp fun i mem => ?_,fun pos next ok => ?_⟩
    · refine inside (it,i) (List.mem_append_left _ (List.mem_append_left _ (List.mem_map.mpr ⟨i,mem,rfl⟩)))
    · obtain ⟨here,register⟩ := iterateFound ok
      refine (foundInside nm (nextEntryFrom from' here) (registerFound register).2.1).mp fun i mem => inside (pos,i) ?_
      unfold turnReads iterateReads
      rw [ok,here]
      rcases List.mem_append.mp mem with mem | mem
      · exact List.mem_append_left _ (List.mem_append_right _ (List.mem_map.mpr ⟨i,mem,rfl⟩))
      · exact List.mem_append_right _ (List.mem_map.mpr ⟨i,mem,rfl⟩)
  · intro bounded access mem
    have check := (checkInside r dirRec from').mpr bounded.whole
    unfold turnReads iterateReads at mem
    rcases List.mem_append.mp mem with mem | mem
    · rcases List.mem_append.mp mem with mem | mem
      · obtain ⟨i,inside,rfl⟩ := List.mem_map.mp mem
        exact check i inside
      · exact registerInside from' bounded mem
    · cases ok : (suspRrIterate r dirRec () it).2 with
      | failed => rw [ok] at mem; simp at mem
      | over' => rw [ok] at mem; simp at mem
      | found pos next =>
        rw [ok] at mem
        obtain ⟨i,inside,rfl⟩ := List.mem_map.mp mem
        obtain ⟨here,register⟩ := iterateFound ok
        exact (foundInside nm (nextEntryFrom from' here) (registerFound register).2.1).mpr (bounded.found pos next ok) i
          (List.mem_append_right _ inside)

end

structure Sane (it : Iter Nat) : Prop where
  from' : it.areaOffset ≤ it.readPos
  loaded : it.inCe → it.ceData.length ≤ 50
  record : ¬ it.inCe → it.areaOffset + it.areaLength ≤ 255

/- The numbers of an iterator are of 32 bits. -/
structure Small (it : Iter Nat) : Prop where
  readPos : it.readPos < 2^32
  readEnd : it.readEnd < 2^32
  nextLba : it.nextLba < 2^32
  nextOffset : it.nextOffset < 2^32
  nextLength : it.nextLength < 2^32
  areaOffset : it.areaOffset < 2^32
  areaLength : it.areaLength < 2^32
  ceData : ∃ lba n, lba < 2^32 ∧ n < 2^32 ∧ it.ceData = List.range' lba n

section
variable {block : Nat → Nat → UInt8} {behind dirRec : Nat → UInt8} {sig : UInt8 × UInt8} {nm : Bool}

theorem blocksImage (lba n : Nat) : getBlocks (imageReader block behind) () lba n = ((),List.range' lba n) := by
  induction n generalizing lba with
  | zero => rfl
  | succ n ih =>
    rw [getBlocks]
    simp only [imageReader] at ih ⊢
    rw [ih (lba + 1)]
    rfl

theorem switchedImage {it it' : Iter Nat} (ok : suspRrSwitchToCa (imageReader block behind) () it = some ((),it')) :
    ∃ n, n ≤ 50 ∧ it' = ⟨true,List.range' it.nextLba n,it.nextOffset,add32 it.nextOffset it.nextLength,0,0,0,
      it.nextOffset,it.nextLength⟩ := by
  unfold suspRrSwitchToCa at ok
  by_cases many : 50 < numBlocks it
  · rw [if_pos many] at ok
    cases ok
  rw [if_neg many,blocksImage] at ok
  cases ok
  exact ⟨_,by split_ifs <;> omega,rfl⟩

theorem le32Small (f : Nat → UInt8) (i : Nat) : le32 f i < 2^32 := by
  have a := (f i).toNat_lt
  have b := (f (i + 1)).toNat_lt
  have c := (f (i + 2)).toNat_lt
  have d := (f (i + 2 + 1)).toNat_lt
  simp only [le32,Fat.le16]
  omega

theorem turnNext {r : Reader Unit Nat} {it next : Iter Nat} {count count' : Nat} (ok : turn r dirRec sig nm (it,count) = some (next,count')) :
    (count' ≤ 102400 ∨ count' = count) ∧ ∃ pos, (suspRrIterate r dirRec () it).2 = .found pos next := by
  unfold turn at ok
  cases found : (suspRrIterate r dirRec () it).2 with
  | failed => rw [found] at ok; cases ok
  | over' => rw [found] at ok; cases ok
  | found pos next' =>
    rw [found] at ok
    simp only at ok
    by_cases other : ¬ pos.matches' r dirRec sig
    · rw [if_pos other] at ok
      cases ok
      exact ⟨Or.inr rfl,pos,rfl⟩
    · rw [if_neg other] at ok
      split_ifs at ok with short large done
      cases ok
      exact ⟨Or.inl (by omega),pos,rfl⟩

theorem nextEntrySmall {it it' : Iter Nat} (small : Small it)
    (ok : (nextEntry (imageReader block behind) dirRec () it).2 = some (some it')) : Small it' := by
  rcases nextEntryFound ok with ⟨rfl,_⟩ | switch
  · exact small
  · obtain ⟨n,few,rfl⟩ := switchedImage switch
    exact ⟨small.nextOffset,Nat.mod_lt _ (by norm_num),by simp,by simp,by simp,small.nextOffset,small.nextLength,
      it.nextLba,n,small.nextLba,by omega,rfl⟩

theorem registerSmall {r : Reader Unit Nat} {it pos next : Iter Nat} (small : Small it) (ok : registerEntry r dirRec it = .found pos next) :
    Small next := by
  obtain ⟨_,_,rfl⟩ := registerFound ok
  split_ifs
  · exact ⟨Nat.mod_lt _ (by norm_num),small.readEnd,le32Small _ _,le32Small _ _,le32Small _ _,small.areaOffset,
      small.areaLength,small.ceData⟩
  · exact ⟨Nat.mod_lt _ (by norm_num),small.readEnd,small.nextLba,small.nextOffset,small.nextLength,small.areaOffset,
      small.areaLength,small.ceData⟩

theorem turnsFinite : {at' : Iter Nat × Nat | Small at'.1 ∧ at'.2 ≤ 102400}.Finite := by
  refine (Set.finite_range fun n : (Bool × Fin (2^32) × Fin (2^32)) × (Fin (2^32) × Fin (2^32) × Fin (2^32)) ×
    (Fin (2^32) × Fin (2^32) × Fin (2^32) × Fin (2^32)) × Fin 102401 =>
    ((⟨n.1.1,List.range' n.1.2.1 n.1.2.2,n.2.1.1,n.2.1.2.1,n.2.1.2.2,n.2.2.1.1,n.2.2.1.2.1,n.2.2.1.2.2.1,n.2.2.1.2.2.2⟩,
      n.2.2.2) : Iter Nat × Nat)).subset ?_
  rintro ⟨⟨ce,data,pos,end',lba,offset,length,from',all⟩,count⟩ ⟨small,few⟩
  obtain ⟨readPos,readEnd,nextLba,nextOffset,nextLength,areaOffset,areaLength,blk,n,lbaSmall,nSmall,rfl⟩ := small
  exact ⟨((ce,⟨blk,lbaSmall⟩,⟨n,nSmall⟩),(⟨pos,readPos⟩,⟨end',readEnd⟩,⟨lba,nextLba⟩),
    (⟨offset,nextOffset⟩,⟨length,nextLength⟩,⟨from',areaOffset⟩,⟨all,areaLength⟩),⟨count,by simp at few; omega⟩),rfl⟩

theorem turnSmall {at' next : Iter Nat × Nat} (small : Small at'.1 ∧ at'.2 ≤ 102400)
    (ok : turn (imageReader block behind) dirRec sig nm at' = some next) : Small next.1 ∧ next.2 ≤ 102400 := by
  obtain ⟨count,pos,found⟩ := turnNext ok
  obtain ⟨here,register⟩ := iterateFound found
  refine ⟨registerSmall (nextEntrySmall small.1 here) register,?_⟩
  rcases count with few | same
  · exact few
  · rw [same]
    exact small.2

theorem stateSmall {it : Iter Nat} (small : Small it) {n : Nat} {at' : Iter Nat × Nat}
    (here : Walk.state (turn (imageReader block behind) dirRec sig nm) (it,0) n = some at') :
    Small at'.1 ∧ at'.2 ≤ 102400 := by
  induction n generalizing at' with
  | zero =>
    cases here
    exact ⟨small,Nat.zero_le _⟩
  | succ n ih =>
    obtain ⟨before,there,step⟩ := Option.bind_eq_some_iff.mp here
    exact turnSmall (ih there) step

theorem walkEnds {it : Iter Nat} (small : Small it) :
    Walk.Ends (turn (imageReader block behind) dirRec sig nm) (it,0) ↔
    Walk.NoRepeat (turn (imageReader block behind) dirRec sig nm) (it,0) :=
  ⟨Walk.endsNoRepeat,Walk.noRepeatEnds turnsFinite fun _ _ here => stateSmall small here⟩

theorem roomLow {pos : Iter Nat} (sane : Sane pos) (room : Room pos 3) : pos.readPos + 3 ≤ 102400 := by
  by_cases ce : pos.inCe
  · have := room.2 ce
    have := sane.loaded ce
    omega
  · have := room.1
    have := sane.record ce
    omega

theorem nextEntrySane {it pos : Iter Nat} (sane : Sane it)
    (here : (nextEntry (imageReader block behind) dirRec () it).2 = some (some pos)) : Sane pos := by
  rcases nextEntryFound here with ⟨rfl,_⟩ | switch
  · exact sane
  · obtain ⟨n,few,rfl⟩ := switchedImage switch
    exact ⟨Nat.le_refl _,fun _ => by simpa using few,fun record => by simp at record⟩

theorem turnSane {at' next : Iter Nat × Nat} (sane : Sane at'.1)
    (bounded : Bounded (imageReader block behind) dirRec sig at'.1)
    (ok : turn (imageReader block behind) dirRec sig nm at' = some next) : Sane next.1 := by
  obtain ⟨_,pos,found⟩ := turnNext ok
  obtain ⟨here,register⟩ := iterateFound found
  have room : Room pos 3 := roomLess (bounded.found pos next.1 found) (Nat.le_max_left _ _)
  have posSane := nextEntrySane sane here
  have low := roomLow posSane room
  have byte := (pos.byte (imageReader block behind) dirRec 2).toNat_lt
  have moved : pos.areaOffset ≤ add32 pos.readPos (pos.byte (imageReader block behind) dirRec 2).toNat := by
    rw [add32Eq (by omega)]
    exact Nat.le_trans posSane.from' (Nat.le_add_right _ _)
  obtain ⟨_,_,same⟩ := registerFound register
  rw [same]
  split_ifs
  · exact ⟨moved,posSane.loaded,posSane.record⟩
  · exact ⟨moved,posSane.loaded,posSane.record⟩

theorem stateSane {it : Iter Nat} (sane : Sane it) {n : Nat} {at' : Iter Nat × Nat}
    (bounded : ∀ m before, m < n → Walk.state (turn (imageReader block behind) dirRec sig nm) (it,0) m = some before →
      Bounded (imageReader block behind) dirRec sig before.1)
    (here : Walk.state (turn (imageReader block behind) dirRec sig nm) (it,0) n = some at') : Sane at'.1 := by
  induction n generalizing at' with
  | zero =>
    cases here
    exact sane
  | succ n ih =>
    obtain ⟨before,there,step⟩ := Option.bind_eq_some_iff.mp here
    exact turnSane (ih (fun m b less => bounded m b (by omega)) there) (bounded n before (by omega) there) step

theorem newIter {suspSkip : Nat} {it : Iter Nat} (new : suspRrIterNew dirRec suspSkip = some it) : Small it ∧ Sane it := by
  have byte := (dirRec 0).toNat_lt
  unfold suspRrIterNew at new
  simp only at new
  split_ifs at new <;> cases new <;>
  exact ⟨⟨by simp only; omega,by simp only; omega,by simp,by simp,by simp,by simp,by simp only; omega,0,0,by simp,by simp,rfl⟩,
    ⟨Nat.zero_le _,by simp,fun _ => by simp only; omega⟩⟩

theorem readsInsideTurns (block : Nat → Nat → UInt8) (behind dirRec : Nat → UInt8) (sig : UInt8 × UInt8) (nm : Bool)
    (sbi : SbInfo) : ReadsInside (imageReader block behind) dirRec sig nm sbi ↔
      ∀ it, sbi.doRr ≠ 0 → suspRrIterNew dirRec sbi.suspSkip = some it →
        TurnsBounded (imageReader block behind) dirRec sig nm it := by
  rw [readsInsideWalk]
  refine forall_congr' fun it => imp_congr_right fun _ => imp_congr_right fun new => ?_
  obtain ⟨small,sane⟩ := newIter new
  rw [walkEnds small]
  constructor
  · rintro ⟨distinct,inside⟩
    refine ⟨distinct,fun n => ?_⟩
    induction n using Nat.strong_induction_on with
    | _ n ih =>
      intro at' here
      exact (turnInside (stateSane sane (fun m before less there => ih m less before there) here).from').mp (inside n at' here)
  · rintro ⟨distinct,bounded⟩
    refine ⟨distinct,fun n at' here => ?_⟩
    exact (turnInside (stateSane sane (fun m before _ there => bounded m before there) here).from').mpr (bounded n at' here)

end
end Syslinux.Susp
