import Syslinux.SuspReads

/-! Where the walk over the System Use entries of a record ends and keeps to its bounds: the
entries that lie one behind the other in the record and in the Continuation Areas announced. -/
namespace Syslinux.Susp
open Fat (le32)
open Relation (ReflTransGen TransGen)

section
variable (r : Reader Unit Nat) (dirRec : Nat → UInt8) (sig : UInt8 × UInt8) (nm : Bool)

/- A whole entry of version 1, but for the one that ends an area. -/
def Iter.goesOn (it : Iter Nat) : Bool :=
  it.whole ∧ it.byte r dirRec 3 = 1 ∧ ¬(it.byte r dirRec 0 = letterS ∧ it.byte r dirRec 1 = letterT)

def Iter.areaEnds (it : Iter Nat) : Bool :=
  ¬ it.whole ∨ it.byte r dirRec 3 = 1 ∧ it.byte r dirRec 0 = letterS ∧ it.byte r dirRec 1 = letterT

def announced (it : Iter Nat) : Iter Nat :=
  ⟨true,List.range' it.nextLba (if 1 < numBlocks it then numBlocks it else 1),it.nextOffset,
    add32 it.nextOffset it.nextLength,0,0,0,it.nextOffset,it.nextLength⟩

def entryAt (it : Iter Nat) : Option (Iter Nat) :=
  if it.goesOn r dirRec then some it
  else if it.areaEnds r dirRec ∧ it.nextLength ≠ 0 ∧ numBlocks it ≤ 50 then some (announced it)
  else none

/- The place behind an entry, a length further; a CE entry announces an area. -/
def past (e : Iter Nat) : Iter Nat :=
  if e.isCe r dirRec then { e with
    readPos := add32 e.readPos (e.len r dirRec)
    nextLba := le32 (e.byte r dirRec) 4
    nextOffset := le32 (e.byte r dirRec) 12
    nextLength := le32 (e.byte r dirRec) 20 }
  else { e with readPos := add32 e.readPos (e.len r dirRec) }

/- A CE entry behind another one of the same area. -/
def Iter.surplus (e : Iter Nat) : Prop := e.isCe r dirRec ∧ 0 < e.nextLength

/- How many bytes have been collected behind an entry, unless it is the last one to be collected. -/
def collected (e : Iter Nat) (count : Nat) : Option Nat :=
  if ¬ e.matches' r dirRec sig then some count
  else if e.len r dirRec < headSkip nm then none
  else if 102400 < count + (e.len r dirRec - headSkip nm) then none
  else if isDone r dirRec nm e then none
  else some (count + (e.len r dirRec - headSkip nm))

/- From an entry to the next one, each with the number of bytes collected before it. -/
def Onward (p q : Iter Nat × Nat) : Prop :=
  ¬ p.1.surplus r dirRec ∧ collected r dirRec sig nm p.1 p.2 = some q.2 ∧ entryAt r dirRec (past r dirRec p.1) = some q.1

def Reached (it : Iter Nat) (p : Iter Nat × Nat) : Prop :=
  ∃ e, entryAt r dirRec it = some e ∧ ReflTransGen (Onward r dirRec sig nm) (e,0) p

def Stays (e : Iter Nat) : Prop :=
  e.goesOn r dirRec ∧ e.len r dirRec = 0 ∧ ¬ e.matches' r dirRec sig ∧
    (e.isCe r dirRec → e.nextLength = 0 ∧ le32 (e.byte r dirRec) 20 = 0)

def BeginsArea (e : Iter Nat) : Prop := e.inCe ∧ e.readPos = e.areaOffset ∧ e.nextLength = 0

/- The walk from the first place of a record: no entry is without a length, no Continuation Area leads
back to itself with nothing collected meanwhile, and what is needed of the entries lies in their area. -/
structure ChainBounded (it : Iter Nat) : Prop where
  lengths : ∀ p, Reached r dirRec sig nm it p → ¬ Stays r dirRec sig p.1
  areas : ∀ p, Reached r dirRec sig nm it p → BeginsArea p.1 → ¬ TransGen (Onward r dirRec sig nm) p p
  entries : ∀ p, Reached r dirRec sig nm it p → ¬ p.1.surplus r dirRec → Room p.1 (needed r dirRec sig p.1)
  heads : ∀ p, Reached r dirRec sig nm it p → ¬ p.1.surplus r dirRec → collected r dirRec sig nm p.1 p.2 ≠ none →
    (past r dirRec p.1).whole → Room (past r dirRec p.1) 4

def ChainsBounded (sbi : SbInfo) : Prop :=
  ∀ it, sbi.doRr ≠ 0 → suspRrIterNew dirRec sbi.suspSkip = some it → ChainBounded r dirRec sig nm it

end

section
variable {r : Reader Unit Nat} {dirRec : Nat → UInt8} {sig : UInt8 × UInt8} {nm : Bool} {it e next : Iter Nat}
  {count : Nat}

theorem pastPlace (r : Reader Unit Nat) (dirRec : Nat → UInt8) (e : Iter Nat) :
    (past r dirRec e).readPos = add32 e.readPos (e.len r dirRec) ∧ (past r dirRec e).inCe = e.inCe ∧
    (past r dirRec e).ceData = e.ceData ∧ (past r dirRec e).readEnd = e.readEnd := by
  unfold past
  split_ifs <;> exact ⟨rfl,rfl,rfl,rfl⟩

theorem registerPast (surplus : ¬ e.surplus r dirRec) : registerEntry r dirRec e = .found e (past r dirRec e) := by
  unfold registerEntry past
  simp only
  by_cases ce : e.isCe r dirRec
  · rw [if_pos ce,if_pos ce,if_neg fun more => surplus ⟨ce,more⟩]
    rfl
  · rw [if_neg ce,if_neg ce]
    rfl

end

section
variable {block : Nat → Nat → UInt8} {behind dirRec : Nat → UInt8} {sig : UInt8 × UInt8} {nm : Bool} {it e : Iter Nat}
  {at' : Iter Nat × Nat}

/- The entries are those that susp_rr_iterate comes to. -/
theorem nextEntryAt : (nextEntry (imageReader block behind) dirRec () it).2 = some (some e) ↔
    entryAt (imageReader block behind) dirRec it = some e := by
  unfold nextEntry entryAt
  by_cases broken : it.whole ∧ it.byte (imageReader block behind) dirRec 3 ≠ 1
  · have stops : ¬ it.goesOn (imageReader block behind) dirRec := by simp [Iter.goesOn,broken.2]
    have lasts : ¬ it.areaEnds (imageReader block behind) dirRec := by simp [Iter.areaEnds,broken.1,broken.2]
    rw [if_pos broken,if_neg stops,if_neg fun h => lasts h.1]
    simp
  rw [if_neg broken]
  by_cases done : it.areaDone (imageReader block behind) dirRec
  · have ends : it.areaEnds (imageReader block behind) dirRec := by
      simp only [Iter.areaDone,Iter.areaEnds,decide_eq_true_eq] at done ⊢
      grind
    have stops : ¬ it.goesOn (imageReader block behind) dirRec := by
      simp only [Iter.areaDone,Iter.goesOn,decide_eq_true_eq] at done ⊢
      grind
    rw [if_pos done,if_neg stops]
    by_cases last : it.nextLength = 0
    · simp [last]
    rw [if_neg last]
    unfold suspRrSwitchToCa
    by_cases many : 50 < numBlocks it
    · rw [if_pos many,if_neg (by omega)]
      simp
    · have fits : it.areaEnds (imageReader block behind) dirRec ∧ it.nextLength ≠ 0 ∧ numBlocks it ≤ 50 :=
        ⟨ends,last,by omega⟩
      rw [if_neg many,if_pos fits,blocksImage]
      simp [announced]
  · have goes : it.goesOn (imageReader block behind) dirRec := by
      simp only [Iter.areaDone,Iter.goesOn,decide_eq_true_eq] at done ⊢
      grind
    rw [if_neg done,if_pos goes]
    simp

theorem iteratePast {next : Iter Nat} : (suspRrIterate (imageReader block behind) dirRec () it).2 = .found e next ↔
    entryAt (imageReader block behind) dirRec it = some e ∧ ¬ e.surplus (imageReader block behind) dirRec ∧
      next = past (imageReader block behind) dirRec e := by
  constructor
  · intro found
    obtain ⟨here,register⟩ := iterateFound found
    have surplus := (registerFound register).2.1
    rw [registerPast surplus] at register
    cases register
    exact ⟨nextEntryAt.1 here,surplus,rfl⟩
  · rintro ⟨here,surplus,rfl⟩
    have both : nextEntry (imageReader block behind) dirRec () it = ((),some (some e)) := Prod.ext rfl (nextEntryAt.2 here)
    rw [suspRrIterate,both]
    exact registerPast surplus

theorem turnPast {next : Iter Nat × Nat} : turn (imageReader block behind) dirRec sig nm at' = some next ↔
    ∃ e, entryAt (imageReader block behind) dirRec at'.1 = some e ∧ ¬ e.surplus (imageReader block behind) dirRec ∧
      collected (imageReader block behind) dirRec sig nm e at'.2 = some next.2 ∧
      next.1 = past (imageReader block behind) dirRec e := by
  obtain ⟨place,count⟩ := next
  unfold turn
  constructor
  · intro ok
    cases found : (suspRrIterate (imageReader block behind) dirRec () at'.1).2 with
    | failed => rw [found] at ok; cases ok
    | over' => rw [found] at ok; cases ok
    | found e behind' =>
      rw [found] at ok
      obtain ⟨here,surplus,rfl⟩ := iteratePast.1 found
      refine ⟨e,here,surplus,?_⟩
      unfold collected
      simp only at ok
      split_ifs at ok ⊢ <;> cases ok <;> exact ⟨rfl,rfl⟩
  · rintro ⟨e,here,surplus,more,rfl⟩
    rw [iteratePast.2 ⟨here,surplus,rfl⟩]
    unfold collected at more
    simp only
    split_ifs at more ⊢ <;> cases more <;> rfl

theorem boundedAt : Bounded (imageReader block behind) dirRec sig it ↔ (it.whole → Room it 4) ∧
    ∀ e, entryAt (imageReader block behind) dirRec it = some e → ¬ e.surplus (imageReader block behind) dirRec →
      Room e (needed (imageReader block behind) dirRec sig e) :=
  ⟨fun bounded => ⟨bounded.whole,fun e here surplus => bounded.found e _ (iteratePast.2 ⟨here,surplus,rfl⟩)⟩,
    fun ⟨whole,entries⟩ => ⟨whole,fun e _ found => entries e (iteratePast.1 found).1 (iteratePast.1 found).2.1⟩⟩

theorem reachedState {p : Iter Nat × Nat} : Reached (imageReader block behind) dirRec sig nm it p ↔
    ∃ n at', Walk.state (turn (imageReader block behind) dirRec sig nm) (it,0) n = some at' ∧
      entryAt (imageReader block behind) dirRec at'.1 = some p.1 ∧ at'.2 = p.2 := by
  constructor
  · rintro ⟨e,here,path⟩
    induction path with
    | refl => exact ⟨0,(it,0),rfl,here,rfl⟩
    | @tail p q _ step ih =>
      obtain ⟨n,at',state,entry,count⟩ := ih
      obtain ⟨surplus,more,entry'⟩ := step
      refine ⟨n + 1,(past (imageReader block behind) dirRec p.1,q.2),?_,entry',rfl⟩
      rw [Walk.state,state]
      exact turnPast.2 ⟨p.1,entry,surplus,by rw [count]; exact more,rfl⟩
  · rintro ⟨n,at',state,entry,count⟩
    induction n generalizing at' p with
    | zero =>
      cases state
      exact ⟨p.1,entry,by rw [show (p.1,0) = p from Prod.ext rfl count]⟩
    | succ n ih =>
      obtain ⟨before,there,step⟩ := Option.bind_eq_some_iff.mp state
      obtain ⟨e,entry',surplus,more,place⟩ := turnPast.1 step
      have found : Reached (imageReader block behind) dirRec sig nm it (e,before.2) := ih before there entry' rfl
      obtain ⟨first,here,path⟩ := found
      refine ⟨first,here,path.tail ⟨surplus,?_,?_⟩⟩
      · rw [← count]
        exact more
      · rw [← place]
        exact entry

theorem turnOnward {p q s t : Iter Nat × Nat} (step : turn (imageReader block behind) dirRec sig nm s = some t)
    (first : entryAt (imageReader block behind) dirRec s.1 = some p.1) (same : s.2 = p.2)
    (last : entryAt (imageReader block behind) dirRec t.1 = some q.1) (same' : t.2 = q.2) :
    Onward (imageReader block behind) dirRec sig nm p q := by
  obtain ⟨e,here,surplus,more,place⟩ := turnPast.1 step
  rw [first] at here
  cases here
  refine ⟨surplus,?_,?_⟩
  · rw [← same,← same']
    exact more
  · rw [← place]
    exact last

theorem stateOnward {p q s t : Iter Nat × Nat} {n : Nat}
    (walk : Walk.state (turn (imageReader block behind) dirRec sig nm) s (n + 1) = some t)
    (first : entryAt (imageReader block behind) dirRec s.1 = some p.1) (same : s.2 = p.2)
    (last : entryAt (imageReader block behind) dirRec t.1 = some q.1) (same' : t.2 = q.2) :
    TransGen (Onward (imageReader block behind) dirRec sig nm) p q := by
  induction n generalizing t q with
  | zero =>
    obtain ⟨before,start,step⟩ := Option.bind_eq_some_iff.mp walk
    cases start
    exact .single (turnOnward step first same last same')
  | succ n ih =>
    obtain ⟨before,there,step⟩ := Option.bind_eq_some_iff.mp walk
    obtain ⟨e,here,_⟩ := turnPast.1 step
    have between : TransGen (Onward (imageReader block behind) dirRec sig nm) p (e,before.2) := ih there here rfl
    exact between.tail (turnOnward step here rfl last same')

theorem onwardState {p q s : Iter Nat × Nat} {n : Nat}
    (here : Walk.state (turn (imageReader block behind) dirRec sig nm) (it,0) n = some s)
    (first : entryAt (imageReader block behind) dirRec s.1 = some p.1) (same : s.2 = p.2)
    (path : TransGen (Onward (imageReader block behind) dirRec sig nm) p q) :
    ∃ m t, n < m ∧ Walk.state (turn (imageReader block behind) dirRec sig nm) (it,0) m = some t ∧
      entryAt (imageReader block behind) dirRec t.1 = some q.1 ∧ t.2 = q.2 := by
  have onward {m : Nat} {p q t : Iter Nat × Nat}
      (there : Walk.state (turn (imageReader block behind) dirRec sig nm) (it,0) m = some t)
      (entry : entryAt (imageReader block behind) dirRec t.1 = some p.1) (count : t.2 = p.2)
      (step : Onward (imageReader block behind) dirRec sig nm p q) :
      Walk.state (turn (imageReader block behind) dirRec sig nm) (it,0) (m + 1) =
        some (past (imageReader block behind) dirRec p.1,q.2) := by
    rw [Walk.state,there]
    exact turnPast.2 ⟨p.1,entry,step.1,by rw [count]; exact step.2.1,rfl⟩
  induction path with
  | single step => exact ⟨n + 1,_,by omega,onward here first same step,step.2.2,rfl⟩
  | tail _ step ih =>
    obtain ⟨m,t,less,there,entry,count⟩ := ih
    exact ⟨m + 1,_,by omega,onward there entry count step,step.2.2,rfl⟩

theorem staysPast (nm : Bool) (count : Nat) (small : e.readPos < 2^32) (stays : Stays (imageReader block behind) dirRec sig e) :
    (∀ s : Iter Nat × Nat, s.2 = count → entryAt (imageReader block behind) dirRec s.1 = some e →
      turn (imageReader block behind) dirRec sig nm s = some (past (imageReader block behind) dirRec e,count)) ∧
    turn (imageReader block behind) dirRec sig nm (past (imageReader block behind) dirRec e,count) =
      some (past (imageReader block behind) dirRec e,count) := by
  obtain ⟨goes,empty,other,ce⟩ := stays
  obtain ⟨position,area,data,limit⟩ := pastPlace (imageReader block behind) dirRec e
  have place : (past (imageReader block behind) dirRec e).readPos = e.readPos := by
    rw [position,empty,add32Eq (by omega),Nat.add_zero]
  have byte : (past (imageReader block behind) dirRec e).byte (imageReader block behind) dirRec =
      e.byte (imageReader block behind) dirRec := by
    funext i
    simp only [Iter.byte,place,area,data]
  have goes' : (past (imageReader block behind) dirRec e).goesOn (imageReader block behind) dirRec := by
    simp only [Iter.goesOn,Iter.whole,place,limit,byte,decide_eq_true_eq] at goes ⊢
    exact goes
  have idle : ¬ e.surplus (imageReader block behind) dirRec := by
    rintro ⟨isCe,more⟩
    have := (ce isCe).1
    omega
  have idle' : ¬ (past (imageReader block behind) dirRec e).surplus (imageReader block behind) dirRec := by
    rintro ⟨isCe,more⟩
    have isCe : e.isCe (imageReader block behind) dirRec := by simpa only [Iter.isCe,byte] using isCe
    rw [past,if_pos isCe] at more
    have := (ce isCe).2
    simp only at more
    omega
  have again : past (imageReader block behind) dirRec (past (imageReader block behind) dirRec e) =
      past (imageReader block behind) dirRec e := by
    have len : (past (imageReader block behind) dirRec e).len (imageReader block behind) dirRec = 0 := by
      rw [Iter.len,byte]
      exact empty
    have isCe : (past (imageReader block behind) dirRec e).isCe (imageReader block behind) dirRec =
        e.isCe (imageReader block behind) dirRec := by rw [Iter.isCe,byte]; rfl
    rw [past,isCe,len,byte,add32Eq (by omega)]
    by_cases c : e.isCe (imageReader block behind) dirRec
    · simp [past,c,empty]
    · simp [past,c,empty]
  have other' : ¬ (past (imageReader block behind) dirRec e).matches' (imageReader block behind) dirRec sig := by
    simpa only [Iter.matches',byte] using other
  refine ⟨fun s same entry => turnPast.2 ⟨e,entry,idle,?_,rfl⟩,turnPast.2 ⟨_,?_,idle',?_,again.symm⟩⟩
  · rw [collected,if_pos other,same]
  · rw [entryAt,if_pos goes']
  · rw [collected,if_pos other']

theorem newRoom {suspSkip : Nat} (new : suspRrIterNew dirRec suspSkip = some it) : Room it 4 := by
  unfold suspRrIterNew at new
  simp only at new
  split_ifs at new <;> cases new <;> exact ⟨by simp only; omega,by simp⟩

/- A walk that keeps to its bounds and comes back to a place stays at an entry, or goes round through areas. -/
theorem chainDistinct (sane : Sane it) (chain : ChainBounded (imageReader block behind) dirRec sig nm it)
    (bounded : ∀ n at', Walk.state (turn (imageReader block behind) dirRec sig nm) (it,0) n = some at' →
      Bounded (imageReader block behind) dirRec sig at'.1) :
    Walk.NoRepeat (turn (imageReader block behind) dirRec sig nm) (it,0) := by
  intro i j s less first second
  obtain ⟨d,rfl⟩ := Nat.exists_eq_add_of_lt less
  have back : Walk.state (turn (imageReader block behind) dirRec sig nm) s (d + 1) = some s := by
    rw [← Walk.stateAdd first]
    exact second
  have along {k : Nat} {t : Iter Nat × Nat} (there : Walk.state (turn (imageReader block behind) dirRec sig nm) s k = some t) :
      Walk.state (turn (imageReader block behind) dirRec sig nm) (it,0) (i + k) = some t := by
    rw [Walk.stateAdd first]
    exact there
  have goes (k : Nat) (t : Iter Nat × Nat) (there : Walk.state (turn (imageReader block behind) dirRec sig nm) s k = some t) :
      ∃ next, turn (imageReader block behind) dirRec sig nm t = some next := by
    refine Option.ne_none_iff_exists'.mp fun stop => ?_
    have stopped : Walk.state (turn (imageReader block behind) dirRec sig nm) s (k + 1) = none := by
      rw [Walk.state,there]
      exact stop
    have later := Walk.noneLater stopped (show k + 1 ≤ (k + 1)*(d + 1) from Nat.le_mul_of_pos_right _ (by omega))
    rw [Walk.cycleStays back] at later
    cases later
  by_cases inside : ∀ k t, Walk.state (turn (imageReader block behind) dirRec sig nm) s k = some t →
      t.1.goesOn (imageReader block behind) dirRec
  · -- all in one area, where the position only grows
    have moves {k : Nat} {t next : Iter Nat × Nat}
        (there : Walk.state (turn (imageReader block behind) dirRec sig nm) s k = some t)
        (step : turn (imageReader block behind) dirRec sig nm t = some next) :
        next.1 = past (imageReader block behind) dirRec t.1 ∧ ¬ t.1.surplus (imageReader block behind) dirRec ∧
          collected (imageReader block behind) dirRec sig nm t.1 t.2 = some next.2 ∧
          next.1.readPos = t.1.readPos + t.1.len (imageReader block behind) dirRec := by
      have entry : entryAt (imageReader block behind) dirRec t.1 = some t.1 := by rw [entryAt,if_pos (inside k t there)]
      obtain ⟨e,here,surplus,more,place⟩ := turnPast.1 step
      rw [entry] at here
      cases here
      have room := (boundedAt.1 (bounded _ _ (along there))).2 _ entry surplus
      have low := roomLow (stateSane sane (fun m b _ => bounded m b) (along there)) (roomLess room (Nat.le_max_left _ _))
      have byte := (t.1.byte (imageReader block behind) dirRec 2).toNat_lt
      refine ⟨place,surplus,more,?_⟩
      rw [place,(pastPlace _ _ _).1,Iter.len,add32Eq (by omega)]
    have grows {k m : Nat} {t u : Iter Nat × Nat}
        (there : Walk.state (turn (imageReader block behind) dirRec sig nm) s k = some t)
        (later : Walk.state (turn (imageReader block behind) dirRec sig nm) t m = some u) : t.1.readPos ≤ u.1.readPos := by
      induction m generalizing u with
      | zero =>
        cases later
        exact Nat.le_refl _
      | succ m ih =>
        obtain ⟨before,path,step⟩ := Option.bind_eq_some_iff.mp later
        have place : Walk.state (turn (imageReader block behind) dirRec sig nm) s (k + m) = some before := by
          rw [Walk.stateAdd there]
          exact path
        have := (moves place step).2.2.2
        have := ih path
        omega
    obtain ⟨t,step⟩ := goes 0 s rfl
    have zero : Walk.state (turn (imageReader block behind) dirRec sig nm) s 0 = some s := rfl
    obtain ⟨place,surplus,more,position⟩ := moves zero step
    have one : Walk.state (turn (imageReader block behind) dirRec sig nm) s 1 = some t := step
    have home : Walk.state (turn (imageReader block behind) dirRec sig nm) t d = some s := by
      rw [← Walk.stateNext step]
      exact back
    have empty : s.1.len (imageReader block behind) dirRec = 0 := by
      have := grows one home
      omega
    have onward : s.1.goesOn (imageReader block behind) dirRec := inside 0 s rfl
    have entry : entryAt (imageReader block behind) dirRec s.1 = some s.1 := by rw [entryAt,if_pos onward]
    refine chain.lengths s (reachedState.2 ⟨i,s,first,entry,rfl⟩) ⟨onward,empty,fun wanted => ?_,fun ce => ⟨?_,?_⟩⟩
    · have skip : 0 < headSkip nm := by cases nm <;> decide
      rw [collected,if_neg (not_not.mpr wanted),if_pos (by omega)] at more
      cases more
    · by_contra some'
      exact surplus ⟨ce,by omega⟩
    · -- a CE entry that announces an area is surplus in the turn after
      obtain ⟨u,step'⟩ := goes 1 t one
      have surplus' := (moves one step').2.1
      by_contra some'
      refine surplus' ⟨?_,?_⟩
      · have byte : t.1.byte (imageReader block behind) dirRec = s.1.byte (imageReader block behind) dirRec := by
          funext k
          obtain ⟨_,area,data,_⟩ := pastPlace (imageReader block behind) dirRec s.1
          rw [← place] at area data
          simp only [Iter.byte,area,data,position,empty,Nat.add_zero]
        simpa only [Iter.isCe,byte] using ce
      · rw [place,past,if_pos ce]
        exact Nat.pos_of_ne_zero some'
  · -- an area is begun on the way round
    simp only [not_forall] at inside
    obtain ⟨k,t,there,stops⟩ := inside
    obtain ⟨next,step⟩ := goes k t there
    obtain ⟨e,entry,_⟩ := turnPast.1 step
    have round : Walk.state (turn (imageReader block behind) dirRec sig nm) t (d + 1) = some t := by
      rw [← Walk.stateAdd there,Nat.add_comm,Walk.stateAdd back]
      exact there
    have begins : BeginsArea e := by
      rw [entryAt,if_neg stops] at entry
      split_ifs at entry
      cases entry
      exact ⟨rfl,rfl,rfl⟩
    exact chain.areas (e,t.2) (reachedState.2 ⟨i + k,t,along there,entry,rfl⟩) begins
      (stateOnward round entry rfl entry rfl)

theorem chainTurns {suspSkip : Nat} (new : suspRrIterNew dirRec suspSkip = some it) :
    TurnsBounded (imageReader block behind) dirRec sig nm it ↔ ChainBounded (imageReader block behind) dirRec sig nm it := by
  obtain ⟨small,sane⟩ := newIter new
  constructor
  · rintro ⟨distinct,bounded⟩
    constructor
    · intro p reached stays
      obtain ⟨n,s,here,entry,count⟩ := reachedState.1 reached
      have fits := (nextEntrySmall (stateSmall small here).1 (nextEntryAt.2 entry)).readPos
      obtain ⟨once,again⟩ := staysPast nm p.2 fits stays
      have one : Walk.state (turn (imageReader block behind) dirRec sig nm) (it,0) (n + 1) =
          some (past (imageReader block behind) dirRec p.1,p.2) := by
        rw [Walk.state,here]
        exact once s count entry
      refine distinct (n + 1) (n + 2) _ (by omega) one ?_
      rw [Walk.state,one]
      exact again
    · intro p reached _ round
      obtain ⟨n,s,here,entry,count⟩ := reachedState.1 reached
      obtain ⟨m,t,less,there,entry',count'⟩ := onwardState here entry count round
      obtain ⟨q,first,_⟩ := TransGen.head'_iff.mp round
      have step {u : Iter Nat × Nat} (place : entryAt (imageReader block behind) dirRec u.1 = some p.1) (same : u.2 = p.2) :
          turn (imageReader block behind) dirRec sig nm u = some (past (imageReader block behind) dirRec p.1,q.2) :=
        turnPast.2 ⟨p.1,place,first.1,by rw [same]; exact first.2.1,rfl⟩
      refine distinct (n + 1) (m + 1) (past (imageReader block behind) dirRec p.1,q.2) (by omega) ?_ ?_
      · rw [Walk.state,here]
        exact step entry count
      · rw [Walk.state,there]
        exact step entry' count'
    · intro p reached surplus
      obtain ⟨n,s,here,entry,_⟩ := reachedState.1 reached
      exact (boundedAt.1 (bounded n s here)).2 p.1 entry surplus
    · intro p reached surplus more
      obtain ⟨n,s,here,entry,count⟩ := reachedState.1 reached
      obtain ⟨c,more⟩ := Option.ne_none_iff_exists'.mp more
      refine (boundedAt.1 (bounded (n + 1) (past (imageReader block behind) dirRec p.1,c) ?_)).1
      rw [Walk.state,here]
      exact turnPast.2 ⟨p.1,entry,surplus,by rw [count]; exact more,rfl⟩
  · intro chain
    have bounded : ∀ n at', Walk.state (turn (imageReader block behind) dirRec sig nm) (it,0) n = some at' →
        Bounded (imageReader block behind) dirRec sig at'.1 := by
      intro n s here
      refine boundedAt.2 ⟨?_,fun e entry surplus =>
        chain.entries (e,s.2) (reachedState.2 ⟨n,s,here,entry,rfl⟩) surplus⟩
      cases n with
      | zero =>
        cases here
        exact fun _ => newRoom new
      | succ n =>
        obtain ⟨before,there,step⟩ := Option.bind_eq_some_iff.mp here
        obtain ⟨e,entry,surplus,more,place⟩ := turnPast.1 step
        rw [place]
        exact chain.heads (e,before.2) (reachedState.2 ⟨n,before,there,entry,rfl⟩) surplus (by simp [more])
    exact ⟨chainDistinct sane chain bounded,bounded⟩

/- susp_rr_get_entries returns and keeps to its bounds just when the chain of entries does. -/
theorem entriesBounded (block : Nat → Nat → UInt8) (behind dirRec : Nat → UInt8) (sig : UInt8 × UInt8) (nm : Bool)
    (sbi : SbInfo) : ReadsInside (imageReader block behind) dirRec sig nm sbi ↔
      ChainsBounded (imageReader block behind) dirRec sig nm sbi := by
  rw [readsInsideTurns]
  exact forall_congr' fun it => imp_congr_right fun _ => imp_congr_right fun new => chainTurns new

end

/- A record of 40 bytes with a name of one byte and an entry of length 0. -/
def zeroEntry : List UInt8 := 40::List.replicate 31 0 ++ [1,0x41,0x58,0x58,0,1]

theorem entriesRepeat : ¬ ReadsInside (imageReader (fun _ _ => 0) (fun _ => 0)) (fun i => zeroEntry.getD i 0)
    (0x4e,0x4d) true ⟨1,0⟩ := by
  rw [readsInsideWalk]
  intro walk
  obtain ⟨ends,_⟩ := walk ⟨false,[],34,40,0,0,0,0,40⟩ (by decide) (by decide)
  exact Walk.endsNoRepeat ends 0 1 (⟨false,[],34,40,0,0,0,0,40⟩,0) (by decide) rfl (by decide)

end Syslinux.Susp
