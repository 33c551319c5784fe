import Syslinux.Zonelist

/-! syslinux_add_memmap when a malloc fails. The first malloc is asked for before anything is
changed. When the second one fails the start token is in place and the zones behind it are
gone: the memory behind the region has the new type. -/
namespace Syslinux.Zonelist
open MemmapType

def StartTokenNeeded (list : List Zone) (start : Nat) (type : MemmapType) : Prop :=
  0 < start ∧ typeAt list (start - 1) = typeAt list start ∧ typeAt list start ≠ type

/- A zone of another type goes on across the end of the region. A region that wraps ends below
its start, where nothing is deleted and the start token is closed at once. -/
def EndTokenNeeded (list : List Zone) (start len : Nat) (type : MemmapType) : Prop :=
  if start + len ≤ 2^32 then
    start + len < 2^32 ∧ typeAt list (start + len - 1) = typeAt list (start + len) ∧ typeAt list (start + len) ≠ type
  else typeAt list start ≠ type ∧ typeAt list (start - 1) ≠ type

def EndTokenLost (mallocs : List Bool) (list : List Zone) (start len : Nat) (type : MemmapType) : Prop :=
  0 < len ∧ EndTokenNeeded list start len type ∧
    (StartTokenNeeded list start type → (malloc mallocs).1 = true ∧ (malloc (malloc mallocs).2).1 = false) ∧
    (¬StartTokenNeeded list start type → (malloc mallocs).1 = false)

def Untouched (list : List Zone) (r : Added) : Prop :=
  r.rv = -1 → WellFormed r.list ∧ ∀ a, a < 2^32 → typeAt r.list a = typeAt list a

section
variable {mallocs : List Bool} {start last : Nat} {type old : MemmapType} {z : Zone} {here rest : List Zone}

theorem endTokenFails {old' : MemmapType} (mallocs : List Bool) (type : MemmapType)
    (eq : dropCovered last old here = (old',z::rest)) :
    ((endToken last type mallocs old here).rv = -1 ↔
      last < sub32 z.start 1 ∧ old' ≠ type ∧ (malloc mallocs).1 = false) ∧
    ((endToken last type mallocs old here).rv = -1 → (endToken last type mallocs old here).list = z::rest) := by
  unfold endToken
  rw [eq]
  rcases outcome : malloc mallocs with ⟨fine,later⟩
  by_cases gap : last < sub32 z.start 1 <;> by_cases differ : old' = type <;> cases fine <;>
    simp [gap,differ] <;> split <;> simp_all

theorem dropCoveredType {low : Nat} (h : Follows low old here) (proper : old ≠ smtEnd) (le : low ≤ last)
    (bound : last < 2^32) : (dropCovered last old here).1 = typeFrom old last here := by
  induction here generalizing low old with
  | nil => exact absurd h (by simp [Follows])
  | cons z rest ih =>
    rcases h with ⟨stop,empty⟩ | ⟨ztype,_,above,zbound,next⟩
    · subst stop empty
      have keep : ¬sub32 0 1 < last := by unfold sub32; split <;> omega
      simp [dropCovered,keep,typeFrom]
    · by_cases covered : z.start ≤ last
      · have drop : sub32 z.start 1 < last := by rw [sub32Eq (by omega)]; omega
        rw [typeFromCons ztype covered,← ih next ztype covered]
        simp [dropCovered,drop]
      · have keep : ¬sub32 z.start 1 < last := by rw [sub32Eq (by omega)]; omega
        rw [typeFromStop (Or.inr (by omega))]
        simp [dropCovered,keep]

theorem gapIff (h : Follows last old (z::rest)) : last < sub32 z.start 1 ↔
    last + 1 < 2^32 ∧ typeFrom old (last + 1) (z::rest) = old := by
  rcases h with ⟨stop,empty⟩ | ⟨ztype,differ,above,zbound,next⟩
  · subst stop empty
    have top : sub32 0 1 = 2^32 - 1 := rfl
    have same : typeFrom old (last + 1) [⟨0,smtEnd⟩] = old := typeFromStop (Or.inl rfl)
    rw [top,same]
    exact ⟨fun _ => ⟨by omega,rfl⟩,fun _ => by omega⟩
  · rw [sub32Eq (by omega)]
    by_cases touch : z.start = last + 1
    · rw [typeFromCons ztype (by omega),typeFromBelow z.type next (by omega)]
      exact ⟨by omega,fun h => absurd h.2 differ⟩
    · rw [typeFromStop (Or.inr (by omega))]
      exact ⟨fun _ => ⟨by omega,rfl⟩,fun _ => by omega⟩

variable (mallocs type) in
/- The end of a region that does not wrap. -/
theorem endFails {low : Nat} (h : Follows low old here) (proper : old ≠ smtEnd) (le : low ≤ last)
    (bound : last < 2^32) :
    ((endToken last type mallocs old here).rv = -1 ↔ last + 1 < 2^32 ∧
      typeFrom old last here = typeFrom old (last + 1) here ∧ typeFrom old (last + 1) here ≠ type ∧
      (malloc mallocs).1 = false) ∧
    ((endToken last type mallocs old here).rv = -1 →
      ∀ current, typeFrom current (last + 1) (endToken last type mallocs old here).list = current) := by
  obtain ⟨old',z,rest,eq,_,follows,types⟩ := dropCoveredSpec bound h proper le
  have here' : typeFrom old last here = old' := by
    rw [← dropCoveredType h proper le bound,eq]
  have fails := endTokenFails mallocs type eq
  have gap := gapIff follows
  rw [types (last + 1) (by omega)] at gap
  constructor
  · rw [fails.1,gap,here']
    constructor
    · rintro ⟨⟨small,same⟩,differ,failed⟩
      exact ⟨small,same.symm,same ▸ differ,failed⟩
    · rintro ⟨small,same,differ,failed⟩
      exact ⟨⟨small,same.symm⟩,same ▸ differ,failed⟩
  · intro failed current
    have lost := fails.1.mp failed
    rw [fails.2 failed]
    rcases follows with ⟨stop,_⟩ | ⟨_,_,_,_,_⟩
    · exact typeFromStop (Or.inl (by rw [stop]))
    · refine typeFromStop (Or.inr ?_)
      have := lost.1
      unfold sub32 at this
      split at this <;> omega

variable (mallocs type old rest) in
/- The end of a region that wraps lies below every zone still to come: none is deleted. -/
theorem endFailsWrapped (away : last < sub32 z.start 1) :
    ((endToken last type mallocs old (z::rest)).rv = -1 ↔ old ≠ type ∧ (malloc mallocs).1 = false) ∧
    ((endToken last type mallocs old (z::rest)).rv = -1 → (endToken last type mallocs old (z::rest)).list = z::rest) := by
  have eq : dropCovered last old (z::rest) = (old,z::rest) := by
    rw [dropCovered,if_neg (by omega)]
  have fails := endTokenFails mallocs type eq
  exact ⟨fails.1.trans ⟨fun h => h.2,fun h => ⟨away,h⟩⟩,fails.2⟩

/- Where the first loop stops, behind a zone of type `old` that starts below the region. -/
structure Reached (list : List Zone) (start : Nat) (old : MemmapType) (passed here : List Zone) : Prop where
  split : list = passed ++ here
  proper : old ≠ smtEnd
  before : typeAt list (start - 1) = old
  follows : ∃ low, low < start ∧ Follows low old here
  stop : ∀ z rest, here = z::rest → start ≤ z.start ∨ z.type = smtEnd
  types : ∀ tail a, start ≤ a → typeAt (passed ++ tail) a = typeFrom old a tail

theorem passBelowReached {low : Nat} {current : MemmapType} {list : List Zone} (h : Follows low current list)
    (proper : current ≠ smtEnd) (le : low < start) :
    list = (passBelow start current list).1 ++ (passBelow start current list).2.2 ∧
    (passBelow start current list).2.1 ≠ smtEnd ∧
    typeFrom current (start - 1) list = (passBelow start current list).2.1 ∧
    (∃ low, low < start ∧ Follows low (passBelow start current list).2.1 (passBelow start current list).2.2) ∧
    (∀ z rest, (passBelow start current list).2.2 = z::rest → start ≤ z.start ∨ z.type = smtEnd) ∧
    ∀ tail a, start ≤ a → typeFrom current a ((passBelow start current list).1 ++ tail) =
      typeFrom (passBelow start current list).2.1 a tail := by
  induction list generalizing low current with
  | nil => exact absurd h (by simp [Follows])
  | cons z rest ih =>
    by_cases pass : z.start < start ∧ z.type ≠ smtEnd
    · rcases h with ⟨stop,_⟩ | ⟨ztype,_,_,_,next⟩
      · exact absurd (by rw [stop]) pass.2
      · obtain ⟨split,proper',before,follows,stop,types⟩ := ih next ztype pass.1
        simp only [passBelow,pass,ne_eq,not_false_eq_true,and_self,if_true]
        refine ⟨by rw [List.cons_append,← split],proper',?_,follows,stop,?_⟩
        · rw [typeFromCons ztype (by omega),before]
        · intro tail a above
          rw [List.cons_append,typeFromCons ztype (by omega),types tail a above]
    · simp only [passBelow,pass,if_false,List.nil_append]
      have head : start ≤ z.start ∨ z.type = smtEnd := by
        by_cases stop : z.type = smtEnd
        · exact Or.inr stop
        · exact Or.inl (by by_contra below; exact pass ⟨by omega,stop⟩)
      refine ⟨trivial,proper,?_,⟨low,le,h⟩,?_,fun _ _ _ => trivial⟩
      · rcases head with above | stop
        · exact typeFromStop (Or.inr (by omega))
        · exact typeFromStop (Or.inl stop)
      · intro y tail eq
        cases eq
        exact head

theorem reachedOf {list : List Zone} (wf : WellFormed list) (above : 0 < start) :
    ∃ passed old here, passBelow start smtEnd list = (passed,old,here) ∧ Reached list start old passed here := by
  cases list with
  | nil => exact absurd wf (by simp [WellFormed])
  | cons z rest =>
    obtain ⟨zero,proper,follows⟩ := wf
    have pass : z.start < start ∧ z.type ≠ smtEnd := ⟨by omega,proper⟩
    obtain ⟨split,proper',before,follows',stop,types⟩ := passBelowReached follows proper above
    refine ⟨z::(passBelow start z.type rest).1,(passBelow start z.type rest).2.1,(passBelow start z.type rest).2.2,
      by rw [passBelow,if_pos pass],⟨by rw [List.cons_append,← split],proper',?_,follows',stop,?_⟩⟩
    · rw [typeAt,typeFromCons proper (by omega),before]
    · intro tail a high
      rw [List.cons_append,typeAt,typeFromCons proper (by omega),types tail a high]

/- The list at *mpp when the deleting loop begins, behind a zone of the new type. -/
structure Marked (list : List Zone) (start : Nat) (type old : MemmapType) (here : List Zone) : Prop where
  proper : old ≠ smtEnd
  types : ∀ a, start ≤ a → typeFrom old a here = typeAt list a
  follows : ∃ low, low ≤ start ∧ Follows low old here
  stop : ∀ z rest, here = z::rest → start ≤ z.start ∨ z.type = smtEnd
  clear : old ≠ type → ∀ z rest, here = z::rest → start < z.start ∨ z.type = smtEnd
  differ : old ≠ type ↔ typeAt list start ≠ type ∧ typeAt list (start - 1) ≠ type

variable (mallocs) in
theorem markedFails {list : List Zone} {len : Nat} (marked : Marked list start type old here) (some' : 0 < len)
    (small : len < 2^32) (low : start < 2^32) (eq : last = (start + len - 1) % 2^32) :
    ((endToken last type mallocs old here).rv = -1 ↔ EndTokenNeeded list start len type ∧ (malloc mallocs).1 = false) ∧
    ((endToken last type mallocs old here).rv = -1 → ∃ a, start ≤ a ∧ a < 2^32 ∧
      typeFrom type a (endToken last type mallocs old here).list ≠ typeAt list a) := by
  obtain ⟨base,le,follows⟩ := marked.follows
  unfold EndTokenNeeded
  by_cases fits : start + len ≤ 2^32
  · have last' : last = start + len - 1 := by omega
    have next : last + 1 = start + len := by omega
    have fails := endFails mallocs type follows marked.proper (by omega : base ≤ last) (by omega)
    rw [marked.types last (by omega),marked.types (last + 1) (by omega)] at fails
    rw [if_pos fits,← next,show last + 1 - 1 = last by omega]
    constructor
    · rw [fails.1]
      tauto
    · intro failed
      have needed := fails.1.mp failed
      refine ⟨last + 1,by omega,needed.1,?_⟩
      rw [fails.2 failed]
      exact needed.2.2.1.symm
  · have wrapped : last + 1 < start := by omega
    cases here with
    | nil => exact absurd follows (by simp [Follows])
    | cons z rest =>
      have away : last < sub32 z.start 1 := by
        rcases marked.stop z rest rfl with above | stop
        · rw [sub32Eq (by omega)]
          omega
        · rcases follows with ⟨same,_⟩ | ⟨proper,_⟩
          · have top : sub32 0 1 = 2^32 - 1 := rfl
            rw [same,top]
            omega
          · exact absurd stop proper
      have fails := endFailsWrapped mallocs type old rest away
      rw [if_neg fits,← marked.differ]
      refine ⟨fails.1,?_⟩
      intro failed
      have differ := (fails.1.mp failed).1
      refine ⟨start,Nat.le_refl _,low,?_⟩
      rw [fails.2 failed,typeFromStop (marked.clear differ z rest rfl |>.symm)]
      exact (marked.differ.mp differ).1.symm

theorem untouchedIff {list : List Zone} {r : Added} {lost : Prop}
    (kept : r.rv = -1 → ¬lost → r.list = list) (wf : WellFormed list)
    (broken : lost → r.rv = -1 ∧ ∃ a, a < 2^32 ∧ typeAt r.list a ≠ typeAt list a) : Untouched list r ↔ ¬lost := by
  constructor
  · intro same gone
    obtain ⟨failed,a,small,differ⟩ := broken gone
    exact differ ((same failed).2 a small)
  · intro stays failed
    rw [kept failed stays]
    exact ⟨wf,fun _ _ => rfl⟩

theorem markedUntouched {list passed front : List Zone} {len : Nat} {later : List Bool} (wf : WellFormed list)
    (marked : Marked list start type old here) (some' : 0 < len) (small : len < 2^32) (low : start < 2^32)
    (eq : last = (start + len - 1) % 2^32)
    (front' : ∀ tail a, start ≤ a → typeAt (passed ++ (front ++ tail)) a = typeFrom type a tail)
    (lost : EndTokenLost mallocs list start len type ↔ EndTokenNeeded list start len type ∧ (malloc later).1 = false) :
    Untouched list (((endToken last type later old here).behind front).behind passed) ↔
      ¬EndTokenLost mallocs list start len type := by
  obtain ⟨fails,changed⟩ := markedFails later marked some' small low eq
  refine untouchedIff ?_ wf ?_
  · intro failed stays
    exact absurd (lost.2 (fails.mp failed)) stays
  · intro gone
    have failed := fails.mpr (lost.1 gone)
    obtain ⟨a,above,below,differ⟩ := changed failed
    refine ⟨failed,a,below,?_⟩
    simp only [Added.behind]
    rw [front' _ a above]
    exact differ

theorem startUntouched {list passed : List Zone} {len : Nat} (wf : WellFormed list) (given : type ≠ smtEnd)
    (above : 0 < start) (low : start < 2^32) (some' : 0 < len) (small : len < 2^32)
    (eq : last = (start + len - 1) % 2^32) (reached : Reached list start old passed here) :
    Untouched list ((startToken mallocs start last type old here).behind passed) ↔
      ¬EndTokenLost mallocs list start len type := by
  obtain ⟨base,under,follows⟩ := reached.follows
  have typesHere : ∀ a, start ≤ a → typeAt list a = typeFrom old a here := by
    intro a high
    rw [reached.split]
    exact reached.types here a high
  have before := reached.before
  cases here with
  | nil => exact absurd follows (by simp [Follows])
  | cons mp rest =>
    have spliced : ∀ tail a, start ≤ a → typeAt (passed ++ ([⟨start,type⟩] ++ tail)) a = typeFrom type a tail := by
      intro tail a high
      rw [reached.types _ a high,List.cons_append,List.nil_append,typeFromCons given high]
    rw [startToken]
    by_cases splice : start < mp.start ∨ mp.type = smtEnd
    · have here : typeAt list start = old := by
        rw [typesHere start (Nat.le_refl _)]
        exact typeFromStop splice.symm
      have marked : Marked list start type old (mp::rest) :=
        ⟨reached.proper,fun a high => (typesHere a high).symm,⟨base,by omega,follows⟩,reached.stop,
          fun _ z rest' same => by cases same; exact splice,by rw [here,before]; simp⟩
      rw [if_pos splice]
      by_cases differ : type ≠ old
      · have needed : StartTokenNeeded list start type := ⟨above,by rw [before,here],by rw [here]; exact differ.symm⟩
        rw [if_pos differ]
        rcases outcome : malloc mallocs with ⟨fine,later⟩
        cases fine with
        | false =>
          refine untouchedIff (fun _ _ => reached.split.symm) wf ?_
          intro lost
          have first := (lost.2.2.1 needed).1
          rw [outcome] at first
          contradiction
        | true =>
          refine markedUntouched wf marked some' small low eq spliced ?_
          unfold EndTokenLost
          rw [outcome]
          simp [needed,some']
      · have same : old = type := (not_not.mp differ).symm
        have none' : ¬StartTokenNeeded list start type := fun h => h.2.2 (here.trans same)
        rw [if_neg differ]
        have plain : ∀ tail a, start ≤ a → typeAt (passed ++ ([] ++ tail)) a = typeFrom type a tail := by
          intro tail a high
          rw [List.nil_append,reached.types tail a high,same]
        refine markedUntouched wf marked some' small low eq plain ?_
        unfold EndTokenLost
        simp [none',some']
    · obtain ⟨proper,other,_,_,next⟩ : mp.type ≠ smtEnd ∧ mp.type ≠ old ∧ base < mp.start ∧ mp.start < 2^32 ∧
          Follows mp.start mp.type rest := by
        rcases follows with ⟨stop,_⟩ | h
        · exact absurd (Or.inr (by rw [stop])) splice
        · exact h
      have aligned : mp.start = start := by
        rcases reached.stop mp rest rfl with high | stop
        · omega
        · exact absurd stop proper
      have here : typeAt list start = mp.type := by
        rw [typesHere start (Nat.le_refl _),typeFromCons proper (by omega)]
        exact typeFromBelow mp.type next (by omega)
      have none' : ¬StartTokenNeeded list start type := by
        rintro ⟨_,same,_⟩
        rw [before,here] at same
        exact other same.symm
      rw [if_neg splice]
      by_cases differ : type ≠ old
      · rw [if_pos differ,aligned]
        have clear : ∀ z rest', rest = z::rest' → start < z.start ∨ z.type = smtEnd := by
          rintro z rest' rfl
          rcases next with ⟨stop,_⟩ | ⟨_,_,high,_⟩
          · exact Or.inr (by rw [stop])
          · exact Or.inl (by omega)
        have marked : Marked list start type mp.type rest := by
          refine ⟨proper,?_,⟨mp.start,by omega,next⟩,?_,fun _ => clear,?_⟩
          · intro a high
            rw [typesHere a high,typeFromCons proper (by omega)]
          · intro z rest' same
            exact (clear z rest' same).imp_left Nat.le_of_lt
          · rw [here,before]
            exact ⟨fun h => ⟨h,differ.symm⟩,fun h => h.1⟩
        refine markedUntouched wf marked some' small low eq spliced ?_
        unfold EndTokenLost
        simp [none',some']
      · have same : old = type := (not_not.mp differ).symm
        rw [if_neg differ]
        have marked : Marked list start type old (mp::rest) :=
          ⟨reached.proper,fun a high => (typesHere a high).symm,⟨base,by omega,follows⟩,reached.stop,
            fun h => absurd same h,by rw [before]; exact ⟨fun h => absurd same h,fun h => h.2⟩⟩
        have plain : ∀ tail a, start ≤ a → typeAt (passed ++ ([] ++ tail)) a = typeFrom type a tail := by
          intro tail a high
          rw [List.nil_append,reached.types tail a high,same]
        refine markedUntouched wf marked some' small low eq plain ?_
        unfold EndTokenLost
        simp [none',some']

theorem addMemmapFailure {list : List Zone} {len : Nat} (wf : WellFormed list) (given : type ≠ smtEnd)
    (low : start < 2^32) (small : len < 2^32) :
    Untouched list (syslinuxAddMemmap mallocs list start len type) ↔ ¬EndTokenLost mallocs list start len type := by
  by_cases empty : len = 0
  · refine untouchedIff ?_ wf (fun lost => absurd lost.1 (by omega))
    intro failed _
    rw [syslinuxAddMemmap,if_pos empty] at failed
    simp at failed
  have some' : 0 < len := Nat.pos_of_ne_zero empty
  obtain ⟨last,eq⟩ : ∃ last, last = (start + len - 1) % 2^32 := ⟨_,rfl⟩
  rw [syslinuxAddMemmap,if_neg empty,← eq]
  by_cases above : 0 < start
  · obtain ⟨passed,old,here,ran,reached⟩ := reachedOf wf above
    rw [ran]
    exact startUntouched wf given above low some' small eq reached
  · have zero : start = 0 := by omega
    subst zero
    cases list with
    | nil => exact absurd wf (by simp [WellFormed])
    | cons z rest =>
      have whole := wf
      obtain ⟨origin,proper,follows⟩ := wf
      have clear : ∀ y rest', rest = y::rest' → 0 < y.start ∨ y.type = smtEnd := by
        rintro y rest' rfl
        rcases follows with ⟨stop,_⟩ | ⟨_,_,high,_⟩
        · exact Or.inr (by rw [stop])
        · exact Or.inl high
      have types : ∀ a, typeAt (z::rest) a = typeFrom z.type a rest := fun a => typeFromCons proper (by omega)
      have here : typeAt (z::rest) 0 = z.type := (types 0).trans (typeFromBelow z.type follows (Nat.le_refl _))
      have marked : Marked (z::rest) 0 type z.type rest :=
        ⟨proper,fun a _ => (types a).symm,⟨0,Nat.le_refl _,follows⟩,fun _ _ _ => Or.inl (Nat.zero_le _),
          fun _ => clear,by rw [Nat.zero_sub,here]; simp⟩
      have splice : ¬(0 < z.start ∨ z.type = smtEnd) := by
        rintro (high | stop)
        · omega
        · exact proper stop
      have front : ∀ tail a, 0 ≤ a → typeAt ([] ++ ([⟨z.start,type⟩] ++ tail)) a = typeFrom type a tail := by
        intro tail a _
        exact typeFromCons given (by simp only; omega)
      rw [passBelow,if_neg (by omega)]
      simp only
      rw [startToken,if_neg splice,if_pos given]
      refine markedUntouched whole marked some' small low eq front ?_
      unfold EndTokenLost StartTokenNeeded
      simp [some']

end

/- A region in the middle of a zone, and the first of the two mallocs fails. -/
theorem addMemmapFailureFirst :
    Untouched syslinuxInitMemmap (syslinuxAddMemmap [false] syslinuxInitMemmap 0x100000 0x100000 smtFree) ↔
      ¬EndTokenLost [false] syslinuxInitMemmap 0x100000 0x100000 smtFree :=
  addMemmapFailure initWellFormed (by decide) (by decide) (by decide)

theorem addMemmapHalfDone :
    ¬ ∀ (mallocs : List Bool) (list : List Zone) (start len : Nat) (type : MemmapType), WellFormed list →
      start < 2^32 → len < 2^32 → type ≠ smtEnd → Untouched list (syslinuxAddMemmap mallocs list start len type) := by
  intro claim
  have same := claim [true,false] syslinuxInitMemmap 0x100000 0x100000 smtFree initWellFormed (by decide) (by decide)
    (by decide) (by decide)
  exact absurd (same.2 0x200000 (by decide)) (by decide)

end Syslinux.Zonelist
