import Mathlib.Tactic

/-! Loops that are given a number of turns, and whose bodies may need turns of their own. Such a
loop comes to an answer just when its bodies do and it does not come back to a place it has been
at. -/
namespace Syslinux.Loops
open Relation (ReflTransGen TransGen)

section
variable {γ δ : Type}

def Keeps (a a' : Option γ) : Prop := ∀ x, a = some x → a' = some x

def Gives (f : Nat → Option γ) (x : γ) : Prop := ∃ n, f n = some x
def Answers (f : Nat → Option γ) : Prop := ∃ n x, f n = some x

def Lasting (f : Nat → Option γ) : Prop := ∀ n, Keeps (f n) (f (n + 1))

theorem keepsBind {a a' : Option γ} {g g' : γ → Option δ} (first : Keeps a a') (second : ∀ x, Keeps (g x) (g' x)) :
    Keeps (a.bind g) (a'.bind g') := by
  intro y here
  obtain ⟨x,at',rest⟩ := Option.bind_eq_some_iff.mp here
  exact Option.bind_eq_some_iff.mpr ⟨x,first x at',second x y rest⟩

theorem keepsMap {a a' : Option γ} (keeps : Keeps a a') (h : γ → δ) : Keeps (a.map h) (a'.map h) := by
  intro y here
  obtain ⟨x,at',rfl⟩ := Option.map_eq_some_iff.mp here
  rw [keeps x at']
  rfl

theorem keepsSelf (a : Option γ) : Keeps a a := fun _ here => here

variable {f : Nat → Option γ} {g : Nat → γ → Option δ} {x y : γ}

theorem answersIff : Answers f ↔ ∃ x, Gives f x :=
  ⟨fun ⟨n,x,h⟩ => ⟨x,n,h⟩,fun ⟨x,n,h⟩ => ⟨n,x,h⟩⟩

theorem lastingLater (lasting : Lasting f) {n : Nat} (here : f n = some x) (more : Nat) : f (n + more) = some x := by
  induction more with
  | zero => exact here
  | succ more ih => exact lasting _ _ ih

theorem lastingLe (lasting : Lasting f) {n m : Nat} (le : n ≤ m) : Keeps (f n) (f m) := by
  intro x here
  obtain ⟨more,rfl⟩ := Nat.exists_eq_add_of_le le
  exact lastingLater lasting here more

theorem givesOnly (lasting : Lasting f) (given : Gives f x) (given' : Gives f y) : x = y := by
  obtain ⟨n,here⟩ := given
  obtain ⟨m,there⟩ := given'
  have here := lastingLater lasting here m
  rw [Nat.add_comm,lastingLater lasting there n] at here
  exact (Option.some.inj here).symm

theorem lastingConst (answer : Option γ) : Lasting fun _ => answer := fun _ => keepsSelf answer

theorem givesConst {answer : Option γ} : Gives (fun _ => answer) x ↔ answer = some x :=
  ⟨fun ⟨_,h⟩ => h,fun h => ⟨0,h⟩⟩

theorem lastingMap (lasting : Lasting f) (h : γ → δ) : Lasting fun n => (f n).map h := fun n => keepsMap (lasting n) h

theorem givesMap {h : γ → δ} {y : δ} : Gives (fun n => (f n).map h) y ↔ ∃ x, Gives f x ∧ h x = y := by
  simp only [Gives,Option.map_eq_some_iff]
  exact ⟨fun ⟨n,x,here,same⟩ => ⟨x,⟨n,here⟩,same⟩,fun ⟨x,⟨n,here⟩,same⟩ => ⟨n,x,here,same⟩⟩

theorem answersMap (f : Nat → Option γ) (h : γ → δ) : Answers (fun n => (f n).map h) ↔ Answers f := by
  constructor
  · rintro ⟨n,y,here⟩
    obtain ⟨x,at',_⟩ := Option.map_eq_some_iff.mp here
    exact ⟨n,x,at'⟩
  · rintro ⟨n,x,here⟩
    exact ⟨n,h x,by simp [here]⟩

theorem answersConst {answer : Option γ} : Answers (fun _ => answer) ↔ answer.isSome := by
  rw [Option.isSome_iff_exists]
  exact ⟨fun ⟨_,x,here⟩ => ⟨x,here⟩,fun ⟨x,here⟩ => ⟨0,x,here⟩⟩

theorem givesBind (first : Lasting f) (second : ∀ x, Lasting fun n => g n x) {y : δ} :
    Gives (fun n => (f n).bind (g n)) y ↔ ∃ x, Gives f x ∧ Gives (fun n => g n x) y := by
  constructor
  · rintro ⟨n,here⟩
    obtain ⟨x,at',rest⟩ := Option.bind_eq_some_iff.mp here
    exact ⟨x,⟨n,at'⟩,⟨n,rest⟩⟩
  · rintro ⟨x,⟨n,at'⟩,⟨m,rest⟩⟩
    refine ⟨n + m,Option.bind_eq_some_iff.mpr ⟨x,lastingLater first at' m,?_⟩⟩
    rw [Nat.add_comm]
    exact lastingLater (second x) rest n

theorem answersAfter (first : Lasting f) (second : ∀ x, Lasting fun n => g n x) :
    Answers (fun n => (f n).bind (g n)) ↔ ∃ x, Gives f x ∧ Answers fun n => g n x := by
  simp only [answersIff,givesBind first second]
  exact ⟨fun ⟨y,x,given,rest⟩ => ⟨x,given,y,rest⟩,fun ⟨x,given,y,rest⟩ => ⟨y,x,given,rest⟩⟩

theorem answersBind (first : Lasting f) (second : ∀ x, Lasting fun n => g n x) :
    Answers (fun n => (f n).bind (g n)) ↔ Answers f ∧ ∀ x, Gives f x → Answers fun n => g n x := by
  rw [answersIff]
  constructor
  · rintro ⟨y,given⟩
    obtain ⟨x,at',rest⟩ := (givesBind first second).mp given
    refine ⟨answersIff.2 ⟨x,at'⟩,fun x' given' => ?_⟩
    rw [givesOnly first given' at']
    exact answersIff.2 ⟨y,rest⟩
  · rintro ⟨answers,rest⟩
    obtain ⟨x,at'⟩ := answersIff.1 answers
    obtain ⟨y,given⟩ := answersIff.1 (rest x at')
    exact ⟨y,(givesBind first second).mpr ⟨x,at',given⟩⟩

end

section
variable {γ δ : Type} {f : Nat → Option (Option γ)} {g : Nat → γ → Option δ} {d : δ}

def onFound (a : Option (Option γ)) (d : δ) (g : γ → Option δ) : Option δ := a.bind fun found => found.elim (some d) g

theorem keepsFound {a a' : Option (Option γ)} {g g' : γ → Option δ} (first : Keeps a a') (second : ∀ x, Keeps (g x) (g' x)) :
    Keeps (onFound a d g) (onFound a' d g') := by
  refine keepsBind first fun found => ?_
  cases found with
  | none => exact keepsSelf _
  | some x => exact second x

theorem lastingFound (first : Lasting f) (second : ∀ x, Lasting fun n => g n x) : Lasting fun n => onFound (f n) d (g n) :=
  fun n => keepsFound (first n) fun x => second x n

theorem givesFound (first : Lasting f) (second : ∀ x, Lasting fun n => g n x) {y : δ} :
    Gives (fun n => onFound (f n) d (g n)) y ↔ Gives f none ∧ y = d ∨ ∃ x, Gives f (some x) ∧ Gives (fun n => g n x) y := by
  have each : ∀ found : Option γ, Lasting fun n => found.elim (some d) (g n) := by
    intro found
    cases found with
    | none => exact lastingConst _
    | some x => exact second x
  refine (givesBind first each).trans ?_
  constructor
  · rintro ⟨found,given,rest⟩
    cases found with
    | none => exact Or.inl ⟨given,(Option.some.inj (givesConst.1 rest)).symm⟩
    | some x => exact Or.inr ⟨x,given,rest⟩
  · rintro (⟨given,rfl⟩ | ⟨x,given,rest⟩)
    · exact ⟨none,given,givesConst.2 rfl⟩
    · exact ⟨some x,given,rest⟩

theorem answersFound (first : Lasting f) (second : ∀ x, Lasting fun n => g n x) :
    Answers (fun n => onFound (f n) d (g n)) ↔ Answers f ∧ ∀ x, Gives f (some x) → Answers fun n => g n x := by
  have each : ∀ found : Option γ, Lasting fun n => found.elim (some d) (g n) := by
    intro found
    cases found with
    | none => exact lastingConst _
    | some x => exact second x
  unfold onFound
  rw [answersBind first each]
  refine and_congr_right fun _ => ⟨fun all x given => all (some x) given,fun all found given => ?_⟩
  cases found with
  | none => exact answersConst.2 rfl
  | some x => exact all x given

theorem answersFoundAt {g : γ → Option δ} (first : Lasting f) (all : ∀ x, (g x).isSome) :
    Answers (fun n => onFound (f n) d g) ↔ Answers f := by
  have second := answersFound (g := fun _ => g) (d := d) first fun x => lastingConst (g x)
  exact second.trans (and_iff_left fun x _ => answersConst.2 (all x))

end

section
variable {α β : Type}

def loop (body : α → Option (β ⊕ α)) : Nat → α → Option β
  | 0,_ => none
  | more+1,a =>
      match body a with
      | none => none
      | some (.inl b) => some b
      | some (.inr next) => loop body more next

section
variable (step : α → β ⊕ α → Prop)

def Goes (a next : α) : Prop := step a (.inr next)

def Stops (a : α) (b : β) : Prop := ∃ last, ReflTransGen (Goes step) a last ∧ step last (.inl b)

def NoReturn (a : α) : Prop := ∀ b, ReflTransGen (Goes step) a b → ¬ TransGen (Goes step) b b

end

variable {body : Nat → α → Option (β ⊕ α)} {step : α → β ⊕ α → Prop} {a : α} {b : β}

theorem loopKeeps {body body' : α → Option (β ⊕ α)} (keeps : ∀ a, Keeps (body a) (body' a)) (m j : Nat) (a : α) :
    Keeps (loop body m a) (loop body' (m + j) a) := by
  induction m generalizing a with
  | zero => intro b here; cases here
  | succ m ih =>
    intro b here
    rw [show m + 1 + j = m + j + 1 by omega]
    unfold loop at here ⊢
    cases at' : body a with
    | none => rw [at'] at here; cases here
    | some x =>
      rw [at'] at here
      rw [keeps a x at']
      cases x with
      | inl b' => exact here
      | inr next => exact ih next b here

theorem loopMore (lasting : ∀ a, Lasting fun n => body n a) {n m : Nat} (here : loop (body n) m a = some b) (k j : Nat) :
    loop (body (n + k)) (m + j) a = some b :=
  loopKeeps (fun c _ at' => lastingLater (lasting c) at' k) m j a b here

theorem loopLasting (lasting : ∀ a, Lasting fun n => body n a) (a : α) : Lasting fun n => loop (body n) n a :=
  fun n => loopKeeps (fun c => lasting c n) n 1 a

theorem loopGives (lasting : ∀ a, Lasting fun n => body n a) (steps : ∀ a x, Gives (fun n => body n a) x ↔ step a x) :
    Gives (fun n => loop (body n) n a) b ↔ Stops step a b := by
  constructor
  · rintro ⟨n,here⟩
    have walk : ∀ m a, loop (body n) m a = some b → Stops step a b := by
      intro m
      induction m with
      | zero => intro a here; cases here
      | succ m ih =>
        intro a here
        unfold loop at here
        cases at' : body n a with
        | none => rw [at'] at here; cases here
        | some x =>
          rw [at'] at here
          have here' := (steps a x).mp ⟨n,at'⟩
          cases x with
          | inl b' =>
            cases here
            exact ⟨a,.refl,here'⟩
          | inr next =>
            obtain ⟨last,path,stop⟩ := ih next here
            exact ⟨last,.head here' path,stop⟩
    exact walk n a here
  · rintro ⟨last,path,stop⟩
    have run : ∃ n m, loop (body n) m a = some b := by
      induction path using ReflTransGen.head_induction_on with
      | refl =>
        obtain ⟨n,at'⟩ := (steps last _).mpr stop
        exact ⟨n,1,by simp [loop,at']⟩
      | head first _ ih =>
        obtain ⟨n,m,rest⟩ := ih
        obtain ⟨k,at'⟩ := (steps _ _).mpr first
        refine ⟨n + k,m + 1,?_⟩
        have at' := lastingLater (lasting _) at' n
        rw [Nat.add_comm] at at'
        simp only [loop,at']
        exact loopMore lasting rest k 0
    obtain ⟨n,m,here⟩ := run
    refine ⟨n + m,?_⟩
    have same := loopMore lasting here m n
    rwa [Nat.add_comm m n] at same

theorem stepOnly (lasting : ∀ a, Lasting fun n => body n a) (steps : ∀ a x, Gives (fun n => body n a) x ↔ step a x)
    {x y : β ⊕ α} (here : step a x) (here' : step a y) : x = y :=
  givesOnly (lasting a) ((steps a x).mpr here) ((steps a y).mpr here')

theorem stopsNoReturn (only : ∀ a x y, step a x → step a y → x = y) (stops : Stops step a b) :
    (∀ c, ReflTransGen (Goes step) a c → ∃ x, step c x) ∧ NoReturn step a := by
  obtain ⟨last,path,stop⟩ := stops
  have noNext : ∀ c, ¬ Goes step last c := by
    intro c go
    cases only last _ _ stop go
  induction path using ReflTransGen.head_induction_on with
  | refl =>
    have stays : ∀ c, ReflTransGen (Goes step) last c → c = last := by
      intro c reach
      cases reach.cases_head with
      | inl same => exact same.symm
      | inr more =>
        obtain ⟨d,first,_⟩ := more
        exact absurd first (noNext d)
    refine ⟨fun c reach => ⟨.inl b,by rw [stays c reach]; exact stop⟩,fun c reach back => ?_⟩
    rw [stays c reach] at back
    obtain ⟨d,first,_⟩ := TransGen.head'_iff.mp back
    exact noNext d first
  | @head a d first rest ih =>
    obtain ⟨answers,distinct⟩ := ih
    have next : ∀ c, Goes step a c → c = d := fun c go => Sum.inr.inj (only a _ _ go first)
    have back' : ¬ TransGen (Goes step) a a := by
      intro back
      obtain ⟨c,go,rest'⟩ := TransGen.head'_iff.mp back
      rw [next c go] at rest'
      exact distinct d .refl (TransGen.tail' rest' first)
    constructor
    · intro c reach
      rcases reach.cases_head with rfl | ⟨e,go,reach⟩
      · exact ⟨_,first⟩
      · rw [next e go] at reach
        exact answers c reach
    · intro c reach
      rcases reach.cases_head with rfl | ⟨e,go,reach⟩
      · exact back'
      · rw [next e go] at reach
        exact distinct c reach

theorem sameReturns {step : α → β ⊕ α → Prop} {a b : α} (reach : ReflTransGen (Goes step) a b) (same : Goes step b b) :
    ¬ NoReturn step a := fun distinct => distinct b reach (.single same)

/- Among finitely many places, a loop that does not come back stops. -/
theorem noReturnStops (finite : {c | ReflTransGen (Goes step) a c}.Finite)
    (answers : ∀ c, ReflTransGen (Goes step) a c → ∃ x, step c x) (distinct : NoReturn step a) : ∃ b, Stops step a b := by
  have places : Finite {c | ReflTransGen (Goes step) a c} := finite
  let Later (c d : {c | ReflTransGen (Goes step) a c}) : Prop := TransGen (Goes step) d.val c.val
  have transitive : IsTrans _ Later := ⟨fun _ _ _ first second => TransGen.trans second first⟩
  have irreflexive : Std.Irrefl Later := ⟨fun c back => distinct c.val c.property back⟩
  have founded : WellFounded Later := Finite.wellFounded_of_trans_of_irrefl Later
  have each : ∀ c : {c | ReflTransGen (Goes step) a c}, ∃ b, Stops step c.val b := by
    intro c
    induction c using founded.induction with
    | _ c ih =>
      obtain ⟨x,here⟩ := answers c.val c.property
      cases x with
      | inl b => exact ⟨b,c.val,.refl,here⟩
      | inr next =>
        obtain ⟨b,last,path,stop⟩ := ih ⟨next,.tail c.property here⟩ (.single here)
        exact ⟨b,last,.head here path,stop⟩
  exact each ⟨a,.refl⟩

theorem loopAnswers (lasting : ∀ a, Lasting fun n => body n a) (steps : ∀ a x, Gives (fun n => body n a) x ↔ step a x)
    (finite : {c | ReflTransGen (Goes step) a c}.Finite) :
    Answers (fun n => loop (body n) n a) ↔
      (∀ c, ReflTransGen (Goes step) a c → Answers fun n => body n c) ∧ NoReturn step a := by
  have each : ∀ c, (Answers fun n => body n c) ↔ ∃ x, step c x := fun c =>
    answersIff.trans (exists_congr fun x => steps c x)
  rw [answersIff]
  simp only [loopGives lasting steps,each]
  constructor
  · rintro ⟨b,stops⟩
    exact stopsNoReturn (fun _ _ _ => stepOnly lasting steps) stops
  · rintro ⟨answers,distinct⟩
    exact noReturnStops finite answers distinct

theorem reachFinite {places : Set α} (finite : places.Finite) (start : a ∈ places)
    (closed : ∀ c ∈ places, ∀ d, Goes step c d → d ∈ places) : {c | ReflTransGen (Goes step) a c}.Finite := by
  refine finite.subset fun c reach => ?_
  induction reach with
  | refl => exact start
  | tail _ last ih => exact closed _ ih _ last

theorem numbersFinite {step : Nat → β ⊕ Nat → Prop} (bound : Nat) (small : ∀ c d, Goes step c d → d < bound) (a : Nat) :
    {c | ReflTransGen (Goes step) a c}.Finite :=
  reachFinite ((Set.finite_Iio bound).insert a) (Set.mem_insert _ _) fun c _ d go => Set.mem_insert_of_mem _ (small c d go)

def Steps (body : Nat → α → Option (β ⊕ α)) (a : α) (x : β ⊕ α) : Prop := Gives (fun n => body n a) x

end

section
variable {α β : Type} {body : α → β ⊕ α} {a : α} {b : β}

def Plain (body : α → β ⊕ α) (a : α) (x : β ⊕ α) : Prop := body a = x

theorem plainLasting (body : α → β ⊕ α) (a : α) : Lasting fun n => loop (fun c => some (body c)) n a :=
  loopLasting (fun c => lastingConst (some (body c))) a

theorem plainAnswers (finite : {c | ReflTransGen (Goes (Plain body)) a c}.Finite) :
    Answers (fun n => loop (fun c => some (body c)) n a) ↔ NoReturn (Plain body) a := by
  rw [loopAnswers (fun c => lastingConst (some (body c))) (fun _ _ => givesConst.trans Option.some_inj) finite]
  exact and_iff_right fun c _ => answersConst.2 rfl

/- A loop whose course depends on a part of its state only. -/
theorem plainProject {α' β' : Type} {body' : α' → β' ⊕ α'} (part : α → α')
    (stops : ∀ c b, body c = .inl b → ∃ b', body' (part c) = .inl b') (goes : ∀ c d, body c = .inr d → body' (part c) = .inr (part d))
    (a : α) : Answers (fun n => loop (fun c => some (body c)) n a) ↔ Answers fun n => loop (fun c => some (body' c)) n (part a) := by
  have same : ∀ n a, (loop (fun c => some (body c)) n a).isSome ↔ (loop (fun c => some (body' c)) n (part a)).isSome := by
    intro n
    induction n with
    | zero => intro a; exact Iff.rfl
    | succ n ih =>
      intro a
      unfold loop
      cases here : body a with
      | inl b =>
        obtain ⟨b',there⟩ := stops a b here
        simp [there]
      | inr d => simpa [goes a d here] using ih d
  have some' : ∀ {γ : Type} (f : Nat → Option γ), Answers f ↔ ∃ n, (f n).isSome := fun f =>
    exists_congr fun n => Option.isSome_iff_exists.symm
  rw [some',some']
  exact exists_congr fun n => same n a

end
end Syslinux.Loops
