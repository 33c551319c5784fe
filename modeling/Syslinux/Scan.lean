import Mathlib.Tactic

/-! Scans: a loop that looks at one entry after the other behind a cursor, with what it
remembers, until an entry stops it, the entries are at their end, or a turn goes wrong. A
cursor behind the last entry is an `error`. -/
namespace Syslinux.Scan

inductive Turn (σ ρ : Type) where
  | next (s : σ)
  | stop (r : ρ)
  | fault

inductive Outcome (κ σ ρ : Type) where
  | stopped (k : κ) (r : ρ)
  | ended (k : κ) (s : σ)
  | fault

section
variable {κ ε σ ρ : Type} (entry : κ → ε) (advance : κ → Except κ κ) (turn : σ → ε → Turn σ ρ)

@[grind =] def scan : Nat → Except κ κ → σ → Option (Outcome κ σ ρ)
  | _,.error k,s => some (.ended k s)
  | 0,.ok _,_ => none
  | fuel+1,.ok k,s =>
      match turn s (entry k) with
      | .next s => scan fuel (advance k) s
      | .stop r => some (.stopped k r)
      | .fault => some .fault

@[grind =] def turns : σ → List ε → Turn σ ρ
  | s,[] => .next s
  | s,e::es =>
      match turn s e with
      | .next s => turns s es
      | .stop r => .stop r
      | .fault => .fault

inductive Ahead : Except κ κ → List ε → Except κ κ → Prop where
  | nil (at' : Except κ κ) : Ahead at' [] at'
  | cons {k : κ} {es : List ε} {at' : Except κ κ} (tail : Ahead (advance k) es at') : Ahead (.ok k) (entry k::es) at'

end

section
variable {κ ε σ ρ : Type} {entry : κ → ε} {advance : κ → Except κ κ} {turn : σ → ε → Turn σ ρ}
variable {at' at₁ at₂ : Except κ κ} {es es' : List ε} {s s' : σ} {k : κ}

theorem aheadAppend (first : Ahead entry advance at' es at₁) (second : Ahead entry advance at₁ es' at₂) :
    Ahead entry advance at' (es ++ es') at₂ := by
  induction first with
  | nil => exact second
  | cons _ ih => exact .cons (ih second)

theorem aheadCut (ahead : Ahead entry advance at' (es ++ es') at₂) :
    ∃ at₁, Ahead entry advance at' es at₁ ∧ Ahead entry advance at₁ es' at₂ := by
  induction es generalizing at' with
  | nil => exact ⟨at',.nil at',ahead⟩
  | cons e es ih =>
    cases ahead with
    | cons tail =>
      obtain ⟨at₁,first,second⟩ := ih tail
      exact ⟨at₁,.cons first,second⟩

def both {κ' : Type} (f : κ → κ') : Except κ κ → Except κ' κ'
  | .ok k => .ok (f k)
  | .error k => .error (f k)

theorem aheadLift {κ' : Type} {entry' : κ' → ε} {advance' : κ' → Except κ' κ'} {f : κ → κ'}
    (same : ∀ k, entry' (f k) = entry k) (moves : ∀ k, advance' (f k) = both f (advance k)) {there : Except κ' κ'}
    (ahead : Ahead entry' advance' (both f at') es there) : ∃ at₁, Ahead entry advance at' es at₁ ∧ both f at₁ = there := by
  induction es generalizing at' with
  | nil =>
    generalize same : both f at' = here at ahead
    cases ahead
    exact ⟨at',.nil at',same⟩
  | cons e es ih =>
    cases at' with
    | error k => cases ahead
    | ok k =>
      cases ahead with
      | cons tail =>
        rw [moves] at tail
        obtain ⟨at₁,lifted,last⟩ := ih tail
        exact ⟨at₁,same k ▸ .cons lifted,last⟩

theorem turnsAppend (through : turns turn s es = .next s') : turns turn s (es ++ es') = turns turn s' es' := by
  induction es generalizing s with
  | nil => cases through; rfl
  | cons e es ih =>
    cases one : turn s e with
    | next t =>
      simp only [turns,one] at through
      simp only [List.cons_append,turns,one]
      exact ih through
    | stop => simp [turns,one] at through
    | fault => simp [turns,one] at through

theorem turnsOne (e : ε) : turns turn s [e] = turn s e := by
  cases one : turn s e <;> simp [turns,one]

theorem scanAhead (ahead : Ahead entry advance at' es at₁) (through : turns turn s es = .next s') (fuel : Nat) :
    scan entry advance turn (es.length + fuel) at' s = scan entry advance turn fuel at₁ s' := by
  induction ahead generalizing s with
  | nil => cases through; rw [List.length_nil,Nat.zero_add]
  | @cons k es _ _ ih =>
    cases one : turn s (entry k) with
    | next t =>
      simp only [turns,one] at through
      rw [List.length_cons,show es.length + 1 + fuel = es.length + fuel + 1 by omega,scan]
      simp only [one]
      exact ih through
    | stop => simp [turns,one] at through
    | fault => simp [turns,one] at through

theorem scanStop {r : ρ} (ahead : Ahead entry advance at' es (.ok k)) (through : turns turn s es = .next s')
    (stop : turn s' (entry k) = .stop r) (fuel : Nat) :
    scan entry advance turn (es.length + (fuel + 1)) at' s = some (.stopped k r) := by
  rw [scanAhead ahead through]
  simp only [scan,stop]

theorem scanEnd (ahead : Ahead entry advance at' es (.error k)) (through : turns turn s es = .next s') (fuel : Nat) :
    scan entry advance turn (es.length + fuel) at' s = some (.ended k s') := by
  rw [scanAhead ahead through]
  simp only [scan]

theorem scanOver (ahead : Ahead entry advance at' es at₁) (s : σ) :
    (∃ s', turns turn s es = .next s') ∨ ∀ fuel, es.length ≤ fuel → scan entry advance turn fuel at' s ≠ none := by
  induction ahead generalizing s with
  | nil => exact .inl ⟨s,rfl⟩
  | @cons k es _ _ ih =>
    cases one : turn s (entry k) with
    | next t =>
      rcases ih t with ⟨s',through⟩ | over'
      · exact .inl ⟨s',by simp only [turns,one,through]⟩
      · refine .inr fun fuel enough => ?_
        cases fuel with
        | zero => contradiction
        | succ fuel =>
          simp only [scan,one]
          exact over' fuel (by simpa using enough)
    | stop r =>
      refine .inr fun fuel enough => ?_
      cases fuel with
      | zero => contradiction
      | succ fuel => simp [scan,one]
    | fault =>
      refine .inr fun fuel enough => ?_
      cases fuel with
      | zero => contradiction
      | succ fuel => simp [scan,one]

theorem scanToEnd (ahead : Ahead entry advance at' es (.error k)) (s : σ) :
    scan entry advance turn es.length at' s ≠ none := by
  have turned : (∃ s', turns turn s es = .next s') ∨ _ := scanOver ahead s
  rcases turned with ⟨s',through⟩ | over'
  · have ends := scanEnd ahead through 0
    rw [Nat.add_zero] at ends
    simp [ends]
  · exact over' _ (Nat.le_refl _)

theorem scanToStop (ahead : Ahead entry advance at' es (.ok k)) (stops : ∀ s, ∃ r, turn s (entry k) = .stop r) (s : σ) :
    scan entry advance turn (es.length + 1) at' s ≠ none := by
  have turned : (∃ s', turns turn s es = .next s') ∨ _ := scanOver ahead s
  rcases turned with ⟨s',through⟩ | over'
  · obtain ⟨r,stop⟩ := stops s'
    simp [scanStop ahead through stop 0]
  · exact over' _ (Nat.le_succ _)

theorem scanFault {fuel : Nat} (fault : scan entry advance turn fuel at' s = some .fault) :
    ∃ es k s', Ahead entry advance at' es (.ok k) ∧ turns turn s es = .next s' ∧ turn s' (entry k) = .fault := by
  induction fuel generalizing at' s with
  | zero => cases at' <;> simp [scan] at fault
  | succ fuel ih =>
    cases at' with
    | error k => simp [scan] at fault
    | ok k =>
      cases one : turn s (entry k) with
      | next t =>
        simp only [scan,one] at fault
        obtain ⟨es,k',s',ahead,through,here⟩ := ih fault
        exact ⟨entry k::es,k',s',.cons ahead,by simp only [turns,one,through],here⟩
      | stop => simp [scan,one] at fault
      | fault => exact ⟨[],k,s,.nil _,rfl,one⟩

theorem turnsKeep {Inv : σ → Prop} (keep : ∀ s e s', Inv s → turn s e = .next s' → Inv s') (start : Inv s)
    (through : turns turn s es = .next s') : Inv s' := by
  induction es generalizing s with
  | nil => cases through; exact start
  | cons e es ih =>
    cases one : turn s e with
    | next t =>
      simp only [turns,one] at through
      exact ih (keep s e t start one) through
    | stop => simp [turns,one] at through
    | fault => simp [turns,one] at through

theorem scanKeeps {Inv : σ → Prop} {Post : ρ → Prop} (keep : ∀ s e s', Inv s → turn s e = .next s' → Inv s')
    (last : ∀ s e r, Inv s → turn s e = .stop r → Post r) (start : Inv s) {fuel : Nat} {outcome : Outcome κ σ ρ}
    (ends : scan entry advance turn fuel at' s = some outcome) :
    (∀ k r, outcome = .stopped k r → Post r) ∧ ∀ k s', outcome = .ended k s' → Inv s' := by
  induction fuel generalizing at' s with
  | zero =>
    cases at' with
    | ok k => contradiction
    | error k =>
      cases ends
      refine ⟨fun _ _ same => by contradiction,fun _ _ same => ?_⟩
      cases same
      exact start
  | succ fuel ih =>
    cases at' with
    | error k =>
      cases ends
      refine ⟨fun _ _ same => by contradiction,fun _ _ same => ?_⟩
      cases same
      exact start
    | ok k =>
      rw [scan] at ends
      cases one : turn s (entry k) with
      | next t =>
        rw [one] at ends
        exact ih (keep s _ t start one) ends
      | stop r =>
        rw [one] at ends
        cases ends
        refine ⟨fun _ _ same => ?_,fun _ _ same => by contradiction⟩
        cases same
        exact last s _ r start one
      | fault =>
        rw [one] at ends
        cases ends
        exact ⟨fun _ _ same => by contradiction,fun _ _ same => by contradiction⟩

theorem turnsPass {Inv : σ → Prop} {Passed : ε → Prop} (pass : ∀ s e, Inv s → Passed e → ∃ s', turn s e = .next s' ∧ Inv s')
    (start : Inv s) (all : ∀ e ∈ es, Passed e) : ∃ s', turns turn s es = .next s' ∧ Inv s' := by
  induction es generalizing s with
  | nil => exact ⟨s,rfl,start⟩
  | cons e es ih =>
    obtain ⟨over',rest⟩ := List.forall_mem_cons.mp all
    obtain ⟨t,one,inv⟩ := pass s e start over'
    obtain ⟨s',more,last⟩ := ih inv rest
    exact ⟨s',by simp only [turns,one,more],last⟩

theorem firstNotPassed (Passed : ε → Prop) (es : List ε) :
    (∀ e ∈ es, Passed e) ∨ ∃ before e behind, es = before ++ e::behind ∧ (∀ e ∈ before, Passed e) ∧ ¬Passed e := by
  induction es with
  | nil => exact .inl (by simp)
  | cons e es ih =>
    by_cases over' : Passed e
    · rcases ih with all | ⟨before,e',behind,rfl,all,stop⟩
      · exact .inl (List.forall_mem_cons.mpr ⟨over',all⟩)
      · exact .inr ⟨e::before,e',behind,rfl,List.forall_mem_cons.mpr ⟨over',all⟩,stop⟩
    · exact .inr ⟨[],e,es,rfl,by simp,over'⟩

/- A scan goes wrong just where a bad entry comes behind entries that are all passed over. -/
theorem faultsIff {Inv : σ → Prop} {Passed Bad : ε → Prop} (bad : ∀ s e, Inv s → Bad e → turn s e = .fault)
    (pass : ∀ s e, Inv s → ¬Bad e → Passed e → ∃ s', turn s e = .next s' ∧ Inv s')
    (stop : ∀ s e, Inv s → ¬Bad e → ¬Passed e → ∃ r, turn s e = .stop r) (start : Inv s) :
    (∃ fuel, scan entry advance turn fuel at' s = some .fault) ↔
      ∃ es k, Ahead entry advance at' es (.ok k) ∧ (∀ e ∈ es, Passed e ∧ ¬Bad e) ∧ Bad (entry k) := by
  have pass' : ∀ s e, Inv s → Passed e ∧ ¬Bad e → ∃ s', turn s e = .next s' ∧ Inv s' :=
    fun s e inv both => pass s e inv both.2 both.1
  -- A turn at any other entry does not lead on.
  have only : ∀ s e s', Inv s → turn s e = .next s' → Passed e ∧ ¬Bad e := by
    intro s e s' inv one
    by_cases wrong : Bad e
    · rw [bad s e inv wrong] at one
      contradiction
    by_cases over' : Passed e
    · exact ⟨over',wrong⟩
    · obtain ⟨r,stops⟩ := stop s e inv wrong over'
      rw [stops] at one
      contradiction
  constructor
  · rintro ⟨fuel,fault⟩
    obtain ⟨es,k,s',ahead,more,here⟩ := scanFault fault
    rcases firstNotPassed (fun e => Passed e ∧ ¬Bad e) es with all | ⟨before,e,behind,rfl,all,stops⟩
    · obtain ⟨t,through,inv⟩ := turnsPass pass' start all
      cases through.symm.trans more
      refine ⟨es,k,ahead,all,?_⟩
      by_contra right
      by_cases over' : Passed (entry k)
      · obtain ⟨t,one,_⟩ := pass s' _ inv right over'
        rw [here] at one
        contradiction
      · obtain ⟨r,one⟩ := stop s' _ inv right over'
        rw [here] at one
        contradiction
    · obtain ⟨t,through,inv⟩ := turnsPass pass' start all
      rw [turnsAppend through] at more
      cases one : turn t e with
      | next t' => exact absurd (only t e t' inv one) stops
      | stop => simp [turns,one] at more
      | fault => simp [turns,one] at more
  · rintro ⟨es,k,ahead,all,wrong⟩
    obtain ⟨s',more,inv⟩ := turnsPass pass' start all
    refine ⟨es.length + 1,?_⟩
    rw [scanAhead ahead more]
    simp only [scan,bad s' _ inv wrong]

end
end Syslinux.Scan
