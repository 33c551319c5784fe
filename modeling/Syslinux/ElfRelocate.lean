import Syslinux.ElfImage

/-! What both versions of resolve_symbols have in common: the dynamic section is gone through once,
the last entry of a tag counts, and tables of relocations are walked one after the other. -/
namespace Syslinux.Elf
open WordMemory

def dtPltrelsz : Nat := 2
def dtRela : Nat := 7
def dtRelasz : Nat := 8
def dtRelaent : Nat := 9
def dtSyment : Nat := 11
def dtRel : Nat := 17
def dtRelsz : Nat := 18
def dtRelent : Nat := 19
def dtPltrel : Nat := 20
def dtJmprel : Nat := 23

/- The tags and values before DT_NULL, in the order they are in. -/
abbrev Dynamic := List (Nat × Nat)

/- A call of perform_relocation: what it leaves of the memory, none inside where it fails. -/
abbrev Effect := Memory → Nat → Option (Option Memory)

abbrev History := List (Nat × Memory)

/- All calls made; one failed or has no result; DT_PLTREL refused; a table whose entries cannot be
counted. -/
inductive Ending
  | done | failed (rel : Nat) | stuck (rel : Nat) | refused | uncounted
  deriving DecidableEq

/- perform_relocation for one entry after the other up to the first that fails. -/
def relocate (effect : Effect) : List Nat → Memory → Ending × History
  | [],_ => (.done,[])
  | rel::rest,mem =>
    match effect mem rel with
    | none => (.stuck rel,[])
    | some none => (.failed rel,[])
    | some (some mem) => ((relocate effect rest mem).1,(rel,mem)::(relocate effect rest mem).2)

def lastMem (mem : Memory) (history : History) : Memory := (history.getLast?.map Prod.snd).getD mem

def walk (effect : Effect) (table : Option (List Nat)) (mem : Memory) (next : Memory → Ending × History) :
    Ending × History :=
  match table with
  | none => (.uncounted,[])
  | some entries =>
    let r := relocate effect entries mem
    if r.1 = .done then ((next (lastMem mem r.2)).1,r.2 ++ (next (lastMem mem r.2)).2) else r

/- The entries of a table of size bytes. The divisor may be 0, and the counter has 32 bits. -/
def entriesOf (bits size entry table : Nat) : Option (List Nat) :=
  if size = 0 then some []
  else if entry = 0 ∨ 2^32 ≤ size / entry then none
  else some ((List.range (size / entry)).map fun i => (table + i*entry) % 2^bits)

def AtEach (effect : Effect) (holds : Memory → Nat → Prop) : List Nat → Memory → Prop
  | [],_ => True
  | rel::rest,mem => holds mem rel ∧ ∀ mem', effect mem rel = some (some mem') → AtEach effect holds rest mem'

/- The history that is asked for: an entry of a known type is served when its turn comes, one of
another type asks for nothing. -/
def asked (spec : Effect) (known : Memory → Nat → Bool) : List Nat → Memory → Option History
  | [],_ => some []
  | rel::rest,mem =>
    if known mem rel then
      match spec mem rel with
      | some (some mem') => (asked spec known rest mem').map ((rel,mem')::·)
      | _ => none
    else asked spec known rest mem

/- A condition on every call for an entry of a known type, each of which can be served; behind an
entry of another type there is none. -/
def Ready (spec : Effect) (known : Memory → Nat → Bool) (holds : Memory → Nat → Prop) : List Nat → Memory → Prop
  | [],_ => True
  | rel::rest,mem =>
    if known mem rel then
      holds mem rel ∧ ∃ mem', spec mem rel = some (some mem') ∧ Ready spec known holds rest mem'
    else ∀ other ∈ rest, known mem other = false

section
variable {effect spec : Effect} {holds : Memory → Nat → Prop} {entries more : List Nat} {mem : Memory}

theorem lastCons (rel : Nat) (mem' : Memory) (history : History) :
    lastMem mem ((rel,mem')::history) = lastMem mem' history := by
  cases history with
  | nil => rfl
  | cons h t => simp [lastMem,List.getLast?_cons]

variable {known : Memory → Nat → Bool}

theorem askedNone : asked spec known entries mem = some [] ↔ ∀ rel ∈ entries, known mem rel = false := by
  induction entries with
  | nil => simp [asked]
  | cons rel rest ih =>
    rw [asked]
    by_cases knows : known mem rel
    · simp only [knows,if_true,List.forall_mem_cons,Bool.true_eq_false,false_and,iff_false]
      split
      · simp
      · simp
    · simpa [knows] using ih

theorem readyIdle (unknown : ∀ rel ∈ entries, known mem rel = false) : Ready spec known holds entries mem := by
  cases entries with
  | nil => trivial
  | cons rel rest =>
    rw [Ready,if_neg (by simp [unknown])]
    exact fun other inside => unknown other (List.mem_cons_of_mem _ inside)

theorem relocateFails {rel : Nat} (fails : ∀ mem', effect mem rel ≠ some (some mem')) :
    (relocate effect (rel::entries) mem).2 = [] ∧ (relocate effect (rel::entries) mem).1 ≠ .done := by
  rw [relocate]
  cases called : effect mem rel with
  | none => simp
  | some r =>
    cases r with
    | none => simp
    | some mem' => exact absurd called (fails mem')

theorem relocateFirst {rel : Nat} {call : Nat × Memory} {calls : History}
    (called : (relocate effect (rel::entries) mem).2 = call::calls) : call.1 = rel := by
  rw [relocate] at called
  split at called
  · cases called
  · cases called
  · cases called
    rfl

theorem askedMem {history : History} (found : asked spec known entries mem = some history) :
    ∀ call ∈ history, call.1 ∈ entries := by
  induction entries generalizing mem history with
  | nil =>
    cases found
    simp
  | cons rel rest ih =>
    rw [asked] at found
    split at found
    · split at found
      · obtain ⟨later,onward,rfl⟩ := Option.map_eq_some_iff.mp found
        intro call inside
        rcases List.mem_cons.mp inside with rfl | inside
        · exact List.mem_cons_self
        · exact List.mem_cons_of_mem _ (ih onward call inside)
      · cases found
    · exact fun call inside => List.mem_cons_of_mem _ (ih found call inside)

/- One history is the other's exactly where every call of a known type does the same; here over the
entries they have in common. -/
theorem askedPrefix {other : List Nat} {beyond : Memory → Prop}
    (same : ∀ mem rel, effect mem rel = spec mem rel ↔ holds mem rel)
    (fails : ∀ mem rel, known mem rel = false → ∀ mem', effect mem rel ≠ some (some mem'))
    (failsSpec : ∀ mem rel, known mem rel = false → ∀ mem', spec mem rel ≠ some (some mem'))
    (tail : ∀ mem, asked spec known more mem = some (relocate effect other mem).2 ↔
      Ready spec known holds more mem ∧ beyond mem) :
    asked spec known (entries ++ more) mem = some (relocate effect (entries ++ other) mem).2 ↔
      Ready spec known holds (entries ++ more) mem ∧
        ((relocate spec entries mem).1 = .done → beyond (lastMem mem (relocate spec entries mem).2)) := by
  induction entries generalizing mem with
  | nil => simpa [relocate,lastMem] using tail mem
  | cons rel rest ih =>
    rw [List.cons_append,List.cons_append,asked,Ready]
    cases knows : known mem rel with
    | false =>
      rw [(relocateFails (fails mem rel knows)).1]
      simp only [Bool.false_eq_true,if_false,(relocateFails (failsSpec mem rel knows)).2,false_implies,and_true]
      exact askedNone
    | true =>
      rw [← same]
      cases right : spec mem rel with
      | none => simp
      | some r =>
        cases r with
        | none => simp
        | some mem2 =>
          simp only [if_true,relocate,right,Option.some.injEq,exists_eq_left',lastCons]
          cases left : effect mem rel with
          | none => simp
          | some l =>
            cases l with
            | none => simp
            | some mem1 =>
              simp only [Option.some.injEq,Option.map_eq_some_iff,List.cons.injEq,Prod.mk.injEq,true_and]
              constructor
              · rintro ⟨history,found,rfl,rfl⟩
                obtain ⟨ready,onward⟩ := ih.mp found
                exact ⟨⟨rfl,ready⟩,onward⟩
              · rintro ⟨⟨rfl,ready⟩,onward⟩
                exact ⟨_,ih.mpr ⟨ready,onward⟩,rfl,rfl⟩

theorem askedIff (same : ∀ mem rel, effect mem rel = spec mem rel ↔ holds mem rel)
    (fails : ∀ mem rel, known mem rel = false → ∀ mem', effect mem rel ≠ some (some mem'))
    (failsSpec : ∀ mem rel, known mem rel = false → ∀ mem', spec mem rel ≠ some (some mem')) :
    asked spec known entries mem = some (relocate effect entries mem).2 ↔ Ready spec known holds entries mem := by
  have tail (mem : Memory) : asked spec known [] mem = some (relocate effect [] mem).2 ↔
      Ready spec known holds [] mem ∧ True := by simp [asked,Ready,relocate]
  have whole : asked spec known (entries ++ []) mem = some (relocate effect (entries ++ []) mem).2 ↔ _ :=
    askedPrefix same fails failsSpec tail
  simpa using whole

theorem doneCalls (done : (relocate effect entries mem).1 = .done) :
    (relocate effect entries mem).2.map Prod.fst = entries := by
  induction entries generalizing mem with
  | nil => rfl
  | cons rel rest ih =>
    rw [relocate] at done ⊢
    cases called : effect mem rel with
    | none => rw [called] at done; cases done
    | some r =>
      cases r with
      | none => rw [called] at done; cases done
      | some mem' =>
        rw [called] at done
        simp only [List.map_cons]
        rw [ih done]

theorem doneIff : (relocate effect entries mem).1 = .done ↔
    AtEach effect (fun mem rel => ∃ mem', effect mem rel = some (some mem')) entries mem := by
  induction entries generalizing mem with
  | nil => simp [relocate,AtEach]
  | cons rel rest ih =>
    rw [relocate,AtEach]
    cases called : effect mem rel with
    | none => simp
    | some r =>
      cases r with
      | none => simp
      | some mem' => simpa using ih

theorem callsDone (all : (relocate effect entries mem).2.length = entries.length) :
    (relocate effect entries mem).1 = .done := by
  induction entries generalizing mem with
  | nil => rfl
  | cons rel rest ih =>
    rw [relocate] at all ⊢
    cases called : effect mem rel with
    | none => simp [called] at all
    | some r =>
      cases r with
      | none => simp [called] at all
      | some mem' =>
        simp only [called,List.length_cons,Nat.add_right_cancel_iff] at all
        exact ih all

theorem atEachSame {other : Memory → Nat → Prop} (same : ∀ mem rel, holds mem rel ↔ other mem rel) :
    AtEach effect holds entries mem ↔ AtEach effect other entries mem := by
  have eq : holds = other := by
    funext mem rel
    exact propext (same mem rel)
  rw [eq]

theorem walkRelocate : walk effect (some entries) mem (relocate effect more) = relocate effect (entries ++ more) mem := by
  induction entries generalizing mem with
  | nil => simp [walk,relocate,lastMem]
  | cons rel rest ih =>
    rw [List.cons_append,relocate]
    cases called : effect mem rel with
    | none => simp [walk,relocate,called]
    | some r =>
      cases r with
      | none => simp [walk,relocate,called]
      | some mem' =>
        simp only [← ih,walk]
        simp only [relocate,called,lastCons]
        split <;> rfl

theorem walkDone : walk effect (some entries) mem (fun _ => (.done,[])) = relocate effect entries mem := by
  rw [← List.append_nil entries,← walkRelocate,List.append_nil]
  rfl

theorem countable {bits size stride table : Nat} (small : size < 2^32) (pos : 0 < stride) :
    entriesOf bits size stride table = some ((List.range (size / stride)).map fun i => (table + i*stride) % 2^bits) := by
  have count := Nat.div_le_self size stride
  by_cases empty : size = 0
  · simp [entriesOf,empty]
  · rw [entriesOf,if_neg empty,if_neg (by omega)]

theorem absoluteSame {bits a b : Nat} {m : Image} :
    moduleGetAbsolute bits a m % 2^bits = moduleGetAbsolute bits b m % 2^bits ↔ a % 2^bits = b % 2^bits := by
  rw [moduleGetAbsolute,moduleGetAbsolute,Nat.mod_mod,Nat.mod_mod]
  exact ⟨Nat.ModEq.add_left_cancel' m.baseAddr,Nat.ModEq.add_left m.baseAddr⟩

def lastOf (tags : List Nat) (dyn : Dynamic) : Option (Nat × Nat) := (dyn.filter (·.1 ∈ tags)).getLast?

/- A member that is only set at these tags has the value of the last of them. -/
theorem lastSets {σ : Type} (step : σ → Nat × Nat → σ) (member : σ → Nat) (value : Nat → Nat) (tags : List Nat)
    (sets : ∀ t e, member (step t e) = if e.1 ∈ tags then value e.2 else member t) (dyn : Dynamic) (t : σ) :
    member (dyn.foldl step t) = ((lastOf tags dyn).map fun e => value e.2).getD (member t) := by
  induction dyn using List.reverseRecOn with
  | nil => rfl
  | append_singleton before e ih =>
    rw [List.foldl_append,List.foldl_cons,List.foldl_nil,lastOf,List.filter_append,sets]
    by_cases tagged : e.1 ∈ tags
    · rw [if_pos tagged,List.filter_singleton]
      simp [tagged]
    · rw [if_neg tagged,ih,List.filter_singleton]
      simp [tagged,lastOf]

theorem lastFilter {tags all : List Nat} {dyn whole : Dynamic} (perm : (dyn.filter (·.1 ∈ all)).Perm whole)
    (sub : tags ⊆ all) : (dyn.filter (·.1 ∈ tags)).Perm (whole.filter (·.1 ∈ tags)) := by
  have part := perm.filter (·.1 ∈ tags)
  rw [List.filter_filter] at part
  have same : dyn.filter (·.1 ∈ tags) = dyn.filter fun e => decide (e.1 ∈ tags) && decide (e.1 ∈ all) := by
    refine List.filter_congr fun e _ => ?_
    by_cases tagged : e.1 ∈ tags
    · simp [tagged,sub tagged]
    · simp [tagged]
  rwa [same]

theorem lastIs {tags all : List Nat} {dyn whole : Dynamic} {found : Option (Nat × Nat)}
    (perm : (dyn.filter (·.1 ∈ all)).Perm whole) (sub : tags ⊆ all)
    (one : whole.filter (·.1 ∈ tags) = found.toList) : lastOf tags dyn = found := by
  have part := lastFilter perm sub
  rw [one] at part
  cases found with
  | none =>
    rw [lastOf,List.perm_nil.mp part]
    rfl
  | some e =>
    rw [lastOf,List.perm_singleton.mp part]
    rfl

theorem lastIsSet {σ : Type} {step : σ → Nat × Nat → σ} {member : σ → Nat} {all : List Nat} {dyn whole : Dynamic} {t : σ}
    {v : Nat} (value : Nat → Nat) (tags : List Nat) (found : Option (Nat × Nat))
    (sets : ∀ t e, member (step t e) = if e.1 ∈ tags then value e.2 else member t)
    (perm : (dyn.filter (·.1 ∈ all)).Perm whole) (sub : tags ⊆ all) (one : whole.filter (·.1 ∈ tags) = found.toList)
    (gives : (found.map fun e => value e.2).getD (member t) = v) : member (dyn.foldl step t) = v := by
  rw [lastSets step member value tags sets,lastIs perm sub one,gives]

theorem lastTwo (tags : List Nat) {all : List Nat} {dyn whole : Dynamic} {e e' : Nat × Nat}
    (perm : (dyn.filter (·.1 ∈ all)).Perm whole) (sub : tags ⊆ all) (two : whole.filter (·.1 ∈ tags) = [e,e']) :
    lastOf tags dyn = some e ∨ lastOf tags dyn = some e' := by
  have part := lastFilter perm sub
  rw [two] at part
  obtain ⟨x,y,both⟩ := List.length_eq_two.mp part.length_eq
  have last : y ∈ [e,e'] := part.subset (by rw [both]; simp)
  rw [lastOf,both]
  simpa using last

end
end Syslinux.Elf
