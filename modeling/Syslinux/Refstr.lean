import Mathlib.Tactic

/-! com32/elflink/ldlinux/refstr.c and com32/include/refstr.h, the reference-counted strings, for a program that keeps
its pointers in slots of any kind. A statement that would write outside a string that is alive fails. -/
namespace Syslinux.Refstr

structure Pointer where
  string : Nat
  offset : Nat
  deriving DecidableEq, Repr

/- The count of each string that was allocated, and the pointer in each slot that is not NULL. -/
structure Refs (S : Type) where
  count : Nat → Nat
  next : Nat
  held : List (S × Pointer)

/- alloc is any of refstr_alloc, refstrdup, refstrndup and rsprintf, with what they return put into s. get is
s = refstr_get(t); move is s = t where t is not used any more; advance is s += n. -/
inductive Stmt (S : Type) where
  | alloc (s : S)
  | get (s t : S)
  | put (s : S)
  | null (s : S)
  | move (s t : S)
  | advance (s : S) (n : Nat)
  deriving DecidableEq, Repr

/- What happens between two states that count: the statements of one assignment. -/
abbrev Program (S : Type) := List (List (Stmt S))

section
variable {S : Type} [DecidableEq S]

def lookup (r : Refs S) (s : S) : Option Pointer := r.held.lookup s

def drop (s : S) (r : Refs S) : Refs S := { r with held := r.held.filter fun h => h.1 ≠ s }

def store (s : S) (p : Option Pointer) (r : Refs S) : Refs S :=
  { r with held := (p.toList.map fun p => (s,p)) ++ (drop s r).held }

def recount (n : Nat) (f : Nat → Nat) (r : Refs S) : Refs S :=
  { r with count := Function.update r.count n (f (r.count n)) }

def alive (r : Refs S) (p : Pointer) : Prop := p.offset = 0 ∧ r.count p.string ≠ 0

instance (r : Refs S) (p : Pointer) : Decidable (alive r p) := inferInstanceAs (Decidable (_ ∧ _))

def refstrAlloc (r : Refs S) : Option Pointer × Refs S :=
  (some ⟨r.next,0⟩,{ recount r.next (fun _ => 1) r with next := r.next + 1 })

def refstrGet (r : Refs S) : Option Pointer → Option (Refs S)
  | none => some r
  | some p => if alive r p then some (recount p.string (· + 1) r) else none

def refstrPut (r : Refs S) : Option Pointer → Option (Refs S)
  | none => some r
  | some p => if alive r p then some (recount p.string (· - 1) r) else none

def step : Stmt S → Refs S → Option (Refs S)
  | .alloc s,r => some (store s (refstrAlloc r).1 (refstrAlloc r).2)
  | .get s t,r => (refstrGet r (lookup r t)).map (store s (lookup r t))
  | .put s,r => refstrPut r (lookup r s)
  | .null s,r => some (drop s r)
  | .move s t,r => some (store s (lookup r t) (drop t r))
  | .advance s n,r =>
      some { r with held := r.held.map fun h => if h.1 = s then (s,⟨h.2.string,h.2.offset + n⟩) else h }

def run : List (Stmt S) → Refs S → Option (Refs S)
  | [],r => some r
  | c::cs,r => (step c r).bind (run cs)

/- No statement fails, and P holds before the program, after it and between any two of its assignments. -/
def Stays (P : Refs S → Prop) : Program S → Refs S → Prop
  | [],r => P r
  | b::bs,r => P r ∧ match run b r with
      | none => False
      | some r' => Stays P bs r'

def holders (r : Refs S) (n : Nat) : Nat := r.held.countP fun h => h.2.string = n

/- Every slot holds the start of a string, and every string counts the slots that hold it. -/
structure Balanced (r : Refs S) : Prop where
  unique : (r.held.map Prod.fst).Nodup
  start : ∀ h ∈ r.held, h.2.offset = 0
  counted : ∀ n, r.count n = holders r n
  fresh : ∀ n, r.next ≤ n → r.count n = 0

/- All slots are NULL. -/
def empty : Refs S := ⟨fun _ => 0,0,[]⟩

omit [DecidableEq S] in
theorem emptyBalanced : Balanced (empty : Refs S) := ⟨by simp [empty],by simp [empty],fun _ => rfl,fun _ _ => rfl⟩

variable {r r' : Refs S} {s t : S} {p : Pointer}

omit [DecidableEq S] in
theorem heldCount (b : Balanced r) {h : S × Pointer} (held : h ∈ r.held) : r.count h.2.string ≠ 0 := by
  rw [b.counted]
  exact Nat.ne_of_gt (List.countP_pos_iff.mpr ⟨h,held,by simp⟩)

omit [DecidableEq S] in
theorem heldNext (b : Balanced r) {h : S × Pointer} (held : h ∈ r.held) : h.2.string < r.next := by
  by_contra after
  exact heldCount b held (b.fresh h.2.string (by omega))

theorem lookupNone : lookup r s = none ↔ ∀ h ∈ r.held, h.1 ≠ s := by
  simp only [lookup,List.lookup_eq_none_iff,bne_iff_ne]
  exact ⟨fun none h held same => none h held same.symm,fun none h held same => none h held same.symm⟩

theorem lookupMem (found : lookup r s = some p) : (s,p) ∈ r.held := by
  obtain ⟨a,c,same,_⟩ := List.lookup_eq_some_iff.mp found
  simp [same]

theorem dropNone (missing : lookup r s = none) : drop s r = r := by
  have all : r.held.filter (fun h => h.1 ≠ s) = r.held :=
    List.filter_eq_self.mpr fun h held => by simpa using lookupNone.1 missing h held
  simp only [drop,all]

theorem dropTwice (s : S) (r : Refs S) : drop s (drop s r) = drop s r := by
  simp [drop,List.filter_filter]

theorem lookupDrop (r : Refs S) (s : S) : lookup (drop s r) s = none :=
  lookupNone.2 fun h held => by simpa using (List.mem_filter.mp held).2

theorem lookupDropOther (r : Refs S) (other : t ≠ s) : lookup (drop s r) t = lookup r t := by
  have same (held : List (S × Pointer)) : (held.filter fun h => decide (h.1 ≠ s)).lookup t = held.lookup t := by
    induction held with
    | nil => rfl
    | cons h held ih =>
      obtain ⟨k,q⟩ := h
      by_cases key : k = s
      · have no : (t == k) = false := by simpa [key] using other
        rw [List.filter_cons_of_neg (by simpa using key),ih,List.lookup_cons,no]
      · rw [List.filter_cons_of_pos (by simpa using key),List.lookup_cons,List.lookup_cons,ih]
  exact same r.held

theorem lookupStoreOther (r : Refs S) (o : Option Pointer) (other : t ≠ s) : lookup (store s o r) t = lookup r t := by
  cases o with
  | none => exact lookupDropOther r other
  | some p =>
    have no : (t == s) = false := by simpa using other
    have behind : lookup (store s (some p) r) t = lookup (drop s r) t := by
      simp [lookup,store,List.lookup_cons,no]
    rw [behind,lookupDropOther r other]

theorem storeDrop (o : Option Pointer) : store s o (drop s r) = store s o r := by
  simp only [store,dropTwice]
  rfl

theorem heldSplit (unique : (r.held.map Prod.fst).Nodup) (found : lookup r s = some p) :
    ∃ a c, r.held = a ++ (s,p)::c ∧ (drop s r).held = a ++ c := by
  obtain ⟨a,c,same,before⟩ := List.lookup_eq_some_iff.mp found
  refine ⟨a,c,same,?_⟩
  rw [same,List.map_append,List.map_cons,List.nodup_append,List.nodup_cons] at unique
  have first : a.filter (fun h => decide (h.1 ≠ s)) = a :=
    List.filter_eq_self.mpr fun h inside => by simpa using (bne_iff_ne.mp (before h inside)).symm
  have last : c.filter (fun h => decide (h.1 ≠ s)) = c :=
    List.filter_eq_self.mpr fun h inside => by
      simpa using fun key : h.1 = s => unique.2.1.1 (List.mem_map.mpr ⟨h,inside,key⟩)
  simp only [drop,same,List.filter_append,first,List.filter_cons,last]
  simp

theorem balancedDrop (b : Balanced r) (found : lookup r s = some p) :
    alive r p ∧ Balanced (drop s (recount p.string (· - 1) r)) := by
  have held := lookupMem found
  obtain ⟨a,c,same,rest⟩ := heldSplit b.unique found
  have holder (n : Nat) : holders r n = holders (drop s r) n + if p.string = n then 1 else 0 := by
    simp only [holders,same,rest,List.countP_append,List.countP_cons]
    simp [Nat.add_assoc]
  refine ⟨⟨b.start _ held,heldCount b held⟩,b.unique.sublist (List.filter_sublist.map _),
    fun h inside => b.start h (List.mem_filter.mp inside).1,fun n => ?_,fun n after => ?_⟩
  · have now := holder n
    rw [← b.counted] at now
    by_cases string : p.string = n
    · subst string
      simp [drop,recount,holders,now]
    · simpa [drop,recount,holders,string,Function.update_of_ne (Ne.symm string)] using now
  · have gone := heldNext b held
    have other : n ≠ p.string := fun eq => by subst eq; exact absurd gone (by simpa [drop,recount] using after)
    simpa [drop,recount,Function.update_of_ne other] using b.fresh n after

theorem balancedStore (b : Balanced r) (missing : lookup r s = none) {n : Nat} (known : n < r.next) :
    Balanced (store s (some ⟨n,0⟩) (recount n (· + 1) r)) := by
  have same : (drop s (recount n (· + 1) r)).held = r.held := (congrArg Refs.held (dropNone missing) :)
  refine ⟨?_,fun h inside => ?_,fun k => ?_,fun k after => ?_⟩
  · simp only [store,same,Option.toList_some,List.map_cons,List.map_nil,List.singleton_append,List.nodup_cons]
    exact ⟨fun inside => by
      obtain ⟨h,held,key⟩ := List.mem_map.mp inside
      exact lookupNone.1 missing h held key,b.unique⟩
  · simp only [store,same,Option.toList_some,List.map_cons,List.map_nil,List.singleton_append,List.mem_cons] at inside
    rcases inside with rfl | inside
    · rfl
    · exact b.start h inside
  · have before := b.counted k
    simp only [holders,store,same,Option.toList_some,List.map_cons,List.map_nil,List.singleton_append,List.countP_cons]
    by_cases string : n = k
    · subst string
      simpa [recount,holders] using before
    · simpa [recount,holders,string,Function.update_of_ne (Ne.symm string)] using before
  · have other : k ≠ n := fun eq => by subst eq; exact absurd known (by simpa [store,recount] using after)
    simpa [store,recount,Function.update_of_ne other] using b.fresh k after

/- A slot may be written without its old pointer being given back when it is known to hold none. -/
structure Sound (E : Set S) (r : Refs S) : Prop where
  balanced : Balanced r
  vacant : ∀ s ∈ E, lookup r s = none

/- What holds before and after a program, with nothing going wrong in between. -/
def Keeps (E : Set S) (bs : Program S) (E' : Set S) : Prop :=
  ∀ r, Sound E r → Stays Balanced bs r ∧ ∃ r', run bs.flatten r = some r' ∧ Sound E' r'

def Assigns (E : Set S) (b : List (Stmt S)) (E' : Set S) : Prop :=
  ∀ r, Sound E r → ∃ r', run b r = some r' ∧ Sound E' r'

variable {E E' E'' : Set S} {b c : List (Stmt S)} {bs cs : Program S}

theorem runAppend (b c : List (Stmt S)) (r : Refs S) : run (b ++ c) r = (run b r).bind (run c) := by
  induction b generalizing r with
  | nil => rfl
  | cons d b ih =>
    simp only [List.cons_append,run]
    cases step d r with
    | none => rfl
    | some r' => exact ih r'

theorem staysAppend {P : Refs S → Prop} (bs cs : Program S) (r : Refs S) : Stays P (bs ++ cs) r ↔
    Stays P bs r ∧ ∀ r', run bs.flatten r = some r' → Stays P cs r' := by
  induction bs generalizing r with
  | nil =>
    refine ⟨fun stays => ⟨?_,fun r' same => Option.some.inj same ▸ stays⟩,fun stays => stays.2 r rfl⟩
    cases cs with
    | nil => exact stays
    | cons c cs => exact stays.1
  | cons b bs ih =>
    simp only [List.cons_append,Stays,List.flatten_cons,runAppend]
    cases run b r with
    | none => simp
    | some r' => simp [ih,and_assoc]

theorem Keeps.weaken (keeps : Keeps E bs E') (less : E'' ⊆ E') : Keeps E bs E'' := fun r sound =>
  ⟨(keeps r sound).1,(keeps r sound).2.imp fun _ after => ⟨after.1,after.2.balanced,fun s inside => after.2.vacant s (less inside)⟩⟩

theorem keepsNil (E : Set S) : Keeps E [] E := fun r sound => ⟨sound.balanced,r,rfl,sound⟩

theorem Keeps.append (first : Keeps E bs E') (second : Keeps E' cs E'') : Keeps E (bs ++ cs) E'' := fun r sound => by
  obtain ⟨stays,r',ran,sound'⟩ := first r sound
  obtain ⟨stays',r'',ran',sound''⟩ := second r' sound'
  refine ⟨(staysAppend bs cs r).mpr ⟨stays,fun q same => ?_⟩,r'',?_,sound''⟩
  · exact Option.some.inj (ran.symm.trans same) ▸ stays'
  · rw [List.flatten_append,runAppend,ran]
    exact ran'

theorem Assigns.keeps (assigns : Assigns E b E') : Keeps E [b] E' := fun r sound => by
  obtain ⟨r',ran,sound'⟩ := assigns r sound
  refine ⟨⟨sound.balanced,?_⟩,r',by simpa using ran,sound'⟩
  simp only [ran,Stays]
  exact sound'.balanced

theorem Assigns.cons (assigns : Assigns E b E') (rest : Keeps E' bs E'') : Keeps E (b::bs) E'' :=
  assigns.keeps.append rest

theorem Keeps.each {α : Type} {l : List α} {f : α → Program S} (one : ∀ a ∈ l, Keeps E (f a) E) : Keeps E (l.flatMap f) E := by
  induction l with
  | nil => exact keepsNil E
  | cons a l ih =>
    exact (one a List.mem_cons_self).append (ih fun a inside => one a (List.mem_cons_of_mem _ inside))

theorem soundStore {r : Refs S} {n : Nat} (sound : Sound E r) (inside : s ∈ E) (known : n < r.next) :
    Sound (E \ {s}) (store s (some ⟨n,0⟩) (recount n (· + 1) r)) where
  balanced := balancedStore sound.balanced (sound.vacant s inside) known
  vacant t other := by
    rw [lookupStoreOther _ _ other.2]
    exact sound.vacant t other.1

theorem soundDrop {r : Refs S} {p : Pointer} (sound : Sound E r) (found : lookup r s = some p) :
    Sound (insert s E) (drop s (recount p.string (· - 1) r)) where
  balanced := (balancedDrop sound.balanced found).2
  vacant t inside := by
    by_cases same : t = s
    · rw [same,lookupDrop]
    · rw [lookupDropOther _ same]
      exact sound.vacant t (inside.resolve_left same)

theorem soundLess {r : Refs S} (sound : Sound E r) (less : E' ⊆ E) : Sound E' r :=
  ⟨sound.balanced,fun s inside => sound.vacant s (less inside)⟩

theorem assignsAlloc (inside : s ∈ E) : Assigns E [.alloc s] (E \ {s}) := fun r sound => by
  have new : recount r.next (fun _ => 1) r = recount r.next (· + 1) r := by
    simp [recount,sound.balanced.fresh r.next le_rfl]
  have grown : Sound E { r with next := r.next + 1 } :=
    ⟨⟨sound.balanced.unique,sound.balanced.start,sound.balanced.counted,
      fun n after => sound.balanced.fresh n (Nat.le_of_succ_le after)⟩,sound.vacant⟩
  refine ⟨_,rfl,?_⟩
  have made := soundStore grown inside (Nat.lt_succ_self r.next)
  simp only [refstrAlloc,new]
  exact made

theorem assignsGet (inside : s ∈ E) : Assigns E [.get s t] (E \ {s}) := fun r sound => by
  simp only [run,step,Option.bind_fun_some,refstrGet]
  cases found : lookup r t with
  | none =>
    refine ⟨r,?_,soundLess sound Set.sdiff_subset⟩
    simp [store,dropNone (sound.vacant s inside)]
  | some p =>
    have held := lookupMem found
    have start : p.offset = 0 := sound.balanced.start _ held
    have live : alive r p := ⟨start,heldCount sound.balanced held⟩
    have made := soundStore sound inside (heldNext sound.balanced held)
    refine ⟨store s (some p) (recount p.string (· + 1) r),by simp only [live,if_true,Option.map_some],?_⟩
    have same : (⟨p.string,0⟩ : Pointer) = p := by rw [← start]
    exact same ▸ made

theorem assignsNull (inside : s ∈ E) : Assigns E [.null s] E := fun r sound =>
  ⟨drop s r,rfl,(dropNone (sound.vacant s inside)).symm ▸ sound⟩

theorem assignsMove (inside : s ∈ E) (other : t ≠ s) : Assigns E [.move s t] (insert t (E \ {s})) := fun r sound => by
  simp only [run,step,Option.bind_fun_some]
  refine ⟨_,rfl,?_⟩
  cases found : lookup r t with
  | none =>
    have same : store s none (drop t r) = r := by
      rw [dropNone found]
      exact dropNone (sound.vacant s inside)
    rw [same]
    exact ⟨sound.balanced,fun q => fun
      | .inl eq => eq ▸ found
      | .inr mem => sound.vacant q mem.1⟩
  | some p =>
    have held := lookupMem found
    have start : p.offset = 0 := sound.balanced.start _ held
    have taken := soundDrop sound found
    have made := soundStore taken (Set.mem_insert_of_mem t inside) (heldNext sound.balanced held)
    have back : recount p.string (· + 1) (recount p.string (· - 1) r) = r := by
      have counts : r.count p.string - 1 + 1 = r.count p.string :=
        Nat.sub_add_cancel (Nat.pos_of_ne_zero (heldCount sound.balanced held))
      simp [recount,counts]
    have same : store s (some ⟨p.string,0⟩) (recount p.string (· + 1) (drop t (recount p.string (· - 1) r))) =
        store s (some p) (drop t r) := by
      have both : recount p.string (· + 1) (drop t (recount p.string (· - 1) r)) =
          drop t (recount p.string (· + 1) (recount p.string (· - 1) r)) := rfl
      rw [both,back,show (⟨p.string,0⟩ : Pointer) = p from by rw [← start]]
    rw [same] at made
    exact soundLess made fun q => fun
      | .inl eq => ⟨.inl eq,fun key => other (eq.symm.trans key)⟩
      | .inr mem => ⟨.inr mem.1,mem.2⟩

def Overwrites (s : S) (b : List (Stmt S)) : Prop := ∀ r, run b (drop s r) = run b r

theorem assignsPut (first : Overwrites s b) (assigns : Assigns (insert s E) b E') : Assigns E (.put s::b) E' := fun r sound => by
  simp only [run,step,refstrPut]
  cases found : lookup r s with
  | none =>
    exact assigns r ⟨sound.balanced,fun q => fun
      | .inl eq => eq ▸ found
      | .inr inside => sound.vacant q inside⟩
  | some p =>
    simp only [(balancedDrop sound.balanced found).1,if_true,Option.bind_some]
    rw [← first]
    exact assigns _ (soundDrop sound found)

theorem overAlloc : Overwrites s [.alloc s] := fun r => congrArg some (storeDrop (r := (refstrAlloc r).2) _)

theorem overGet (other : t ≠ s) : Overwrites s [.get s t] := fun r => by
  simp only [run,step,Option.bind_fun_some,lookupDropOther r other,refstrGet]
  cases lookup r t with
  | none => exact congrArg some (storeDrop _)
  | some p =>
    have same : alive (drop s r) p ↔ alive r p := Iff.rfl
    by_cases live : alive r p
    · simp only [same.2 live,live,if_true,Option.map_some]
      exact congrArg some (storeDrop (r := recount p.string (· + 1) r) _)
    · simp only [mt same.1 live,live,if_false]

theorem overNull : Overwrites s [.null s] := fun r => congrArg some (dropTwice s r)

theorem dropComm (s t : S) (r : Refs S) : drop s (drop t r) = drop t (drop s r) := by
  simp [drop,List.filter_filter,Bool.and_comm]

theorem overMove (other : t ≠ s) : Overwrites s [.move s t] := fun r => by
  simp only [run,step,Option.bind_fun_some,lookupDropOther r other]
  rw [dropComm,storeDrop]

theorem putAlloc (s : S) : Assigns E [.put s,.alloc s] (E \ {s}) := fun r sound => by
  obtain ⟨r',ran,sound'⟩ := assignsPut overAlloc (assignsAlloc (Set.mem_insert s E)) r sound
  exact ⟨r',ran,soundLess sound' fun q mem => ⟨.inr mem.1,mem.2⟩⟩

theorem putGet (other : t ≠ s) : Assigns E [.put s,.get s t] (E \ {s}) := fun r sound => by
  obtain ⟨r',ran,sound'⟩ := assignsPut (overGet other) (assignsGet (Set.mem_insert s E)) r sound
  exact ⟨r',ran,soundLess sound' fun q mem => ⟨.inr mem.1,mem.2⟩⟩

theorem putNull (s : S) : Assigns E [.put s,.null s] (insert s E) := assignsPut overNull (assignsNull (Set.mem_insert s E))

theorem putMove (other : t ≠ s) : Assigns E [.put s,.move s t] (insert t (E \ {s})) := fun r sound => by
  obtain ⟨r',ran,sound'⟩ := assignsPut (overMove other) (assignsMove (Set.mem_insert s E) other) r sound
  exact ⟨r',ran,soundLess sound' fun q => fun
    | .inl eq => .inl eq
    | .inr mem => .inr ⟨.inr mem.1,mem.2⟩⟩

theorem overPut (other : t ≠ s) (first : Overwrites s b) : Overwrites s (.put t::b) := fun r => by
  simp only [run,step,lookupDropOther r other,refstrPut]
  cases lookup r t with
  | none => exact first r
  | some p =>
    have same : alive (drop s r) p ↔ alive r p := Iff.rfl
    by_cases live : alive r p
    · simp only [same.2 live,live,if_true,Option.bind_some]
      exact first (recount p.string (· - 1) r)
    · simp only [mt same.1 live,live,if_false]

theorem overNulls {l : List S} (inside : s ∈ l) : Overwrites s (l.map .null) := by
  induction l with
  | nil => cases inside
  | cons t l ih =>
    intro r
    simp only [List.map_cons,run,step,Option.bind_some]
    by_cases same : t = s
    · rw [same,dropTwice]
    · rw [dropComm]
      exact ih ((List.mem_cons.mp inside).resolve_left fun eq => same eq.symm) (drop t r)

theorem overPuts {l : List S} (other : s ∉ l) (first : Overwrites s b) : Overwrites s (l.map .put ++ b) := by
  induction l with
  | nil => exact first
  | cons t l ih =>
    exact overPut (fun eq => other (eq ▸ List.mem_cons_self)) (ih fun inside => other (List.mem_cons_of_mem t inside))

theorem assignsPuts {l : List S} (once : l.Nodup) (first : ∀ s ∈ l, Overwrites s b) (assigns : Assigns (E ∪ {s | s ∈ l}) b E') :
    Assigns E (l.map .put ++ b) E' := by
  induction l generalizing E with
  | nil => exact fun r sound => assigns r (soundLess sound (by simp))
  | cons t l ih =>
    obtain ⟨new,once⟩ := List.nodup_cons.mp once
    refine assignsPut (overPuts new (first t List.mem_cons_self)) (ih once (fun s inside => first s (List.mem_cons_of_mem t inside)) ?_)
    exact fun r sound => assigns r (soundLess sound fun q mem => by
      simpa [or_assoc,or_left_comm] using mem)

theorem assignsNulls {l : List S} (inside : ∀ s ∈ l, s ∈ E) : Assigns E (l.map .null) E := by
  induction l with
  | nil => exact fun r sound => ⟨r,rfl,sound⟩
  | cons t l ih =>
    intro r sound
    obtain ⟨q,ran,sound'⟩ := assignsNull (inside t List.mem_cons_self) r sound
    obtain ⟨q',ran',sound''⟩ := ih (fun s mem => inside s (List.mem_cons_of_mem t mem)) q sound'
    refine ⟨q',?_,sound''⟩
    have both : run ([.null t] ++ l.map .null) r = some q' := by rw [runAppend,ran]; exact ran'
    exact both

/- refstr_put on a list of variables, and memset. -/
def clear (l : List S) : List (Stmt S) := l.map .put ++ l.map .null

theorem assignsClear {l : List S} (once : l.Nodup) : Assigns E (clear l) (E ∪ {s | s ∈ l}) :=
  assignsPuts once (fun _ inside => overNulls inside) (assignsNulls fun _ mem => .inr mem)

theorem Keeps.fills {α : Type} {l : List α} {slot : α → S} {f : α → List (Stmt S)} (once : (l.map slot).Nodup)
    (inside : ∀ a ∈ l, slot a ∈ E) (one : ∀ a ∈ l, ∀ E : Set S, slot a ∈ E → Assigns E (f a) (E \ {slot a})) :
    Keeps E (l.map f) (E \ {s | s ∈ l.map slot}) := by
  induction l generalizing E with
  | nil => exact (keepsNil E).weaken Set.sdiff_subset
  | cons a l ih =>
    obtain ⟨new,once⟩ := List.nodup_cons.mp (List.map_cons ▸ once)
    have rest := @ih (E \ {slot a}) once
      (fun c mem => ⟨inside c (List.mem_cons_of_mem a mem),fun eq => new (eq ▸ List.mem_map_of_mem mem)⟩)
      (fun c mem => one c (List.mem_cons_of_mem a mem))
    refine ((one a List.mem_cons_self E (inside a List.mem_cons_self)).cons rest).weaken fun q mem => ?_
    simp only [List.map_cons,List.mem_cons,not_or,Set.mem_sdiff,Set.mem_ofPred_eq] at mem
    exact ⟨⟨mem.1,mem.2.1⟩,mem.2.2⟩

theorem keepsReplace (filled : s ∉ E) : Keeps E [[.put s,.alloc s]] E :=
  (putAlloc s).keeps.weaken fun _ mem => ⟨mem,fun eq => filled (eq ▸ mem)⟩

theorem keepsShare (filled : s ∉ E) (other : t ≠ s) : Keeps E [[.put s,.get s t]] E :=
  (putGet other).keeps.weaken fun _ mem => ⟨mem,fun eq => filled (eq ▸ mem)⟩

theorem keepsForget (s : S) : Keeps E [[.put s,.null s]] E := (putNull s).keeps.weaken (Set.subset_insert s E)

theorem keepsTake (filled : s ∉ E) (inside : t ∈ E) : Keeps E ([[.alloc t]] ++ [[.put s,.move s t]]) E := by
  have other : t ≠ s := fun eq => filled (eq ▸ inside)
  refine ((assignsAlloc inside).keeps.append (putMove other).keeps).weaken fun q mem => ?_
  by_cases eq : q = t
  · exact .inl eq
  · exact .inr ⟨⟨mem,eq⟩,fun same => filled (same ▸ mem)⟩

def temporary (s : S) : Program S := [[.alloc s],[.put s,.null s]]

theorem keepsTemporary (inside : s ∈ E) : Keeps E (temporary s) E :=
  ((assignsAlloc inside).cons (putNull s).keeps).weaken fun q mem => by
    by_cases eq : q = s
    · exact .inl eq
    · exact .inr ⟨mem,eq⟩

theorem advanceNone (s : S) (b : List (Stmt S)) (r : Refs S) : run (.advance s 0::b) r = run b r := by
  have same (h : S × Pointer) : (if h.1 = s then (s,⟨h.2.string,h.2.offset + 0⟩) else h) = h := by
    split
    · next key =>
      subst key
      rfl
    · rfl
  simp only [run,step,same,List.map_id']
  rfl

theorem advancedFails {n : Nat} (moved : n ≠ 0) (k : Nat) (b : List (Stmt S)) (r : Refs S) :
    run (.advance s n::.put s::b) (store s (some ⟨k,0⟩) r) = none := by
  have dead (q : Refs S) : ¬ alive q ⟨k,n⟩ := fun live => moved live.1
  simp [run,step,store,lookup,refstrPut,dead]

end
end Syslinux.Refstr
