import Mathlib.Data.Multiset.Count
import Mathlib.Data.List.Infix
import Mathlib.Algebra.Order.Group.Multiset
import Mathlib.Tactic.Linarith

/-! Counted references between the nodes of a heap that is only linked upwards: each node keeps the address of
its parent, and a count of the references to it. A reference comes from a child or from a holder outside the heap.
The heap is a list with the newest node first, so a parent always stands further down than its children. -/
namespace Syslinux.Refcount

structure Node (A α : Type) where
  addr : A
  parent : Option A
  refcnt : Int
  data : α
  deriving DecidableEq, Repr

abbrev Heap (A α : Type) := List (Node A α)

variable {A α : Type} [DecidableEq A]

def find (h : Heap A α) (a : A) : Option (Node A α) :=
  h.find? (fun n => decide (n.addr = a))

def addrs (h : Heap A α) : List A :=
  h.map Node.addr

def adjust (h : Heap A α) (a : A) (d : Int) : Heap A α :=
  h.map (fun n => if n.addr = a then { n with refcnt := n.refcnt + d } else n)

def discard (h : Heap A α) (a : A) : Heap A α :=
  h.filter (fun n => decide (n.addr ≠ a))

def acquire (h : Heap A α) (a : A) : Option (Heap A α) :=
  match find h a with
  | none => none
  | some _ => some (adjust h a 1)

/- Dropping the last reference to a node frees it and drops the reference it held on its parent. -/
def release : Nat → Heap A α → Option A → Option (Heap A α)
  | _,h,none => some h
  | 0,_,some _ => none
  | turns+1,h,some a =>
      match find h a with
      | none => none
      | some n =>
          if n.refcnt - 1 ≠ 0 then some (adjust h a (-1))
          else release turns (discard h a) n.parent

def attach (h : Heap A α) (a parent : A) (d : α) : Heap A α :=
  ⟨a,some parent,1,d⟩ :: h

def children (h : Heap A α) (a : A) : Nat :=
  h.countP (fun n => decide (n.parent = some a))

def Anchored (R : Option α → α → Prop) (h : Heap A α) (n : Node A α) : Prop :=
  match n.parent with
  | none => R none n.data
  | some p => ∃ q ∈ h,q.addr = p ∧ R (some q.data) n.data

def Linked (R : Option α → α → Prop) : Heap A α → Prop
  | [] => True
  | n::h => n.addr ∉ addrs h ∧ Anchored R h n ∧ Linked R h

def pending : Option A → Multiset A
  | none => 0
  | some a => {a}

structure Balanced (R : Option α → α → Prop) (h : Heap A α) (H : Multiset A) : Prop where
  linked : Linked R h
  counted : ∀ n ∈ h,n.refcnt = children h n.addr + H.count n.addr
  positive : ∀ n ∈ h,0 < n.refcnt
  held : ∀ a ∈ H,a ∈ addrs h

def bare (h : Heap A α) : Heap A α :=
  h.map (fun n => { n with refcnt := 0 })

/- What a borrower may have done to the heap it was given: every node is still there, new ones stand before them. -/
structure Grown (R : Option α → α → Prop) (h₀ h : Heap A α) (H : Multiset A) : Prop where
  balanced : Balanced R h H
  kept : bare h₀ <:+ bare h

@[simp] theorem bareAdjust (h : Heap A α) (a : A) (d : Int) : bare (adjust h a d) = bare h := by
  simp only [bare,adjust,List.map_map]
  apply List.map_congr_left
  intro n _
  simp only [Function.comp_apply]
  split <;> rfl

omit [DecidableEq A] in
@[simp] theorem addrsBare (h : Heap A α) : addrs (bare h) = addrs h := by
  simp [addrs,bare]

@[simp] theorem childrenBare (h : Heap A α) (a : A) : children (bare h) a = children h a := by
  simp only [children,bare,List.countP_map]
  rfl

omit [DecidableEq A] in
theorem anchoredBare {R : Option α → α → Prop} {h : Heap A α} {n : Node A α} :
    Anchored R (bare h) { n with refcnt := 0 } ↔ Anchored R h n := by
  unfold Anchored
  cases n.parent with
  | none => rfl
  | some p => simp [bare]

omit [DecidableEq A] in
theorem linkedBare {R : Option α → α → Prop} {h : Heap A α} : Linked R (bare h) ↔ Linked R h := by
  induction h with
  | nil => rfl
  | cons n t ih =>
    have head := anchoredBare (R := R) (h := t) (n := n)
    have parts : Linked R (bare (n::t)) ↔
        n.addr ∉ addrs (bare t) ∧ Anchored R (bare t) { n with refcnt := 0 } ∧ Linked R (bare t) := Iff.rfl
    rw [parts,addrsBare,head,ih]
    rfl

theorem linkedAdjust {R : Option α → α → Prop} {h : Heap A α} (a : A) (d : Int) :
    Linked R (adjust h a d) ↔ Linked R h := by
  rw [← linkedBare,bareAdjust,linkedBare]

@[simp] theorem addrsAdjust (h : Heap A α) (a : A) (d : Int) : addrs (adjust h a d) = addrs h := by
  rw [← addrsBare,bareAdjust,addrsBare]

@[simp] theorem childrenAdjust (h : Heap A α) (a b : A) (d : Int) :
    children (adjust h a d) b = children h b := by
  rw [← childrenBare,bareAdjust,childrenBare]

theorem memAdjust {h : Heap A α} {a : A} {d : Int} {m : Node A α} (mem : m ∈ adjust h a d) :
    ∃ n ∈ h,m.addr = n.addr ∧ m.refcnt = n.refcnt + if n.addr = a then d else 0 := by
  obtain ⟨n,inside,same⟩ := List.mem_map.mp mem
  by_cases here : n.addr = a
  · rw [if_pos here] at same
    subst same
    exact ⟨n,inside,rfl,by simp [here]⟩
  · rw [if_neg here] at same
    subst same
    exact ⟨n,inside,rfl,by simp [here]⟩

theorem findSome {h : Heap A α} {a : A} {n : Node A α} (found : find h a = some n) :
    n ∈ h ∧ n.addr = a :=
  ⟨List.mem_of_find?_eq_some found,by simpa using List.find?_some found⟩

theorem findLive {h : Heap A α} {a : A} (live : a ∈ addrs h) : ∃ n,find h a = some n := by
  obtain ⟨n,mem,same⟩ := List.mem_map.mp live
  have some' : (find h a).isSome := by
    rw [find,List.find?_isSome]
    exact ⟨n,mem,by simp [same]⟩
  exact Option.isSome_iff_exists.mp some'

omit [DecidableEq A] in
theorem memAddrs {h : Heap A α} {n : Node A α} (mem : n ∈ h) : n.addr ∈ addrs h :=
  List.mem_map_of_mem mem

theorem acquireGrown {R : Option α → α → Prop} {h₀ h : Heap A α} {H : Multiset A} {a : A}
    (grown : Grown R h₀ h H) (live : a ∈ addrs h) :
    ∃ h',acquire h a = some h' ∧ bare h' = bare h ∧ Grown R h₀ h' (a ::ₘ H) := by
  obtain ⟨n,found⟩ := findLive live
  have result : acquire h a = some (adjust h a 1) := by simp [acquire,found]
  refine ⟨adjust h a 1,result,bareAdjust h a 1,⟨?_,by simpa using grown.kept⟩⟩
  refine ⟨(linkedAdjust a 1).mpr grown.balanced.linked,?_,?_,?_⟩
  · intro m mem
    obtain ⟨k,inside,same,count⟩ := memAdjust mem
    rw [count,grown.balanced.counted k inside,same,childrenAdjust,Multiset.count_cons]
    split <;> push_cast <;> omega
  · intro m mem
    obtain ⟨k,inside,_,count⟩ := memAdjust mem
    have pos := grown.balanced.positive k inside
    rw [count]
    split <;> omega
  · intro b mem
    rw [addrsAdjust]
    rcases Multiset.mem_cons.mp mem with rfl | rest
    · exact live
    · exact grown.balanced.held b rest

theorem memDiscard {h : Heap A α} {a : A} {m : Node A α} : m ∈ discard h a ↔ m ∈ h ∧ m.addr ≠ a := by
  simp [discard]

theorem addrsDiscard {h : Heap A α} {a b : A} : b ∈ addrs (discard h a) ↔ b ∈ addrs h ∧ b ≠ a := by
  simp only [addrs,List.mem_map,memDiscard]
  constructor
  · rintro ⟨m,⟨mem,other⟩,rfl⟩
    exact ⟨⟨m,mem,rfl⟩,other⟩
  · rintro ⟨⟨m,mem,rfl⟩,other⟩
    exact ⟨m,⟨mem,other⟩,rfl⟩

theorem discardAbsent {h : Heap A α} {a : A} (absent : a ∉ addrs h) : discard h a = h := by
  apply List.filter_eq_self.mpr
  intro m mem
  have other : m.addr ≠ a := fun same => absent (same ▸ memAddrs mem)
  simpa using other

theorem childrenZero {h : Heap A α} {a : A} (none' : children h a = 0) :
    ∀ n ∈ h,n.parent ≠ some a := by
  intro n mem
  have no := List.countP_eq_zero.mp none' n mem
  simpa using no

theorem linkedDiscard {R : Option α → α → Prop} {h : Heap A α} {a : A} (linked : Linked R h)
    (childless : ∀ n ∈ h,n.parent ≠ some a) : Linked R (discard h a) := by
  induction h with
  | nil => exact trivial
  | cons n t ih =>
    have rest := ih linked.2.2 (fun m mem => childless m (List.mem_cons_of_mem _ mem))
    by_cases here : n.addr = a
    · have gone : discard (n::t) a = discard t a := by simp [discard,here]
      exact gone ▸ rest
    · have stays : discard (n::t) a = n :: discard t a := by simp [discard,here]
      rw [stays]
      refine ⟨fun mem => linked.1 (addrsDiscard.1 mem).1,?_,rest⟩
      have anchored := linked.2.1
      have mine := childless n List.mem_cons_self
      unfold Anchored at anchored ⊢
      cases up : n.parent with
      | none => simpa only [up] using anchored
      | some p =>
        simp only [up] at anchored
        obtain ⟨q,mem,same,related⟩ := anchored
        have other : q.addr ≠ a := fun eq => mine (by rw [up,← same,eq])
        exact ⟨q,memDiscard.2 ⟨mem,other⟩,same,related⟩

theorem childrenDiscard {R : Option α → α → Prop} {h : Heap A α} {a : A} {n : Node A α} (linked : Linked R h)
    (mem : n ∈ h) (same : n.addr = a) (b : A) :
    children h b = children (discard h a) b + (pending n.parent).count b := by
  induction h with
  | nil => cases mem
  | cons m t ih =>
    rcases List.mem_cons.mp mem with rfl | rest
    · have gone : discard (n::t) a = t := by
        have tail := discardAbsent (h := t) (a := a) (same ▸ linked.1)
        simpa [discard,same] using tail
      rw [gone,children,List.countP_cons]
      cases up : n.parent with
      | none => simp [children,pending]
      | some p =>
        simp only [children,pending,Multiset.count_singleton,Option.some.injEq,decide_eq_true_eq]
        congr 1
        simp [eq_comm]
    · have other : m.addr ≠ a := fun eq => linked.1 (eq ▸ same ▸ memAddrs rest)
      have stays : discard (m::t) a = m :: discard t a := by simp [discard,other]
      have tail := ih linked.2.2 rest
      simp only [children] at tail ⊢
      rw [stays,List.countP_cons,List.countP_cons,tail]
      omega

def At (P : Option A → α → Prop) (h : Heap A α) (a : A) : Prop :=
  ∃ n ∈ h,n.addr = a ∧ P n.parent n.data

omit [DecidableEq A] in
theorem memBare {h k : Heap A α} (sub : (bare h).Sublist (bare k)) {n : Node A α} (mem : n ∈ h) :
    ∃ m ∈ k,m.addr = n.addr ∧ m.parent = n.parent ∧ m.data = n.data := by
  have inside : { n with refcnt := 0 } ∈ bare k := sub.subset (List.mem_map_of_mem mem)
  obtain ⟨m,mem',same⟩ := List.mem_map.mp inside
  obtain ⟨addr,parent,_,data⟩ := Node.mk.inj same
  exact ⟨m,mem',addr,parent,data⟩

omit [DecidableEq A] in
theorem atUp {P : Option A → α → Prop} {h k : Heap A α} {a : A} (sub : (bare h).Sublist (bare k)) (here : At P h a) :
    At P k a := by
  obtain ⟨n,mem,same,holds⟩ := here
  obtain ⟨m,mem',addr,parent,data⟩ := memBare sub mem
  exact ⟨m,mem',addr.trans same,by rwa [parent,data]⟩

omit [DecidableEq A] in
theorem parentLive {R : Option α → α → Prop} {h : Heap A α} (linked : Linked R h) {n : Node A α} (mem : n ∈ h)
    {p : A} (up : n.parent = some p) : ∃ q ∈ h,q.addr = p ∧ R (some q.data) n.data := by
  induction h with
  | nil => cases mem
  | cons m t ih =>
    rcases List.mem_cons.mp mem with rfl | rest
    · have anchored := linked.2.1
      simp only [Anchored,up] at anchored
      obtain ⟨q,inside,facts⟩ := anchored
      exact ⟨q,List.mem_cons_of_mem _ inside,facts⟩
    · obtain ⟨q,inside,facts⟩ := ih linked.2.2 rest
      exact ⟨q,List.mem_cons_of_mem _ inside,facts⟩

omit [DecidableEq A] in
theorem rootRelated {R : Option α → α → Prop} {h : Heap A α} (linked : Linked R h) {n : Node A α} (mem : n ∈ h)
    (up : n.parent = none) : R none n.data := by
  induction h with
  | nil => cases mem
  | cons m t ih =>
    rcases List.mem_cons.mp mem with rfl | rest
    · have anchored := linked.2.1
      simpa only [Anchored,up] using anchored
    · exact ih linked.2.2 rest

omit [DecidableEq A] in
theorem sameNode {R : Option α → α → Prop} {h : Heap A α} (linked : Linked R h) {m n : Node A α} (mm : m ∈ h)
    (mn : n ∈ h) (same : m.addr = n.addr) : m = n := by
  induction h with
  | nil => cases mm
  | cons k t ih =>
    rcases List.mem_cons.mp mm with rfl | rm
    · rcases List.mem_cons.mp mn with rfl | rn
      · rfl
      · exact absurd (same ▸ memAddrs rn) linked.1
    · rcases List.mem_cons.mp mn with rfl | rn
      · exact absurd (same ▸ memAddrs rm) linked.1
      · exact ih linked.2.2 rm rn

omit [DecidableEq A] in
theorem atDown {R : Option α → α → Prop} {P : Option A → α → Prop} {h k : Heap A α} {a : A} (linked : Linked R k)
    (sub : (bare h).Sublist (bare k)) (live : a ∈ addrs h) (here : At P k a) : At P h a := by
  obtain ⟨n,mem,same,holds⟩ := here
  obtain ⟨m,mem',rfl⟩ := List.mem_map.mp live
  obtain ⟨o,inside,addr,parent,data⟩ := memBare sub mem'
  have unique := sameNode linked inside mem (addr.trans same.symm)
  subst unique
  exact ⟨m,mem',rfl,by rwa [← parent,← data]⟩

omit [DecidableEq A] in
theorem linkedNodup {R : Option α → α → Prop} {h : Heap A α} (linked : Linked R h) : (addrs h).Nodup := by
  induction h with
  | nil => exact List.nodup_nil
  | cons n t ih => exact List.nodup_cons.mpr ⟨linked.1,ih linked.2.2⟩

/- A heap that was added to and then released from: what is still live there is what it was. -/
def Moved (R : Option α → α → Prop) (h h' : Heap A α) : Prop :=
  ∃ k,Linked R k ∧ bare h <:+ bare k ∧ (bare h').Sublist (bare k)

omit [DecidableEq A] in
theorem movedSurvives {R : Option α → α → Prop} {h h' : Heap A α} (moved : Moved R h h') {n : Node A α}
    (mem : n ∈ h) : At (fun parent d => parent = n.parent ∧ d = n.data) h' n.addr ↔ n.addr ∈ addrs h' := by
  obtain ⟨k,linked,up,down⟩ := moved
  constructor
  · rintro ⟨m,inside,same,_⟩
    exact same ▸ memAddrs inside
  · intro live
    have before : At (fun parent d => parent = n.parent ∧ d = n.data) h n.addr := ⟨n,mem,rfl,rfl,rfl⟩
    exact atDown linked down live (atUp up.sublist before)

theorem releaseShared {R : Option α → α → Prop} {h₀ h : Heap A α} {H : Multiset A} {a : A} {n : Node A α}
    (grown : Grown R h₀ h (a ::ₘ H)) (found : find h a = some n) (more : n.refcnt - 1 ≠ 0) :
    Grown R h₀ (adjust h a (-1)) H := by
  obtain ⟨mem,here⟩ := findSome found
  refine ⟨⟨(linkedAdjust a (-1)).mpr grown.balanced.linked,?_,?_,?_⟩,by simpa using grown.kept⟩
  · intro m inside
    obtain ⟨k,from',same,count⟩ := memAdjust inside
    rw [count,grown.balanced.counted k from',same,childrenAdjust,Multiset.count_cons]
    split <;> push_cast <;> omega
  · intro m inside
    obtain ⟨k,from',_,count⟩ := memAdjust inside
    have pos := grown.balanced.positive k from'
    by_cases eq : k.addr = a
    · have unique := sameNode grown.balanced.linked from' mem (eq.trans here.symm)
      subst unique
      rw [count,if_pos eq]
      omega
    · rw [count,if_neg eq]
      omega
  · intro b inside
    rw [addrsAdjust]
    exact grown.balanced.held b (Multiset.mem_cons_of_mem inside)

omit [DecidableEq A] in
theorem bareMem {h : Heap A α} {a : A} (live : a ∈ addrs h) :
    ∃ n ∈ h,n.addr = a := by
  obtain ⟨n,mem,same⟩ := List.mem_map.mp live
  exact ⟨n,mem,same⟩

theorem childrenKept {h₀ h : Heap A α} (kept : bare h₀ <:+ bare h) (a : A) : children h₀ a ≤ children h a := by
  have le := kept.sublist.countP_le (p := fun n => decide (n.parent = some a))
  have left := childrenBare h₀ a
  have right := childrenBare h a
  simp only [children] at left right ⊢
  omega

theorem lastIsNew {R : Option α → α → Prop} {h₀ h : Heap A α} {H₀ H : Multiset A} {a : A}
    (base : Balanced R h₀ H₀) (kept : bare h₀ <:+ bare h) (le : H₀ ≤ H) (childless : children h a = 0)
    (unheld : H.count a = 0) : a ∉ addrs h₀ := by
  intro live
  obtain ⟨n,mem,rfl⟩ := bareMem live
  have count := base.counted n mem
  have pos := base.positive n mem
  have fewer := childrenKept kept n.addr
  have less := Multiset.count_le_of_le n.addr le
  omega

theorem releaseLast {R : Option α → α → Prop} {h₀ h : Heap A α} {H₀ H : Multiset A} {a : A} {n : Node A α}
    (base : Balanced R h₀ H₀) (le : H₀ ≤ H) (grown : Grown R h₀ h (a ::ₘ H)) (found : find h a = some n)
    (last : n.refcnt - 1 = 0) : Grown R h₀ (discard h a) (pending n.parent + H) := by
  obtain ⟨mem,here⟩ := findSome found
  have count := grown.balanced.counted n mem
  rw [here,Multiset.count_cons_self] at count
  have childless : children h a = 0 := by omega
  have unheld : H.count a = 0 := by omega
  have alone := childrenZero childless
  refine ⟨⟨linkedDiscard grown.balanced.linked alone,?_,?_,?_⟩,?_⟩
  · intro m inside
    obtain ⟨from',other⟩ := memDiscard.1 inside
    have before := grown.balanced.counted m from'
    have split := childrenDiscard grown.balanced.linked mem here m.addr
    rw [Multiset.count_cons_of_ne other] at before
    rw [Multiset.count_add]
    omega
  · intro m inside
    exact grown.balanced.positive m (memDiscard.1 inside).1
  · intro b inside
    rw [addrsDiscard]
    rcases Multiset.mem_add.mp inside with up | rest
    · cases up' : n.parent with
      | none => simp [up',pending] at up
      | some p =>
        have same : b = p := by simpa [up',pending] using up
        subst same
        obtain ⟨q,qm,qa,_⟩ := parentLive grown.balanced.linked mem up'
        exact ⟨qa ▸ memAddrs qm,fun eq => alone n mem (eq ▸ up')⟩
    · refine ⟨grown.balanced.held b (Multiset.mem_cons_of_mem rest),?_⟩
      rintro rfl
      exact absurd unheld (Multiset.count_pos.mpr rest).ne'
  · have new := lastIsNew base grown.kept le childless unheld
    obtain ⟨e,whole⟩ := grown.kept
    have barely : bare (discard h a) = discard (bare h) a := by
      simp only [bare,discard,List.filter_map]
      rfl
    have still : discard (bare h₀) a = bare h₀ := discardAbsent (by rwa [addrsBare])
    refine ⟨discard e a,?_⟩
    rw [barely,← whole]
    simp only [discard] at still ⊢
    rw [List.filter_append,still]

theorem bareDiscard (h : Heap A α) (a : A) : (bare (discard h a)).Sublist (bare h) :=
  List.filter_sublist.map _

theorem releaseGrown {R : Option α → α → Prop} {h₀ h : Heap A α} {H₀ H : Multiset A} {turns : Nat} {o : Option A}
    (base : Balanced R h₀ H₀) (le : H₀ ≤ H) (enough : h.length ≤ turns) (grown : Grown R h₀ h (pending o + H)) :
    ∃ h',release turns h o = some h' ∧ (bare h').Sublist (bare h) ∧ Grown R h₀ h' H := by
  induction turns generalizing h o with
  | zero =>
    cases o with
    | none => exact ⟨h,rfl,List.Sublist.refl _,by simpa [pending] using grown⟩
    | some a =>
      have live : a ∈ addrs h := grown.balanced.held a (by simp [pending])
      have empty : h = [] := List.length_eq_zero_iff.mp (Nat.le_zero.mp enough)
      simp [empty,addrs] at live
  | succ turns ih =>
    cases o with
    | none => exact ⟨h,rfl,List.Sublist.refl _,by simpa [pending] using grown⟩
    | some a =>
      have owned : Grown R h₀ h (a ::ₘ H) := by simpa [pending] using grown
      obtain ⟨n,found⟩ := findLive (owned.balanced.held a (Multiset.mem_cons_self a H))
      by_cases last : n.refcnt - 1 = 0
      · have fewer : (discard h a).length ≤ turns := by
          obtain ⟨mem,here⟩ := findSome found
          have less : (discard h a).length < h.length :=
            List.length_filter_lt_length_iff_exists.mpr ⟨n,mem,by simp [here]⟩
          omega
        obtain ⟨h',result,sub,rest⟩ := ih fewer (releaseLast base le owned found last)
        refine ⟨h',?_,sub.trans (bareDiscard h a),rest⟩
        simp only [release,found,last,ne_eq,not_true_eq_false,if_false,result]
      · refine ⟨adjust h a (-1),?_,by simp,releaseShared owned found last⟩
        simp only [release,found,ne_eq,last,not_false_eq_true,if_true]

theorem attachGrown {R : Option α → α → Prop} {h₀ h : Heap A α} {H : Multiset A} {a : A} {q : Node A α} {d : α}
    (grown : Grown R h₀ h (q.addr ::ₘ H)) (fresh : a ∉ addrs h) (mem : q ∈ h) (related : R (some q.data) d) :
    Grown R h₀ (attach h a q.addr d) (a ::ₘ H) := by
  have unheld : a ∉ H := fun inside => fresh (grown.balanced.held a (Multiset.mem_cons_of_mem inside))
  have childless : children h a = 0 := by
    rw [children,List.countP_eq_zero]
    intro n inside
    simp only [decide_eq_true_eq]
    intro up
    obtain ⟨p,pm,pa,_⟩ := parentLive grown.balanced.linked inside up
    exact fresh (pa ▸ memAddrs pm)
  have apart : q.addr ≠ a := fun eq => fresh (eq ▸ memAddrs mem)
  have counts (b : A) : children (attach h a q.addr d) b = children h b + if q.addr = b then 1 else 0 := by
    simp [children,attach,List.countP_cons]
  refine ⟨⟨⟨fresh,⟨q,mem,rfl,related⟩,grown.balanced.linked⟩,?_,?_,?_⟩,?_⟩
  · intro m inside
    rcases List.mem_cons.mp inside with rfl | rest
    · simp only [counts,childless,if_neg apart,Multiset.count_cons_self,Multiset.count_eq_zero_of_notMem unheld]
      rfl
    · have other : m.addr ≠ a := fun eq => fresh (eq ▸ memAddrs rest)
      rw [counts,grown.balanced.counted m rest,Multiset.count_cons_of_ne other,Multiset.count_cons]
      by_cases here : q.addr = m.addr
      · rw [if_pos here,if_pos here.symm]
        push_cast
        omega
      · rw [if_neg here,if_neg (Ne.symm here)]
        push_cast
        omega
  · intro m inside
    rcases List.mem_cons.mp inside with rfl | rest
    · exact Int.one_pos
    · exact grown.balanced.positive m rest
  · intro b inside
    rcases Multiset.mem_cons.mp inside with rfl | rest
    · exact List.mem_cons_self
    · exact List.mem_cons_of_mem _ (grown.balanced.held b (Multiset.mem_cons_of_mem rest))
  · exact grown.kept.trans (List.suffix_cons _ _)

omit [DecidableEq A] in
theorem bareInjective {c : A → Int} {h k : Heap A α} (left : ∀ n ∈ h,n.refcnt = c n.addr)
    (right : ∀ n ∈ k,n.refcnt = c n.addr) (same : bare h = bare k) : h = k := by
  induction h generalizing k with
  | nil => exact (List.map_eq_nil_iff.mp same.symm).symm
  | cons m t ih =>
    cases k with
    | nil => simp [bare] at same
    | cons n u =>
      obtain ⟨head,tail⟩ := List.cons.inj same
      have rest := ih (fun x mem => left x (List.mem_cons_of_mem _ mem))
        (fun x mem => right x (List.mem_cons_of_mem _ mem)) tail
      have counts : m.refcnt = n.refcnt := by
        rw [left m List.mem_cons_self,right n List.mem_cons_self,(Node.mk.inj head).1]
      have nodes : m = n := by
        cases m
        cases n
        simp_all
      rw [nodes,rest]

theorem balancedUnique {R : Option α → α → Prop} {h k : Heap A α} {H : Multiset A} (left : Balanced R h H)
    (right : Balanced R k H) (same : bare h = bare k) : h = k := by
  refine bareInjective (c := fun a => children h a + H.count a) left.counted ?_ same
  intro n mem
  have count := right.counted n mem
  rwa [← childrenBare k,← same,childrenBare] at count

/- The newest node has no child, so one that was added and is not held would have no reference at all. -/
theorem grownBack {R : Option α → α → Prop} {h₀ h : Heap A α} {H₀ : Multiset A} (base : Balanced R h₀ H₀)
    (grown : Grown R h₀ h H₀) : h = h₀ := by
  obtain ⟨e,whole⟩ := grown.kept
  have none' : e = [] := by
    cases e with
    | nil => rfl
    | cons x e =>
      exfalso
      cases h with
      | nil => simp [bare] at whole
      | cons n t =>
        have tail : e ++ bare h₀ = bare t := (List.cons.inj whole).2
        have linked := grown.balanced.linked
        have childless : children (n::t) n.addr = 0 := by
          rw [children,List.countP_eq_zero]
          intro m inside
          simp only [decide_eq_true_eq]
          intro up
          have later : ∃ q ∈ t,q.addr = n.addr := by
            rcases List.mem_cons.mp inside with rfl | rest
            · have anchored := linked.2.1
              simp only [Anchored,up] at anchored
              obtain ⟨q,qm,qa,_⟩ := anchored
              exact ⟨q,qm,qa⟩
            · obtain ⟨q,qm,qa,_⟩ := parentLive linked.2.2 rest up
              exact ⟨q,qm,qa⟩
          obtain ⟨q,qm,qa⟩ := later
          exact linked.1 (qa ▸ memAddrs qm)
        have unheld : H₀.count n.addr = 0 := by
          apply Multiset.count_eq_zero_of_notMem
          intro inside
          have before := base.held _ inside
          rw [← addrsBare] at before
          have after : n.addr ∈ addrs (bare t) := by
            rw [← tail]
            simp only [addrs,List.map_append,List.mem_append]
            exact .inr before
          exact linked.1 (by rwa [addrsBare] at after)
        have count := grown.balanced.counted n List.mem_cons_self
        have pos := grown.balanced.positive n List.mem_cons_self
        omega
  have same : bare h = bare h₀ := by rw [← whole,none',List.nil_append]
  exact balancedUnique grown.balanced base same

theorem releaseBalanced {R : Option α → α → Prop} {h : Heap A α} {H : Multiset A} {o : Option A}
    (balanced : Balanced R h (pending o + H)) :
    ∃ h',release h.length h o = some h' ∧ (bare h').Sublist (bare h) ∧ Balanced R h' H := by
  have none' : Balanced R ([] : Heap A α) 0 := ⟨trivial,by simp,by simp,by simp⟩
  obtain ⟨h',result,sub,grown⟩ := releaseGrown none' (Multiset.zero_le H) (Nat.le_refl _) ⟨balanced,List.nil_suffix⟩
  exact ⟨h',result,sub,grown.balanced⟩

theorem acquireBalanced {R : Option α → α → Prop} {h : Heap A α} {H : Multiset A} {a : A}
    (balanced : Balanced R h H) (live : a ∈ addrs h) :
    ∃ h',acquire h a = some h' ∧ bare h' = bare h ∧ Balanced R h' (a ::ₘ H) := by
  have lent : Grown R [] h H := ⟨balanced,List.nil_suffix⟩
  obtain ⟨h',result,same,grown⟩ := acquireGrown lent live
  exact ⟨h',result,same,grown.balanced⟩

theorem liveIff {R : Option α → α → Prop} {h : Heap A α} {H : Multiset A} (balanced : Balanced R h H) (a : A) :
    a ∈ addrs h ↔ 0 < children h a + H.count a := by
  constructor
  · intro live
    obtain ⟨n,mem,rfl⟩ := List.mem_map.mp live
    have count := balanced.counted n mem
    have pos := balanced.positive n mem
    omega
  · intro some'
    by_cases held : a ∈ H
    · exact balanced.held a held
    · rw [Multiset.count_eq_zero_of_notMem held] at some'
      obtain ⟨n,mem,up⟩ := List.countP_pos_iff.mp some'
      obtain ⟨q,inside,same,_⟩ := parentLive balanced.linked mem (of_decide_eq_true up)
      exact same ▸ memAddrs inside

end Syslinux.Refcount
