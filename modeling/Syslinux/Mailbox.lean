import Syslinux.Runs

/-! The mailbox of core/thread/mbox.c, with any number of calls under way. The four
semaphores are correct ones: a down waits for a positive count and takes one, and a
down that times out takes nothing. The mutexes are waited for without a timeout. `posted`
and `fetched` record the values stored and loaded, in that order; the code has neither. -/
namespace Syslinux.Mailbox
open Runs

inductive PostAt where
  | downProd | downHead | store | advance | wrap | upHead | upCons
  deriving DecidableEq, Repr

inductive FetchAt where
  | downCons | downTail | load | advance | wrap | upTail | upProd
  deriving DecidableEq, Repr

/- A call, the place it has reached, and whether its timeout can expire; `got` is the
value a fetch has loaded. The last three have returned. -/
inductive Call (α : Type) where
  | post (msg : α) (timed : Bool) (place : PostAt)
  | fetch (timed : Bool) (place : FetchAt) (got : Option α)
  | posted (msg : α)
  | fetched (got : Option α)
  | timedOut
  deriving DecidableEq, Repr

structure Mbox (α : Type) where
  size : Nat
  prodSem : Nat
  consSem : Nat
  headSem : Nat
  tailSem : Nat
  head : Nat
  tail : Nat
  data : Nat → α
  calls : List (Call α)
  posted : List α
  fetched : List α

variable {α : Type}

def mboxInit (size : Nat) (data : Nat → α) : Mbox α := ⟨size,size,0,1,1,0,0,data,[],[],[]⟩

/- The next step of mbox_post; `none` while its semaphore is down. -/
def postStep (s : Mbox α) (msg : α) : PostAt → Option (Mbox α × Option PostAt)
  | .downProd => if s.prodSem = 0 then none else some ({ s with prodSem := s.prodSem - 1 },some .downHead)
  | .downHead => if s.headSem = 0 then none else some ({ s with headSem := s.headSem - 1 },some .store)
  | .store => some ({ s with data := Function.update s.data s.head msg, posted := s.posted ++ [msg] },some .advance)
  | .advance => some ({ s with head := s.head + 1 },some .wrap)
  | .wrap => some ({ s with head := if s.head = s.size then 0 else s.head },some .upHead)
  | .upHead => some ({ s with headSem := s.headSem + 1 },some .upCons)
  | .upCons => some ({ s with consSem := s.consSem + 1 },none)

def fetchStep (s : Mbox α) : FetchAt → Option (Mbox α × Option FetchAt)
  | .downCons => if s.consSem = 0 then none else some ({ s with consSem := s.consSem - 1 },some .downTail)
  | .downTail => if s.tailSem = 0 then none else some ({ s with tailSem := s.tailSem - 1 },some .load)
  | .load => some ({ s with fetched := s.fetched ++ [s.data s.tail] },some .advance)
  | .advance => some ({ s with tail := s.tail + 1 },some .wrap)
  | .wrap => some ({ s with tail := if s.tail = s.size then 0 else s.tail },some .upTail)
  | .upTail => some ({ s with tailSem := s.tailSem + 1 },some .upProd)
  | .upProd => some ({ s with prodSem := s.prodSem + 1 },none)

inductive Event (α : Type) where
  | post (msg : α) (timed : Bool)
  | fetch (timed : Bool)
  | go (i : Nat)
  | timeout (i : Nat)

def goOn (s : Mbox α) (i : Nat) : Call α → Option (Mbox α)
  | .post msg timed place => (postStep s msg place).map (fun r =>
      { r.1 with calls := s.calls.set i (r.2.elim (.posted msg) (.post msg timed)) })
  | .fetch timed place got =>
      let got := if place = .load then some (s.data s.tail) else got
      (fetchStep s place).map (fun r =>
        { r.1 with calls := s.calls.set i (r.2.elim (.fetched got) (fun place => .fetch timed place got)) })
  | _ => none

def step (s : Mbox α) : Event α → Option (Mbox α)
  | .post msg timed => some { s with calls := s.calls ++ [.post msg timed .downProd] }
  | .fetch timed => some { s with calls := s.calls ++ [.fetch timed .downCons none] }
  | .go i => s.calls[i]?.bind (goOn s i)
  | .timeout i => match s.calls[i]? with
      | some (.post _ true .downProd) => some { s with calls := s.calls.set i .timedOut }
      | some (.fetch true .downCons _) => some { s with calls := s.calls.set i .timedOut }
      | _ => none

/- The calls that hold a slot they have not filled, have filled one they have not
announced, and likewise for the consumers. -/
def claiming : Call α → Nat
  | .post _ _ .downHead => 1
  | .post _ _ .store => 1
  | _ => 0

def filled : Call α → Nat
  | .post _ _ .advance => 1
  | .post _ _ .wrap => 1
  | .post _ _ .upHead => 1
  | .post _ _ .upCons => 1
  | _ => 0

def expecting : Call α → Nat
  | .fetch _ .downTail _ => 1
  | .fetch _ .load _ => 1
  | _ => 0

def emptied : Call α → Nat
  | .fetch _ .advance _ => 1
  | .fetch _ .wrap _ => 1
  | .fetch _ .upTail _ => 1
  | .fetch _ .upProd _ => 1
  | _ => 0

def atHead : Call α → Nat
  | .post _ _ .store => 1
  | .post _ _ .advance => 1
  | .post _ _ .wrap => 1
  | .post _ _ .upHead => 1
  | _ => 0

def atTail : Call α → Nat
  | .fetch _ .load _ => 1
  | .fetch _ .advance _ => 1
  | .fetch _ .wrap _ => 1
  | .fetch _ .upTail _ => 1
  | _ => 0

/- With a mutex held: the moments at which the ring pointer is where the log says, one
behind it, or one ahead and perhaps past the end. -/
def headStill : Call α → Nat
  | .post _ _ .store => 1
  | .post _ _ .upHead => 1
  | _ => 0
def tailStill : Call α → Nat
  | .fetch _ .load _ => 1
  | .fetch _ .upTail _ => 1
  | _ => 0
def headBehind : Call α → Nat
  | .post _ _ .advance => 1
  | _ => 0
def headAhead : Call α → Nat
  | .post _ _ .wrap => 1
  | _ => 0
def tailBehind : Call α → Nat
  | .fetch _ .advance _ => 1
  | _ => 0
def tailAhead : Call α → Nat
  | .fetch _ .wrap _ => 1
  | _ => 0

structure Accounts (s : Mbox α) : Prop where
  slots : s.prodSem + tally claiming s.calls + s.posted.length + tally emptied s.calls = s.size + s.fetched.length
  items : s.consSem + tally expecting s.calls + s.fetched.length + tally filled s.calls = s.posted.length
  headMutex : s.headSem + tally atHead s.calls = 1
  tailMutex : s.tailSem + tally atTail s.calls = 1
  headPlaces : tally headBehind s.calls + tally headAhead s.calls + tally headStill s.calls = tally atHead s.calls
  tailPlaces : tally tailBehind s.calls + tally tailAhead s.calls + tally tailStill s.calls = tally atTail s.calls

/- Where a ring pointer stands after `count` operations, `behind` or `ahead` of it. -/
def Pointer (size count behind ahead place : Nat) : Prop :=
  (behind = 0 → ahead = 0 → place = count % size) ∧
  (behind = 1 → 0 < count ∧ place = (count - 1) % size) ∧
  (ahead = 1 → 0 < count ∧ place = (count - 1) % size + 1)

theorem pointerUse {size count place : Nat} (h : Pointer size count 0 0 place) : Pointer size (count + 1) 1 0 place :=
  ⟨by simp,fun _ => ⟨Nat.succ_pos _,h.1 rfl rfl⟩,by simp⟩

theorem pointerAdvance {size count place : Nat} (h : Pointer size count 1 0 place) :
    Pointer size count 0 1 (place + 1) := by
  obtain ⟨some',at'⟩ := h.2.1 rfl
  exact ⟨by simp,by simp,fun _ => ⟨some',by rw [at']⟩⟩

theorem nextModulo {size count : Nat} (some' : 0 < count) :
    (if (count - 1) % size + 1 = size then 0 else (count - 1) % size + 1) = count % size := by
  obtain ⟨c,rfl⟩ : ∃ c, count = c + 1 := ⟨count - 1,by omega⟩
  rw [Nat.add_sub_cancel,Nat.add_mod_eq_ite]
  by_cases zero : size = 0
  · subst zero; simp
  · by_cases one : size = 1
    · subst one; simp [Nat.mod_one]
    · have less := Nat.mod_lt c (Nat.pos_of_ne_zero zero)
      rw [Nat.mod_eq_of_lt (by omega : 1 < size)]
      split <;> split <;> omega

theorem pointerWrap {size count place : Nat} (h : Pointer size count 0 1 place) :
    Pointer size count 0 0 (if place = size then 0 else place) := by
  obtain ⟨some',at'⟩ := h.2.2 rfl
  refine ⟨fun _ _ => ?_,by simp,by simp⟩
  rw [at']
  exact nextModulo some'

theorem slotsDiffer {size k count : Nat} (before : k < count) (near : count < k + size) : k % size ≠ count % size := by
  intro same
  have gap : (count - k) % size = 0 := Nat.sub_mod_eq_zero_of_mod_eq same.symm
  rw [Nat.mod_eq_of_lt (by omega)] at gap
  omega

structure Ring (s : Mbox α) : Prop where
  head : Pointer s.size s.posted.length (tally headBehind s.calls) (tally headAhead s.calls) s.head
  tail : Pointer s.size s.fetched.length (tally tailBehind s.calls) (tally tailAhead s.calls) s.tail
  order : s.fetched <+: s.posted
  kept : ∀ k v, s.fetched.length ≤ k → s.posted[k]? = some v → s.data (k % s.size) = v

structure Moved (calls calls' : List (Call α)) (a b : Call α) : Prop where
  claiming : tally claiming calls' + claiming a = tally claiming calls + claiming b
  filled : tally filled calls' + filled a = tally filled calls + filled b
  expecting : tally expecting calls' + expecting a = tally expecting calls + expecting b
  emptied : tally emptied calls' + emptied a = tally emptied calls + emptied b
  atHead : tally atHead calls' + atHead a = tally atHead calls + atHead b
  atTail : tally atTail calls' + atTail a = tally atTail calls + atTail b
  headStill : tally headStill calls' + headStill a = tally headStill calls + headStill b
  tailStill : tally tailStill calls' + tailStill a = tally tailStill calls + tailStill b
  headBehind : tally headBehind calls' + headBehind a = tally headBehind calls + headBehind b
  headAhead : tally headAhead calls' + headAhead a = tally headAhead calls + headAhead b
  tailBehind : tally tailBehind calls' + tailBehind a = tally tailBehind calls + tailBehind b
  tailAhead : tally tailAhead calls' + tailAhead a = tally tailAhead calls + tailAhead b

theorem movedSet {calls : List (Call α)} {i : Nat} {a : Call α} (b : Call α) (here : calls[i]? = some a) :
    Moved calls (calls.set i b) a b :=
  ⟨tallySet _ b here,tallySet _ b here,tallySet _ b here,tallySet _ b here,tallySet _ b here,tallySet _ b here,
    tallySet _ b here,tallySet _ b here,tallySet _ b here,tallySet _ b here,tallySet _ b here,tallySet _ b here⟩

theorem movedSnoc (calls : List (Call α)) (b : Call α) : Moved calls (calls ++ [b]) .timedOut b :=
  ⟨tallySnoc _ _ _,tallySnoc _ _ _,tallySnoc _ _ _,tallySnoc _ _ _,tallySnoc _ _ _,tallySnoc _ _ _,
    tallySnoc _ _ _,tallySnoc _ _ _,tallySnoc _ _ _,tallySnoc _ _ _,tallySnoc _ _ _,tallySnoc _ _ _⟩

theorem headPlaces (c : Call α) : headBehind c + headAhead c + headStill c = atHead c := by
  cases c with
  | post _ _ place => cases place <;> rfl
  | _ => rfl

theorem tailPlaces (c : Call α) : tailBehind c + tailAhead c + tailStill c = atTail c := by
  cases c with
  | fetch _ place _ => cases place <;> rfl
  | _ => rfl

theorem accountsMove {s s' : Mbox α} {a b : Call α} (h : Accounts s) (moved : Moved s.calls s'.calls a b)
    (size : s'.size = s.size)
    (slots : s'.prodSem + claiming b + s'.posted.length + emptied b + s.fetched.length =
      s.prodSem + claiming a + s.posted.length + emptied a + s'.fetched.length)
    (items : s'.consSem + expecting b + s'.fetched.length + filled b + s.posted.length =
      s.consSem + expecting a + s.fetched.length + filled a + s'.posted.length)
    (headMutex : s'.headSem + atHead b = s.headSem + atHead a)
    (tailMutex : s'.tailSem + atTail b = s.tailSem + atTail a) : Accounts s' := by
  obtain ⟨slots',items',headMutex',tailMutex',headPlaces',tailPlaces'⟩ := h
  obtain ⟨m1,m2,m3,m4,m5,m6,m7,m8,m9,m10,m11,m12⟩ := moved
  have := headPlaces a
  have := headPlaces b
  have := tailPlaces a
  have := tailPlaces b
  exact ⟨by omega,by omega,by omega,by omega,by omega,by omega⟩

theorem headMove {s : Mbox α} {calls : List (Call α)} {a b : Call α} (moved : Moved s.calls calls a b) {count : Nat}
    (h : Pointer s.size count (tally headBehind s.calls) (tally headAhead s.calls) s.head)
    (same : headBehind a = headBehind b ∧ headAhead a = headAhead b) :
    Pointer s.size count (tally headBehind calls) (tally headAhead calls) s.head := by
  have m9 := moved.headBehind
  have m10 := moved.headAhead
  rw [show tally headBehind calls = tally headBehind s.calls by omega,
    show tally headAhead calls = tally headAhead s.calls by omega]
  exact h

theorem tailMove {s : Mbox α} {calls : List (Call α)} {a b : Call α} (moved : Moved s.calls calls a b) {count : Nat}
    (h : Pointer s.size count (tally tailBehind s.calls) (tally tailAhead s.calls) s.tail)
    (same : tailBehind a = tailBehind b ∧ tailAhead a = tailAhead b) :
    Pointer s.size count (tally tailBehind calls) (tally tailAhead calls) s.tail := by
  have m11 := moved.tailBehind
  have m12 := moved.tailAhead
  rw [show tally tailBehind calls = tally tailBehind s.calls by omega,
    show tally tailAhead calls = tally tailAhead s.calls by omega]
  exact h

structure Fifo (s : Mbox α) : Prop where
  accounts : Accounts s
  ring : Ring s

theorem fifoIdle {s : Mbox α} (h : Fifo s) {calls : List (Call α)} {a b : Call α} (moved : Moved s.calls calls a b)
    (idle : ∀ w ∈ [claiming,filled,expecting,emptied,atHead,atTail,headBehind,headAhead,tailBehind,tailAhead],
      w a = w b) : Fifo { s with calls := calls } := by
  simp only [List.forall_mem_cons,List.not_mem_nil,false_imp_iff,implies_true,and_true] at idle
  obtain ⟨i1,i2,i3,i4,i5,i6,i7,i8,i9,i10⟩ := idle
  refine ⟨accountsMove h.accounts moved rfl ?_ ?_ ?_ ?_,
    headMove moved h.ring.head ⟨i7,i8⟩,tailMove moved h.ring.tail ⟨i9,i10⟩,h.ring.order,h.ring.kept⟩ <;> simp only <;> omega

/- The call that holds a mutex is the only one at its pointer, before its step and after. -/
theorem headAlone {s : Mbox α} (h : Accounts s) {i : Nat} {a b : Call α} (here : s.calls[i]? = some a)
    (one : atHead a = 1) :
    tally headBehind s.calls = headBehind a ∧ tally headAhead s.calls = headAhead a ∧
      tally headBehind (s.calls.set i b) = headBehind b ∧ tally headAhead (s.calls.set i b) = headAhead b := by
  have moved := movedSet b here
  have := moved.headBehind
  have := moved.headAhead
  have := headPlaces a
  have := h.headMutex
  have := h.headPlaces
  have := tallyOf headStill here
  have := tallyOf headBehind here
  have := tallyOf headAhead here
  omega

theorem tailAlone {s : Mbox α} (h : Accounts s) {i : Nat} {a b : Call α} (here : s.calls[i]? = some a)
    (one : atTail a = 1) :
    tally tailBehind s.calls = tailBehind a ∧ tally tailAhead s.calls = tailAhead a ∧
      tally tailBehind (s.calls.set i b) = tailBehind b ∧ tally tailAhead (s.calls.set i b) = tailAhead b := by
  have moved := movedSet b here
  have := moved.tailBehind
  have := moved.tailAhead
  have := tailPlaces a
  have := h.tailMutex
  have := h.tailPlaces
  have := tallyOf tailStill here
  have := tallyOf tailBehind here
  have := tallyOf tailAhead here
  omega

theorem postFifo {s s1 : Mbox α} {i : Nat} {msg : α} {timed : Bool} {place : PostAt} {next : Option PostAt} (h : Fifo s)
    (here : s.calls[i]? = some (.post msg timed place)) (ok : postStep s msg place = some (s1,next)) :
    Fifo { s1 with calls := s.calls.set i (next.elim (.posted msg) (.post msg timed)) } := by
  obtain ⟨acc,⟨head,tail,order,kept⟩⟩ := h
  have moved := movedSet (next.elim (.posted msg) (.post msg timed)) here
  cases place <;> simp only [postStep] at ok
  case downProd =>
    split at ok
    · contradiction
    · cases Option.some.inj ok
      refine ⟨accountsMove acc moved rfl ?_ rfl rfl rfl,headMove moved head ⟨rfl,rfl⟩,tailMove moved tail ⟨rfl,rfl⟩,
        order,kept⟩
      simp only [Option.elim_some,claiming,emptied]; omega
  case downHead =>
    split at ok
    · contradiction
    · cases Option.some.inj ok
      refine ⟨accountsMove acc moved rfl rfl rfl ?_ rfl,headMove moved head ⟨rfl,rfl⟩,tailMove moved tail ⟨rfl,rfl⟩,
        order,kept⟩
      simp only [Option.elim_some,atHead]; omega
  case store =>
    cases Option.some.inj ok
    obtain ⟨behind,ahead,behind',ahead'⟩ := headAlone (b := .post msg timed .advance) acc here rfl
    rw [behind,ahead] at head
    have place := head.1 rfl rfl
    refine ⟨accountsMove acc moved rfl ?_ ?_ rfl rfl,?_,tailMove moved tail ⟨rfl,rfl⟩,
      order.trans (List.prefix_append _ _),?_⟩
    · simp only [Option.elim_some,claiming,emptied,List.length_append,List.length_singleton]; omega
    · simp only [Option.elim_some,expecting,filled,List.length_append,List.length_singleton]; omega
    · simp only [Option.elim_some,List.length_append,List.length_singleton,behind',ahead']
      exact pointerUse head
    · -- the slot is not one of those still to be fetched
      intro k v unread stored
      have claim := tallyOf claiming here
      have slots := acc.slots
      simp only [claiming] at claim
      simp only at unread stored ⊢
      rw [place]
      by_cases old : k < s.posted.length
      · rw [List.getElem?_append_left old] at stored
        rw [Function.update_of_ne (slotsDiffer old (by omega))]
        exact kept k v unread stored
      · have last : k = s.posted.length := by
          have := (List.getElem?_eq_some_iff.mp stored).1
          simp at this; omega
        subst last
        rw [Function.update_self]
        simpa using stored
  case advance =>
    cases Option.some.inj ok
    obtain ⟨behind,ahead,behind',ahead'⟩ := headAlone (b := .post msg timed .wrap) acc here rfl
    rw [behind,ahead] at head
    refine ⟨accountsMove acc moved rfl rfl rfl rfl rfl,?_,tailMove moved tail ⟨rfl,rfl⟩,order,kept⟩
    simp only [Option.elim_some,behind',ahead']
    exact pointerAdvance head
  case wrap =>
    cases Option.some.inj ok
    obtain ⟨behind,ahead,behind',ahead'⟩ := headAlone (b := .post msg timed .upHead) acc here rfl
    rw [behind,ahead] at head
    refine ⟨accountsMove acc moved rfl rfl rfl rfl rfl,?_,tailMove moved tail ⟨rfl,rfl⟩,order,kept⟩
    simp only [Option.elim_some,behind',ahead']
    exact pointerWrap head
  case upHead =>
    cases Option.some.inj ok
    exact ⟨accountsMove acc moved rfl rfl rfl rfl rfl,headMove moved head ⟨rfl,rfl⟩,tailMove moved tail ⟨rfl,rfl⟩,
      order,kept⟩
  case upCons =>
    cases Option.some.inj ok
    refine ⟨accountsMove acc moved rfl rfl ?_ rfl rfl,headMove moved head ⟨rfl,rfl⟩,tailMove moved tail ⟨rfl,rfl⟩,
      order,kept⟩
    simp only [Option.elim_none,expecting,filled]; omega

theorem fetchFifo {s s1 : Mbox α} {i : Nat} {timed : Bool} {place : FetchAt} {got got' : Option α}
    {next : Option FetchAt} (h : Fifo s) (here : s.calls[i]? = some (.fetch timed place got))
    (ok : fetchStep s place = some (s1,next)) :
    Fifo { s1 with calls := s.calls.set i (next.elim (.fetched got') (fun place => .fetch timed place got')) } := by
  obtain ⟨acc,⟨head,tail,order,kept⟩⟩ := h
  have moved := movedSet (next.elim (.fetched got') (fun place => .fetch timed place got')) here
  cases place <;> simp only [fetchStep] at ok
  case downCons =>
    split at ok
    · contradiction
    · cases Option.some.inj ok
      refine ⟨accountsMove acc moved rfl rfl ?_ rfl rfl,headMove moved head ⟨rfl,rfl⟩,tailMove moved tail ⟨rfl,rfl⟩,
        order,kept⟩
      simp only [Option.elim_some,expecting,filled]; omega
  case downTail =>
    split at ok
    · contradiction
    · cases Option.some.inj ok
      refine ⟨accountsMove acc moved rfl rfl rfl rfl ?_,headMove moved head ⟨rfl,rfl⟩,tailMove moved tail ⟨rfl,rfl⟩,
        order,kept⟩
      simp only [Option.elim_some,atTail]; omega
  case load =>
    cases Option.some.inj ok
    obtain ⟨behind,ahead,behind',ahead'⟩ := tailAlone (b := .fetch timed .advance got') acc here rfl
    rw [behind,ahead] at tail
    have place := tail.1 rfl rfl
    have expect := tallyOf expecting here
    have items := acc.items
    simp only [expecting] at expect
    have waiting : s.fetched.length < s.posted.length := by omega
    -- the oldest value stored and not fetched yet
    have value : s.data s.tail = s.posted[s.fetched.length] := by
      rw [place]
      exact kept _ _ (Nat.le_refl _) (List.getElem?_eq_getElem waiting)
    refine ⟨accountsMove acc moved rfl ?_ ?_ rfl rfl,headMove moved head ⟨rfl,rfl⟩,?_,?_,?_⟩
    · simp only [Option.elim_some,claiming,emptied,List.length_append,List.length_singleton]; omega
    · simp only [Option.elim_some,expecting,filled,List.length_append,List.length_singleton]; omega
    · simp only [Option.elim_some,List.length_append,List.length_singleton,behind',ahead']
      exact pointerUse tail
    · simp only [value]
      rw [List.prefix_iff_eq_take,List.length_append,List.length_singleton,List.take_succ_eq_append_getElem waiting]
      congr 1
      exact List.prefix_iff_eq_take.mp order
    · intro k v unread stored
      simp only [List.length_append,List.length_singleton] at unread
      exact kept k v (by omega) stored
  case advance =>
    cases Option.some.inj ok
    obtain ⟨behind,ahead,behind',ahead'⟩ := tailAlone (b := .fetch timed .wrap got') acc here rfl
    rw [behind,ahead] at tail
    refine ⟨accountsMove acc moved rfl rfl rfl rfl rfl,headMove moved head ⟨rfl,rfl⟩,?_,order,kept⟩
    simp only [Option.elim_some,behind',ahead']
    exact pointerAdvance tail
  case wrap =>
    cases Option.some.inj ok
    obtain ⟨behind,ahead,behind',ahead'⟩ := tailAlone (b := .fetch timed .upTail got') acc here rfl
    rw [behind,ahead] at tail
    refine ⟨accountsMove acc moved rfl rfl rfl rfl rfl,headMove moved head ⟨rfl,rfl⟩,?_,order,kept⟩
    simp only [Option.elim_some,behind',ahead']
    exact pointerWrap tail
  case upTail =>
    cases Option.some.inj ok
    exact ⟨accountsMove acc moved rfl rfl rfl rfl rfl,headMove moved head ⟨rfl,rfl⟩,tailMove moved tail ⟨rfl,rfl⟩,
      order,kept⟩
  case upProd =>
    cases Option.some.inj ok
    refine ⟨accountsMove acc moved rfl ?_ rfl rfl rfl,headMove moved head ⟨rfl,rfl⟩,tailMove moved tail ⟨rfl,rfl⟩,
      order,kept⟩
    simp only [Option.elim_none,claiming,emptied]; omega

theorem timeoutIdle {s s' : Mbox α} {i : Nat} (ok : step s (.timeout i) = some s') :
    s' = { s with calls := s.calls.set i .timedOut } := by
  simp only [step] at ok
  split at ok
  · exact (Option.some.inj ok).symm
  · exact (Option.some.inj ok).symm
  · contradiction

section
variable [DecidableEq α]

def storedBy (v : α) : Call α → Nat
  | .post msg timed place => if filled (.post msg timed place) = 1 ∧ msg = v then 1 else 0
  | .posted msg => if msg = v then 1 else 0
  | _ => 0

def loadedBy (v : α) : Call α → Nat
  | .fetch timed place got => if emptied (.fetch timed place got) = 1 ∧ got = some v then 1 else 0
  | .fetched got => if got = some v then 1 else 0
  | _ => 0

structure Logged (s : Mbox α) : Prop where
  stored : ∀ v, tally (storedBy v) s.calls = s.posted.count v
  loaded : ∀ v, tally (loadedBy v) s.calls = s.fetched.count v

theorem loggedMove {s s' : Mbox α} {i : Nat} {a b : Call α} (h : Logged s) (here : s.calls[i]? = some a)
    (calls : s'.calls = s.calls.set i b)
    (stored : ∀ v, s'.posted.count v + storedBy v a = s.posted.count v + storedBy v b)
    (loaded : ∀ v, s'.fetched.count v + loadedBy v a = s.fetched.count v + loadedBy v b) : Logged s' := by
  refine ⟨fun v => ?_,fun v => ?_⟩
  · have change := tallySet (storedBy v) b here
    have := stored v
    rw [h.stored v] at change
    rw [calls]; omega
  · have change := tallySet (loadedBy v) b here
    have := loaded v
    rw [h.loaded v] at change
    rw [calls]; omega

theorem postLogged {s s1 : Mbox α} {i : Nat} {msg : α} {timed : Bool} {place : PostAt} {next : Option PostAt}
    (h : Logged s) (here : s.calls[i]? = some (.post msg timed place)) (ok : postStep s msg place = some (s1,next)) :
    Logged { s1 with calls := s.calls.set i (next.elim (.posted msg) (.post msg timed)) } := by
  refine loggedMove h here rfl (fun v => ?_) (fun v => ?_)
  · cases place <;> simp only [postStep] at ok
    case store =>
      cases Option.some.inj ok
      simp [storedBy,filled,List.count_append,List.count_singleton]
    all_goals
      first | cases Option.some.inj ok | (split at ok; contradiction; cases Option.some.inj ok)
      simp [storedBy,filled]
  · cases place <;> simp only [postStep] at ok
    all_goals
      first | cases Option.some.inj ok | (split at ok; contradiction; cases Option.some.inj ok)
      rfl

theorem fetchLogged {s s1 : Mbox α} {i : Nat} {timed : Bool} {place : FetchAt} {got : Option α} {next : Option FetchAt}
    (h : Logged s) (here : s.calls[i]? = some (.fetch timed place got)) (ok : fetchStep s place = some (s1,next)) :
    Logged { s1 with calls := s.calls.set i (next.elim
      (.fetched (if place = .load then some (s.data s.tail) else got))
      (fun at' => .fetch timed at' (if place = .load then some (s.data s.tail) else got))) } := by
  refine loggedMove h here rfl (fun v => ?_) (fun v => ?_)
  · cases place <;> simp only [fetchStep] at ok
    all_goals
      first | cases Option.some.inj ok | (split at ok; contradiction; cases Option.some.inj ok)
      rfl
  · cases place <;> simp only [fetchStep] at ok
    case load =>
      cases Option.some.inj ok
      simp [loadedBy,emptied,List.count_append,List.count_singleton]
    all_goals
      first | cases Option.some.inj ok | (split at ok; contradiction; cases Option.some.inj ok)
      simp [loadedBy,emptied]

theorem idleLogged {s : Mbox α} {i : Nat} {a : Call α} (h : Logged s) (here : s.calls[i]? = some a)
    (idle : ∀ v, storedBy v a = 0 ∧ loadedBy v a = 0) : Logged { s with calls := s.calls.set i .timedOut } :=
  loggedMove h here rfl (fun v => by rw [(idle v).1]; rfl) (fun v => by rw [(idle v).2]; rfl)

theorem beginLogged {s : Mbox α} (h : Logged s) {c : Call α} (idle : ∀ v, storedBy v c = 0 ∧ loadedBy v c = 0) :
    Logged { s with calls := s.calls ++ [c] } :=
  ⟨fun v => by rw [tallySnoc,(idle v).1,h.stored v,Nat.add_zero],
    fun v => by rw [tallySnoc,(idle v).2,h.loaded v,Nat.add_zero]⟩

structure Kept (size : Nat) (s : Mbox α) : Prop where
  fifo : Fifo s
  logged : Logged s
  size : s.size = size

theorem stepKept {size : Nat} (s : Mbox α) (e : Event α) (s' : Mbox α) (h : Kept size s) (ok : step s e = some s') :
    Kept size s' := by
  cases e with
  | post msg timed =>
    cases Option.some.inj ok
    exact ⟨fifoIdle h.fifo (movedSnoc _ _) (by simp [claiming,filled,expecting,emptied,atHead,atTail,headBehind,headAhead,
      tailBehind,tailAhead]),beginLogged h.logged (by simp [storedBy,loadedBy,filled]),h.size⟩
  | fetch timed =>
    cases Option.some.inj ok
    exact ⟨fifoIdle h.fifo (movedSnoc _ _) (by simp [claiming,filled,expecting,emptied,atHead,atTail,headBehind,headAhead,
      tailBehind,tailAhead]),beginLogged h.logged (by simp [storedBy,loadedBy]),h.size⟩
  | go i =>
    obtain ⟨c,here,went⟩ := Option.bind_eq_some_iff.mp ok
    cases c with
    | post msg timed place =>
      obtain ⟨⟨s1,next⟩,moved,rfl⟩ := Option.map_eq_some_iff.mp went
      refine ⟨postFifo h.fifo here moved,postLogged h.logged here moved,?_⟩
      cases place <;> simp only [postStep] at moved
      all_goals
        first | cases Option.some.inj moved | (split at moved; contradiction; cases Option.some.inj moved)
        exact h.size
    | fetch timed place got =>
      obtain ⟨⟨s1,next⟩,moved,rfl⟩ := Option.map_eq_some_iff.mp went
      refine ⟨fetchFifo h.fifo here moved,fetchLogged h.logged here moved,?_⟩
      cases place <;> simp only [fetchStep] at moved
      all_goals
        first | cases Option.some.inj moved | (split at moved; contradiction; cases Option.some.inj moved)
        exact h.size
    | _ => contradiction
  | timeout i =>
    have same := timeoutIdle ok
    subst same
    simp only [step] at ok
    split at ok
    · rename_i here
      exact ⟨fifoIdle h.fifo (movedSet _ here) (by simp [claiming,filled,expecting,emptied,atHead,atTail,headBehind,
        headAhead,tailBehind,tailAhead]),idleLogged h.logged here (by simp [storedBy,loadedBy,filled]),h.size⟩
    · rename_i here
      exact ⟨fifoIdle h.fifo (movedSet _ here) (by simp [claiming,filled,expecting,emptied,atHead,atTail,headBehind,
        headAhead,tailBehind,tailAhead]),idleLogged h.logged here (by simp [storedBy,loadedBy,emptied]),h.size⟩
    · contradiction

/- A run of any calls: what was fetched is what was posted first, in order; what has not
been fetched still lies in its slot; the calls stored and loaded exactly the logged
values; and a timeout changes nothing but its own call. -/
theorem mailboxBoundedFifo {size : Nat} {data : Nat → α} {events : List (Event α)} {s : Mbox α}
    (ok : run step (mboxInit size data) events = some s) :
    s.fetched <+: s.posted ∧ s.posted.length ≤ s.fetched.length + size ∧
      (∀ k v, s.fetched.length ≤ k → s.posted[k]? = some v → s.data (k % size) = v) ∧
      (∀ v, tally (storedBy v) s.calls = s.posted.count v ∧ tally (loadedBy v) s.calls = s.fetched.count v) ∧
      ∀ i s', step s (.timeout i) = some s' → s' = { s with calls := s.calls.set i .timedOut } := by
  have start : Kept size (mboxInit size data) := by
    refine ⟨⟨⟨?_,?_,?_,?_,?_,?_⟩,⟨?_,?_,?_,?_⟩⟩,⟨?_,?_⟩,rfl⟩ <;> simp [mboxInit,tally,Pointer]
  obtain ⟨⟨accounts,ring⟩,logged,size'⟩ := runInvariant stepKept start ok
  have slots := accounts.slots
  rw [size'] at slots
  refine ⟨ring.order,by omega,?_,fun v => ⟨logged.stored v,logged.loaded v⟩,fun i s' => timeoutIdle⟩
  rw [← size']
  exact ring.kept

end

/- Two posts and a fetch on a mailbox with one slot: the second post waits for the
fetch, and a third gives up. -/
def oneSlotRun : List (Event Nat) :=
  [.post 7 false,.post 8 false,.fetch false,.go 0,.go 0,.go 0,.go 0,.go 0,.go 0,.go 0,.post 9 true,.timeout 3,
    .go 2,.go 2,.go 2,.go 2,.go 2,.go 2,.go 2,.go 1,.go 1,.go 1]

theorem mailboxBoundedFifoOneSlot :
    ∃ s, run step (mboxInit 1 (fun _ => 0)) oneSlotRun = some s ∧ (s.posted,s.fetched) = ([7,8],[7]) ∧
      s.fetched <+: s.posted := by
  obtain ⟨s,ok,logs⟩ := Option.map_eq_some_iff.mp (show (run step (mboxInit 1 (fun _ => 0)) oneSlotRun).map
    (fun s => (s.posted,s.fetched)) = some ([7,8],[7]) by decide)
  exact ⟨s,ok,logs,(mailboxBoundedFifo ok).1⟩

end Syslinux.Mailbox
