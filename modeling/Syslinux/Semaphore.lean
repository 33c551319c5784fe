import Syslinux.Runs

/-! The semaphores of core/thread: sem_asm.S, semaphore.c, timeout.c and kill_thread.c.
An event is what runs without interruption: the locked decl or incl of the fast path, or
a slow path with interrupts disabled. Between the two a thread is listed in `downs` or
`ups`. Time is not modelled: a waiter with a timeout may time out at any moment. The
semaphore is valid throughout and the count stays in the range of an int. -/
namespace Syslinux.Semaphore
open Runs

/- sem_down's timeout argument: -1, 0, or a number of milliseconds. -/
inductive Timeout where
  | immediate | forever | after
  deriving DecidableEq, Repr

structure Waiter where
  thread : Nat
  timeout : Timeout
  deriving DecidableEq, Repr

structure Sem where
  count : Int
  queue : List Waiter
  downs : List Waiter
  ups : List Nat
  deriving DecidableEq, Repr

def semInit (count : Int) : Sem := ⟨count,[],[],[]⟩

def Sem.busy (s : Sem) (t : Nat) : Prop := t ∈ s.queue.map Waiter.thread ∨ t ∈ s.downs.map Waiter.thread ∨ t ∈ s.ups
instance (s : Sem) (t : Nat) : Decidable (s.busy t) := by unfold Sem.busy; infer_instance

def semDown (s : Sem) (t : Nat) (timeout : Timeout) : Sem :=
  if s.count - 1 < 0 then { s with count := s.count - 1, downs := s.downs ++ [⟨t,timeout⟩] }
  else { s with count := s.count - 1 }

def semDownSlow (s : Sem) (w : Waiter) : Sem :=
  let s := { s with downs := s.downs.erase w }
  if 0 ≤ s.count then s
  else if w.timeout = .immediate then { s with count := s.count + 1 }
  else { s with queue := s.queue ++ [w] }

def semUp (s : Sem) (t : Nat) : Sem :=
  if s.count + 1 ≤ 0 then { s with count := s.count + 1, ups := s.ups ++ [t] }
  else { s with count := s.count + 1 }

def semUpSlow (s : Sem) (t : Nat) : Sem := { s with ups := s.ups.erase t, queue := s.queue.tail }

/- Taken off the queue by a timeout or by kill_thread. -/
def takeOff (s : Sem) (w : Waiter) : Sem := { s with queue := s.queue.erase w, count := s.count + 1 }

def killThread (s : Sem) (t : Nat) : Sem :=
  match s.queue.find? (fun w => w.thread = t) with
  | some w => takeOff s w
  | none => { s with downs := s.downs.filter (fun w => w.thread ≠ t), ups := s.ups.erase t }

inductive Event where
  | down (t : Nat) (timeout : Timeout)
  | downSlow (w : Waiter)
  | up (t : Nat)
  | upSlow (t : Nat)
  | timeout (w : Waiter)
  | kill (t : Nat)
  deriving DecidableEq, Repr

def step (s : Sem) : Event → Option Sem
  | .down t timeout => if s.busy t then none else some (semDown s t timeout)
  | .downSlow w => if w ∈ s.downs then some (semDownSlow s w) else none
  | .up t => if s.busy t then none else some (semUp s t)
  | .upSlow t => if t ∈ s.ups then some (semUpSlow s t) else none
  | .timeout w => if w ∈ s.queue ∧ w.timeout = .after then some (takeOff s w) else none
  | .kill t => some (killThread s t)

/- The steps after which a sem_up can be lost: a down that finds the count back at 0
while threads from an earlier round are still on their way to the queue; an up that
finds an empty queue while more threads are on their way than the count allows for; an
up killed before it has woken anybody. -/
def SafeStep (s : Sem) : Event → Prop
  | .down _ _ => s.count = 0 → s.queue.length + s.downs.length ≤ s.ups.length
  | .upSlow _ => s.queue = [] → s.count < 0 → (s.downs.length : Int) + 1 ≤ -s.count + s.ups.length
  | .kill t => t ∈ s.ups → s.queue = [] ∧ s.downs = []
  | _ => True
instance (s : Sem) (e : Event) : Decidable (SafeStep s e) := by unfold SafeStep; split <;> infer_instance

/- The two steps that can leave more waiters than the count tells of: the slow path of a
sem_down, late, and the increment of a sem_up, which leaves the thread it will wake in the
queue until its own slow path. -/
def CoveredStep (s : Sem) : Event → Prop
  | .downSlow _ | .up _ => s.count < 0 → (s.queue.length : Int) < -s.count
  | _ => True
instance (s : Sem) (e : Event) : Decidable (CoveredStep s e) := by unfold CoveredStep; split <;> infer_instance

def Covered (s : Sem) : Prop := (s.queue.length : Int) ≤ max 0 (-s.count)

structure Accounted (s : Sem) : Prop where
  queued : (s.queue.length : Int) ≤ max 0 (-s.count) + s.ups.length
  onTheWay : s.count < 0 → (s.queue.length : Int) + s.downs.length ≤ -s.count + s.ups.length

theorem lengthErase {α : Type} [DecidableEq α] {a : α} {l : List α} (m : a ∈ l) : (l.erase a).length + 1 = l.length := by
  have pos := List.length_pos_of_mem m
  rw [List.length_erase_of_mem m]; omega

theorem takeOffAccounted {s w} (h : Accounted s) (m : w ∈ s.queue) : Accounted (takeOff s w) := by
  have shorter := lengthErase m
  have queued := h.queued
  refine ⟨?_,?_⟩
  · simp only [takeOff]; omega
  · intro negative
    simp only [takeOff] at negative ⊢
    have onTheWay := h.onTheWay (by omega)
    omega

theorem stepAccounted (s : Sem) (e : Event) (s' : Sem) (h : Accounted s) (safe : SafeStep s e)
    (ok : step s e = some s') : Accounted s' := by
  have queued := h.queued
  cases e with
  | down t timeout =>
    simp only [step] at ok
    split at ok
    · contradiction
    · cases Option.some.inj ok
      unfold semDown
      split
      · refine ⟨by simp only; omega,?_⟩
        intro _
        simp only [List.length_append,List.length_singleton]
        by_cases zero : s.count = 0
        · have := safe zero; omega
        · have := h.onTheWay (by omega); omega
      · exact ⟨by simp only; omega,by simp only; omega⟩
  | downSlow w =>
    simp only [step] at ok
    split at ok
    · rename_i m
      cases Option.some.inj ok
      have shorter := lengthErase m
      unfold semDownSlow
      simp only
      split
      · exact ⟨queued,by simp only; omega⟩
      · have onTheWay := h.onTheWay (by omega)
        split
        · exact ⟨by simp only; omega,by simp only; omega⟩
        · exact ⟨by simp; omega,by simp; omega⟩
    · contradiction
  | up t =>
    simp only [step] at ok
    split at ok
    · contradiction
    · cases Option.some.inj ok
      unfold semUp
      split
      · have onTheWay := h.onTheWay (by omega)
        exact ⟨by simp; omega,by simp; omega⟩
      · exact ⟨by simp only; omega,by simp only; omega⟩
  | upSlow t =>
    simp only [step] at ok
    split at ok
    · rename_i m
      cases Option.some.inj ok
      have shorter := lengthErase m
      unfold semUpSlow
      cases queue : s.queue with
      | nil =>
        refine ⟨by simp only [List.tail_nil,List.length_nil]; omega,?_⟩
        intro negative
        have := safe queue negative
        simp only [List.tail_nil,List.length_nil] at negative ⊢; omega
      | cons w rest =>
        simp only [queue,List.length_cons] at queued
        refine ⟨by simp only [List.tail_cons]; omega,?_⟩
        intro negative
        have onTheWay := h.onTheWay negative
        simp only [queue,List.length_cons] at onTheWay
        simp only [List.tail_cons]; omega
    · contradiction
  | timeout w =>
    simp only [step] at ok
    split at ok
    · rename_i m
      cases Option.some.inj ok
      exact takeOffAccounted h m.1
    · contradiction
  | kill t =>
    cases Option.some.inj ok
    unfold killThread
    split
    · rename_i w found
      exact takeOffAccounted h (List.mem_of_find?_eq_some found)
    · have fewer := List.length_filter_le (fun w : Waiter => decide (w.thread ≠ t)) s.downs
      by_cases m : t ∈ s.ups
      · obtain ⟨noQueue,noDowns⟩ := safe m
        exact ⟨by simp only [noQueue,List.length_nil]; omega,by simp [noQueue,noDowns]; omega⟩
      · rw [List.erase_of_not_mem m]
        refine ⟨queued,?_⟩
        intro negative
        have onTheWay := h.onTheWay negative
        simp only; omega

theorem takeOffCovered {s w} (h : Covered s) (m : w ∈ s.queue) : Covered (takeOff s w) := by
  have shorter := lengthErase m
  unfold Covered at h ⊢
  simp only [takeOff]
  omega

theorem stepCovered (s : Sem) (e : Event) (s' : Sem) (h : Covered s) (ok : step s e = some s') :
    CoveredStep s e ↔ Covered s' := by
  cases e with
  | down t timeout =>
    simp only [step] at ok
    split at ok
    · contradiction
    · cases Option.some.inj ok
      refine iff_of_true trivial ?_
      unfold Covered at h ⊢
      unfold semDown
      split <;> simp only <;> omega
  | downSlow w =>
    simp only [step] at ok
    split at ok
    · cases Option.some.inj ok
      unfold Covered at h ⊢
      change (s.count < 0 → (s.queue.length : Int) < -s.count) ↔ _
      unfold semDownSlow
      simp only
      split
      · exact iff_of_true (by omega) h
      · split
        · simp only; omega
        · simp only [List.length_append,List.length_singleton]; omega
    · contradiction
  | up t =>
    simp only [step] at ok
    split at ok
    · contradiction
    · cases Option.some.inj ok
      unfold Covered at h ⊢
      change (s.count < 0 → (s.queue.length : Int) < -s.count) ↔ _
      unfold semUp
      split
      · simp only; omega
      · simp only; omega
  | upSlow t =>
    simp only [step] at ok
    split at ok
    · cases Option.some.inj ok
      refine iff_of_true trivial ?_
      unfold Covered at h ⊢
      simp only [semUpSlow,List.length_tail]
      omega
    · contradiction
  | timeout w =>
    simp only [step] at ok
    split at ok
    · rename_i m
      cases Option.some.inj ok
      exact iff_of_true trivial (takeOffCovered h m.1)
    · contradiction
  | kill t =>
    cases Option.some.inj ok
    refine iff_of_true trivial ?_
    unfold killThread
    split
    · rename_i w found
      exact takeOffCovered h (List.mem_of_find?_eq_some found)
    · exact h

/- The bound in every state, and where a run of safe steps has it all the same: in each
state with no sem_up before its slow path. -/
theorem waitersCovered {count : Int} {events : List Event} {s : Sem} (ok : run step (semInit count) events = some s) :
    (Along step CoveredStep (semInit count) events ↔
      ∀ n s', run step (semInit count) (events.take n) = some s' → (s'.queue.length : Int) ≤ max 0 (-s'.count)) ∧
    (Along step SafeStep (semInit count) events → (s.queue.length : Int) ≤ max 0 (-s.count) + s.ups.length ∧
      (s.ups = [] → (s.queue.length : Int) ≤ max 0 (-s.count))) := by
  refine ⟨alongIff stepCovered (by simp [Covered,semInit]) ok,fun safe => ?_⟩
  have start : Accounted (semInit count) := ⟨by simp [semInit],by simp [semInit]; omega⟩
  have last := (runKeeps stepAccounted start safe ok).queued
  refine ⟨last,?_⟩
  intro none'
  simpa [none'] using last

/- Two threads wait, the first with a timeout that fires; a third wakes the second. In the
other run the sem_up comes before the second thread has queued. -/
def handover : List Event :=
  [.down 1 .after,.downSlow ⟨1,.after⟩,.down 2 .forever,.downSlow ⟨2,.forever⟩,.timeout ⟨1,.after⟩,.up 3,.upSlow 3]
def earlyUp : List Event :=
  [.down 1 .forever,.downSlow ⟨1,.forever⟩,.down 2 .forever,.up 3,.upSlow 3,.downSlow ⟨2,.forever⟩]

theorem waitersCoveredHandover :
    (∃ s, run step (semInit 0) handover = some s ∧ (s.queue.length : Int) ≤ max 0 (-s.count) + s.ups.length) ∧
    ∀ n s, run step (semInit 0) (earlyUp.take n) = some s → (s.queue.length : Int) ≤ max 0 (-s.count) :=
  ⟨⟨⟨0,[],[],[]⟩,by decide,((@waitersCovered 0 handover _ (by decide)).2 (by decide)).1⟩,
    (@waitersCovered 0 earlyUp ⟨-1,[⟨2,.forever⟩],[],[]⟩ (by decide)).1.mp (by decide)⟩

/- Thread 1 goes down and is interrupted; 2 brings the count back to 0 and finds nobody
queued; 3 goes down and queues, which makes the count negative again, so that 1 queues
as well instead of bailing out. The next up wakes 3 only, and a further one nobody: 1
stays queued with nothing in flight and the count at 1. -/
theorem wakeupLost :
    ¬ ∀ (count : Int) (events : List Event) (s : Sem), run step (semInit count) events = some s →
      s.ups = [] → s.downs = [] → (s.queue.length : Int) ≤ max 0 (-s.count) := by
  intro claim
  have wrong := claim 0 [.down 1 .forever,.up 2,.upSlow 2,.down 3 .forever,.downSlow ⟨3,.forever⟩,
    .downSlow ⟨1,.forever⟩,.up 2,.upSlow 2,.up 2] ⟨1,[⟨1,.forever⟩],[],[]⟩ (by decide) rfl rfl
  exact absurd wrong (by decide)

end Syslinux.Semaphore
