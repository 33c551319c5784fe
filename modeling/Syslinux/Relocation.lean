import Mathlib.Tactic

/-! Relocating fragments of a memory in place, over any byte type. `Pending` is the
invariant of a relocation under way: which fragments still carry wanted bytes, which
addresses are free to be overwritten, and that every wanted byte not carried any more
already lies in its place on an address nobody will reuse. -/
namespace Syslinux.Relocation

structure Move where
  dst : Nat
  src : Nat
  len : Nat
  deriving DecidableEq, Repr

def Move.inDst (m : Move) (a : Nat) : Prop := m.dst ≤ a ∧ a < m.dst + m.len
def Move.inSrc (m : Move) (a : Nat) : Prop := m.src ≤ a ∧ a < m.src + m.len
instance (m : Move) (a : Nat) : Decidable (m.inDst a) := by unfold Move.inDst; infer_instance
instance (m : Move) (a : Nat) : Decidable (m.inSrc a) := by unfold Move.inSrc; infer_instance

def DstApart (m n : Move) : Prop := m.dst + m.len ≤ n.dst ∨ n.dst + n.len ≤ m.dst
def SrcApart (m n : Move) : Prop := m.src + m.len ≤ n.src ∨ n.src + n.len ≤ m.src
instance : DecidableRel DstApart := fun m n => by unfold DstApart; infer_instance
instance : DecidableRel SrcApart := fun m n => by unfold SrcApart; infer_instance

theorem dstApartSymm {m n : Move} (h : DstApart m n) : DstApart n m := Or.symm h
theorem srcApartSymm {m n : Move} (h : SrcApart m n) : SrcApart n m := Or.symm h

theorem notInDst {m n : Move} {a : Nat} (apart : DstApart m n) (h : m.inDst a) : ¬ n.inDst a := by
  unfold DstApart at apart; unfold Move.inDst at h ⊢; omega

theorem notInSrc {m n : Move} {a : Nat} (apart : SrcApart m n) (h : m.inSrc a) : ¬ n.inSrc a := by
  unfold SrcApart at apart; unfold Move.inSrc at h ⊢; omega

section
variable {β : Type}

def Move.exec (m : Move) (mem : Nat → β) : Nat → β :=
  fun a => if m.inDst a then mem (m.src + (a - m.dst)) else mem a

def execAll (moves : List Move) (mem : Nat → β) : Nat → β := moves.foldl (fun mem m => m.exec mem) mem

theorem execAllSnoc (moves : List Move) (m : Move) (mem : Nat → β) :
    execAll (moves ++ [m]) mem = m.exec (execAll moves mem) := by
  simp [execAll]

theorem execInside {m : Move} {mem : Nat → β} {i : Nat} (h : i < m.len) :
    m.exec mem (m.dst + i) = mem (m.src + i) := by
  have inside : m.inDst (m.dst + i) := by unfold Move.inDst; omega
  simp [Move.exec,inside]

theorem execOutside {m : Move} {mem : Nat → β} {a : Nat} (h : ¬ m.inDst a) : m.exec mem a = mem a := by
  simp [Move.exec,h]

theorem execAllOutside {moves : List Move} {mem : Nat → β} {a : Nat} (away : ∀ m ∈ moves, ¬ m.inDst a) :
    execAll moves mem a = mem a := by
  induction moves generalizing mem with
  | nil => rfl
  | cons m rest ih =>
    obtain ⟨head,tail⟩ := List.forall_mem_cons.mp away
    exact (ih tail).trans (execOutside head)

theorem execAllReads {moves : List Move} {mem : Nat → β} {value : Nat → β}
    (reads : ∀ m ∈ moves, ∀ i, i < m.len → mem (m.src + i) = value (m.dst + i) ∧ ∀ n ∈ moves, ¬ n.inDst (m.src + i))
    {a : Nat} (covered : ∃ m ∈ moves, m.inDst a) : execAll moves mem a = value a := by
  induction moves generalizing mem with
  | nil => simp at covered
  | cons m rest ih =>
    by_cases later : ∃ n ∈ rest, n.inDst a
    · refine ih ?_ later
      intro n mem' i small
      obtain ⟨same,away⟩ := reads n (List.mem_cons_of_mem _ mem') i small
      obtain ⟨head,tail⟩ := List.forall_mem_cons.mp away
      exact ⟨(execOutside head).trans same,tail⟩
    · have away : ∀ n ∈ rest, ¬ n.inDst a := fun n mem' inside => later ⟨n,mem',inside⟩
      obtain ⟨n,mem',inside⟩ := covered
      rcases List.mem_cons.mp mem' with rfl | inRest
      · have at' : a = n.dst + (a - n.dst) := by unfold Move.inDst at inside; omega
        have small : a - n.dst < n.len := by unfold Move.inDst at inside; omega
        have first : execAll (n::rest) mem a = n.exec mem a := execAllOutside away
        rw [first,at',execInside small]
        exact (reads n List.mem_cons_self _ small).1
      · exact absurd inside (away n inRest)

structure Pending (free : Nat → Prop) (want : Nat → Option β) (mem : Nat → β) (frags : List Move) : Prop where
  nonempty : ∀ f ∈ frags, 0 < f.len
  held : ∀ f ∈ frags, ∀ a, f.inSrc a → ¬ free a
  srcs : frags.Pairwise SrcApart
  dsts : frags.Pairwise DstApart
  carries : ∀ f ∈ frags, ∀ i, i < f.len → want (f.dst + i) = some (mem (f.src + i))
  settled : ∀ a b, want a = some b → (∀ f ∈ frags, ¬ f.inDst a) →
    mem a = b ∧ ¬ free a ∧ ∀ f ∈ frags, ¬ f.inSrc a

variable {free free' : Nat → Prop} {want : Nat → Option β} {mem : Nat → β} {frags frags' : List Move} {f g : Move}

theorem Pending.perm (h : Pending free want mem frags) (same : frags.Perm frags') : Pending free want mem frags' where
  nonempty := fun f m => h.nonempty f (same.mem_iff.mpr m)
  held := fun f m => h.held f (same.mem_iff.mpr m)
  srcs := (same.pairwise_iff srcApartSymm).mp h.srcs
  dsts := (same.pairwise_iff dstApartSymm).mp h.dsts
  carries := fun f m => h.carries f (same.mem_iff.mpr m)
  settled := by
    intro a b wanted away
    obtain ⟨value,kept,apart⟩ := h.settled a b wanted (fun f m => away f (same.mem_iff.mp m))
    exact ⟨value,kept,fun f m => apart f (same.mem_iff.mpr m)⟩

theorem Pending.finished (h : Pending free want mem []) {a b} (wanted : want a = some b) : mem a = b :=
  (h.settled a b wanted (by simp)).1

theorem Pending.drop (h : Pending free want mem (f::frags)) (inPlace : f.src = f.dst) :
    Pending free want mem frags where
  nonempty := fun g m => h.nonempty g (List.mem_cons_of_mem _ m)
  held := fun g m => h.held g (List.mem_cons_of_mem _ m)
  srcs := (List.pairwise_cons.mp h.srcs).2
  dsts := (List.pairwise_cons.mp h.dsts).2
  carries := fun g m => h.carries g (List.mem_cons_of_mem _ m)
  settled := by
    intro a b wanted away
    by_cases inside : f.inDst a
    · have source : f.inSrc a := by unfold Move.inDst at inside; unfold Move.inSrc; omega
      have carried := h.carries f List.mem_cons_self (a - f.dst) (by unfold Move.inDst at inside; omega)
      have place : f.dst + (a - f.dst) = a := by unfold Move.inDst at inside; omega
      rw [inPlace,place,wanted] at carried
      refine ⟨(Option.some.inj carried).symm,h.held f List.mem_cons_self a source,?_⟩
      intro g m
      exact notInSrc ((List.pairwise_cons.mp h.srcs).1 g m) source
    · obtain ⟨value,kept,apart⟩ := h.settled a b wanted (by
        intro g m
        rcases List.mem_cons.mp m with rfl | inRest
        · exact inside
        · exact away g inRest)
      exact ⟨value,kept,fun g m => apart g (List.mem_cons_of_mem _ m)⟩

def Move.front (m : Move) (n : Nat) : Move := ⟨m.dst,m.src,n⟩
def Move.back (m : Move) (n : Nat) : Move := ⟨m.dst + n,m.src + n,m.len - n⟩

theorem inDstSplit {m : Move} {n a : Nat} (h : n ≤ m.len) :
    m.inDst a ↔ (m.front n).inDst a ∨ (m.back n).inDst a := by
  simp only [Move.inDst,Move.front,Move.back]; omega

theorem inSrcSplit {m : Move} {n a : Nat} (h : n ≤ m.len) :
    m.inSrc a ↔ (m.front n).inSrc a ∨ (m.back n).inSrc a := by
  simp only [Move.inSrc,Move.front,Move.back]; omega

theorem Pending.split (h : Pending free want mem (f::frags)) {n : Nat} (some' : 0 < n) (more : n < f.len) :
    Pending free want mem (f.front n::f.back n::frags) := by
  have le : n ≤ f.len := Nat.le_of_lt more
  have heads : ∀ g ∈ f.front n::f.back n::frags, g = f.front n ∨ g = f.back n ∨ g ∈ frags := by
    intro g m; simpa using m
  obtain ⟨srcHead,srcs⟩ := List.pairwise_cons.mp h.srcs
  obtain ⟨dstHead,dsts⟩ := List.pairwise_cons.mp h.dsts
  refine ⟨?_,?_,?_,?_,?_,?_⟩
  · intro g m
    rcases heads g m with rfl | rfl | inRest
    · exact some'
    · exact Nat.sub_pos_of_lt more
    · exact h.nonempty g (List.mem_cons_of_mem _ inRest)
  · intro g m a source
    rcases heads g m with rfl | rfl | inRest
    · exact h.held f List.mem_cons_self a ((inSrcSplit le).mpr (Or.inl source))
    · exact h.held f List.mem_cons_self a ((inSrcSplit le).mpr (Or.inr source))
    · exact h.held g (List.mem_cons_of_mem _ inRest) a source
  · refine List.Pairwise.cons ?_ (List.Pairwise.cons ?_ srcs)
    · intro g m
      rcases List.mem_cons.mp m with rfl | inRest
      · exact Or.inl (Nat.le_refl _)
      · have apart := srcHead g inRest
        simp only [SrcApart,Move.front] at apart ⊢; omega
    · intro g inRest
      have apart := srcHead g inRest
      simp only [SrcApart,Move.back] at apart ⊢; omega
  · refine List.Pairwise.cons ?_ (List.Pairwise.cons ?_ dsts)
    · intro g m
      rcases List.mem_cons.mp m with rfl | inRest
      · exact Or.inl (Nat.le_refl _)
      · have apart := dstHead g inRest
        simp only [DstApart,Move.front] at apart ⊢; omega
    · intro g inRest
      have apart := dstHead g inRest
      simp only [DstApart,Move.back] at apart ⊢; omega
  · intro g m i small
    rcases heads g m with rfl | rfl | inRest
    · exact h.carries f List.mem_cons_self i (Nat.lt_of_lt_of_le small le)
    · have carried := h.carries f List.mem_cons_self (n + i) (by simp only [Move.back] at small; omega)
      simpa only [Move.back,Nat.add_assoc] using carried
    · exact h.carries g (List.mem_cons_of_mem _ inRest) i small
  · intro a b wanted away
    obtain ⟨value,kept,apart⟩ := h.settled a b wanted (by
      intro g m inside
      rcases List.mem_cons.mp m with rfl | inRest
      · rcases (inDstSplit le).mp inside with h | h
        · exact away _ List.mem_cons_self h
        · exact away _ (List.mem_cons_of_mem _ List.mem_cons_self) h
      · exact away g (List.mem_cons_of_mem _ (List.mem_cons_of_mem _ inRest)) inside)
    refine ⟨value,kept,?_⟩
    intro g m source
    rcases heads g m with rfl | rfl | inRest
    · exact apart f List.mem_cons_self ((inSrcSplit le).mpr (Or.inl source))
    · exact apart f List.mem_cons_self ((inSrcSplit le).mpr (Or.inr source))
    · exact apart g (List.mem_cons_of_mem _ inRest) source

/- The move of a fragment to its destination. It may overlap its own source; it must
not overlap another's. Afterwards the destination counts as taken. -/
theorem Pending.settle (h : Pending free want mem (f::frags))
    (clear : ∀ g ∈ frags, ∀ a, f.inDst a → ¬ g.inSrc a)
    (taken : ∀ a, free' a → ¬ f.inDst a ∧ (free a ∨ f.inSrc a)) :
    Pending free' want (f.exec mem) frags := by
  obtain ⟨srcHead,srcs⟩ := List.pairwise_cons.mp h.srcs
  obtain ⟨dstHead,dsts⟩ := List.pairwise_cons.mp h.dsts
  refine ⟨fun g m => h.nonempty g (List.mem_cons_of_mem _ m),?_,srcs,dsts,?_,?_⟩
  · intro g m a source isFree
    rcases (taken a isFree).2 with old | own
    · exact h.held g (List.mem_cons_of_mem _ m) a source old
    · exact notInSrc (srcHead g m) own source
  · intro g m i small
    have source : g.inSrc (g.src + i) := by unfold Move.inSrc; omega
    rw [execOutside (fun inside => clear g m _ inside source)]
    exact h.carries g (List.mem_cons_of_mem _ m) i small
  · intro a b wanted away
    by_cases inside : f.inDst a
    · have place : f.dst + (a - f.dst) = a := by unfold Move.inDst at inside; omega
      have small : a - f.dst < f.len := by unfold Move.inDst at inside; omega
      have carried := h.carries f List.mem_cons_self (a - f.dst) small
      rw [place,wanted] at carried
      refine ⟨?_,fun isFree => (taken a isFree).1 inside,fun g m => clear g m a inside⟩
      rw [← place,execInside small]
      exact (Option.some.inj carried).symm
    · obtain ⟨value,kept,apart⟩ := h.settled a b wanted (by
        intro g m
        rcases List.mem_cons.mp m with rfl | inRest
        · exact inside
        · exact away g inRest)
      refine ⟨(execOutside inside).trans value,?_,fun g m => apart g (List.mem_cons_of_mem _ m)⟩
      intro isFree
      rcases (taken a isFree).2 with old | own
      · exact kept old
      · exact apart f List.mem_cons_self own

/- A fragment is moved out of the way into a free area, which then holds it. -/
theorem Pending.evict (h : Pending free want mem (f::frags)) (area : Nat) (free' : Nat → Prop)
    (open' : ∀ a, area ≤ a → a < area + f.len → free a)
    (taken : ∀ a, free' a → free a ∧ ¬ (area ≤ a ∧ a < area + f.len)) :
    Pending free' want ((Move.mk area f.src f.len).exec mem) (⟨f.dst,area,f.len⟩::frags) := by
  obtain ⟨srcHead,srcs⟩ := List.pairwise_cons.mp h.srcs
  obtain ⟨dstHead,dsts⟩ := List.pairwise_cons.mp h.dsts
  have clear : ∀ g ∈ f::frags, ∀ a, g.inSrc a → ¬ (Move.mk area f.src f.len).inDst a :=
    fun g m a source inside => h.held g m a source (open' a inside.1 inside.2)
  refine ⟨?_,?_,?_,?_,?_,?_⟩
  · intro g m
    rcases List.mem_cons.mp m with rfl | inRest
    · exact h.nonempty f List.mem_cons_self
    · exact h.nonempty g (List.mem_cons_of_mem _ inRest)
  · intro g m a source isFree
    rcases List.mem_cons.mp m with rfl | inRest
    · exact (taken a isFree).2 source
    · exact h.held g (List.mem_cons_of_mem _ inRest) a source (taken a isFree).1
  · refine List.Pairwise.cons ?_ srcs
    intro g m
    by_contra overlap
    simp only [SrcApart,not_or,not_le] at overlap
    have some' := h.nonempty g (List.mem_cons_of_mem _ m)
    have source : g.inSrc (max area g.src) := by unfold Move.inSrc; omega
    have some'' := h.nonempty f List.mem_cons_self
    exact clear g (List.mem_cons_of_mem _ m) _ source (by simp only [Move.inDst]; omega)
  · exact List.Pairwise.cons (fun g m => dstHead g m) dsts
  · intro g m i small
    rcases List.mem_cons.mp m with rfl | inRest
    · have moved : (Move.mk area f.src f.len).exec mem (area + i) = mem (f.src + i) := execInside small
      simp only [moved]
      exact h.carries f List.mem_cons_self i small
    · have source : g.inSrc (g.src + i) := by unfold Move.inSrc; omega
      rw [execOutside (clear g (List.mem_cons_of_mem _ inRest) _ source)]
      exact h.carries g (List.mem_cons_of_mem _ inRest) i small
  · intro a b wanted away
    obtain ⟨value,kept,apart⟩ := h.settled a b wanted (by
      intro g m
      rcases List.mem_cons.mp m with rfl | inRest
      · exact away (Move.mk g.dst area g.len) List.mem_cons_self
      · exact away g (List.mem_cons_of_mem _ inRest))
    have outside : ¬ (Move.mk area f.src f.len).inDst a := fun inside => kept (open' a inside.1 inside.2)
    refine ⟨(execOutside outside).trans value,fun isFree => kept (taken a isFree).1,?_⟩
    intro g m
    rcases List.mem_cons.mp m with rfl | inRest
    · exact outside
    · exact apart g (List.mem_cons_of_mem _ inRest)

theorem Pending.release (h : Pending free want mem frags) (free' : Nat → Prop)
    (spare : ∀ a, free' a → free a ∨
      (∀ g ∈ frags, ¬ g.inSrc a) ∧ ∀ b, want a = some b → ∃ g ∈ frags, g.inDst a) :
    Pending free' want mem frags where
  nonempty := h.nonempty
  held := by
    intro g m a source isFree
    rcases spare a isFree with old | ⟨vacant,_⟩
    · exact h.held g m a source old
    · exact vacant g m source
  srcs := h.srcs
  dsts := h.dsts
  carries := h.carries
  settled := by
    intro a b wanted away
    obtain ⟨value,kept,apart⟩ := h.settled a b wanted away
    refine ⟨value,?_,apart⟩
    intro isFree
    rcases spare a isFree with old | ⟨_,claimed⟩
    · exact kept old
    · obtain ⟨g,m,inside⟩ := claimed b wanted
      exact away g m inside

theorem Pending.sourceUnsettled (h : Pending free want mem frags) {a b} (m : f ∈ frags) (source : f.inSrc a)
    (wanted : want a = some b) : ∃ g ∈ frags, g.inDst a := by
  by_contra none'
  have away : ∀ g ∈ frags, ¬ g.inDst a := by
    intro g mem inside
    exact none' ⟨g,mem,inside⟩
  exact (h.settled a b wanted away).2.2 f m source

end
end Syslinux.Relocation
