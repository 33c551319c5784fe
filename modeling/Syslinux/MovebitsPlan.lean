import Syslinux.MovebitsSetup
import Syslinux.MovebitsTurn

/-! Whole runs of syslinux_compute_movelist: what sound turns deliver, and what they may
write. Where a turn is not sound the planner can overwrite a source it has not moved yet,
or memory that is nobody's; the two counterexamples are such runs. -/
namespace Syslinux.Movebits
open Zonelist Zonelist.MemmapType Relocation

/- The states at the head of the planning loop, with the mallocs still to come. -/
def turns : Nat → PlanState → List Bool → List (PlanState × List Bool)
  | 0,_,_ => []
  | fuel+1,s,m =>
      if s.frags = [] then [] else
      (s,m)::match planStep s m with
        | .ok (s',m') => turns fuel s' m'
        | .error _ => []

def planTurns (fuel : Nat) (ifrags : List Move) (memmap : List Zone) (m : List Bool) :
    List (PlanState × List Bool) :=
  match planSetup fuel ifrags memmap m with
  | .ok ((s,_),m') => turns fuel s m'
  | .error _ => []

theorem planKeeps {I : PlanState → Prop}
    (step : ∀ s m s' m', I s → SoundTurn s m → planStep s m = .ok (s',m') → I s')
    {fuel s m s' m'} (start : I s) (sound : ∀ t ∈ turns fuel s m, SoundTurn t.1 t.2)
    (ok : plan fuel s m = .ok (s',m')) : I s' ∧ s'.frags = [] := by
  induction fuel generalizing s m with
  | zero =>
    obtain ⟨mmap,frags,moves⟩ := s
    cases frags with
    | nil => rw [(workPure ok).1]; exact ⟨start,rfl⟩
    | cons f rest => simp only [plan] at ok; contradiction
  | succ fuel ih =>
    obtain ⟨mmap,frags,moves⟩ := s
    cases frags with
    | nil => rw [(workPure ok).1]; exact ⟨start,rfl⟩
    | cons f rest =>
      obtain ⟨s1,m1,first,later⟩ := workBind ok
      simp only [turns,reduceCtorEq,if_false,first] at sound
      refine ih (step _ _ _ _ start (sound _ List.mem_cons_self) first) ?_ later
      intro t mem
      exact sound t (List.mem_cons_of_mem _ mem)

section
variable {β : Type} {want : Nat → Option β} {mem : Nat → β}

theorem pendingPurgeAfter {free : Nat → Prop} (pre : List Move) {rest : List Move} (h : Pending free want mem (pre ++ rest)) :
    Pending free want mem (pre ++ rest.filter (fun o => o.src ≠ o.dst)) := by
  induction rest generalizing pre with
  | nil => exact h
  | cons f rest ih =>
    by_cases inPlace : f.src = f.dst
    · have dropped := (h.perm List.perm_middle).drop inPlace
      simpa [inPlace] using ih pre dropped
    · have moved : pre ++ f::rest = (pre ++ [f]) ++ rest := by simp
      rw [moved] at h
      simpa [inPlace] using ih (pre ++ [f]) h

theorem pendingPurge {free : Nat → Prop} {frags : List Move} (h : Pending free want mem frags) :
    Pending free want mem (purge frags) := by
  cases frags with
  | nil => exact h
  | cons f rest => exact pendingPurgeAfter [f] h

theorem chunkPending {mmap f copylen c others} (h : Pending (freeIn mmap) want mem (f::others)) (legal : Legal f)
    (chunk : ChunkOk mmap f copylen c)
    (clear : ∀ a, (need f).claims copylen a → ¬ freeIn mmap a ∧ ∀ g ∈ f::others, ¬ g.inSrc a) :
    Pending (freeIn c.mmap) want (c.move.exec mem) (c.left ++ others) := by
  obtain ⟨k,len,p,cut,move,left,differ,reach⟩ := chunk.cut
  have source : ∀ g ∈ p.before ++ p.after, ∀ a, g.inSrc a → f.inSrc a := by
    intro g m a inside
    refine cut.source ?_ inside
    simp only [Pieces.list,List.mem_append,List.mem_cons] at m ⊢
    rcases m with m | m
    · exact Or.inl m
    · exact Or.inr (Or.inr m)
  rw [left,move]
  rw [move] at differ
  refine (pendingCut h cut).settle ?_ ?_
  · intro g m a inside other
    rcases reach a inside with claimed | ⟨own,whole⟩
    · rcases List.mem_append.mp m with piece | rest
      · exact (clear a claimed).2 f List.mem_cons_self (source g piece a other)
      · exact (clear a claimed).2 g (List.mem_cons_of_mem _ rest) other
    · rw [left] at whole
      rw [whole,List.nil_append] at m
      exact notInSrc ((List.pairwise_cons.mp h.srcs).1 g m) own other
  · intro a isFree
    have freed := chunk.freed
    rw [move] at freed
    have exactly := (freedByOk (cut.legal legal p.here (hereMem p)) differ).2 a
    rcases freeAfterFree freed isFree with old | given
    · refine ⟨?_,Or.inl old⟩
      intro inside
      rcases reach a inside with claimed | ⟨own,_⟩
      · exact (clear a claimed).1 old
      · exact h.held f List.mem_cons_self a own old
    · have back := exactly.mp given
      exact ⟨back.2,Or.inr back.1⟩

structure Planning (want : Nat → Option β) (mem : Nat → β) (s : PlanState) : Prop where
  wf : WellFormed s.mmap
  legal : ∀ f ∈ s.frags, Legal f
  pending : Pending (freeIn s.mmap) want (execAll s.moves mem) s.frags

theorem chunkLegal {mmap f copylen c} (legal : Legal f) (chunk : ChunkOk mmap f copylen c) :
    ∀ g ∈ c.left, Legal g := by
  obtain ⟨k,len,p,cut,move,left,_⟩ := chunk.cut
  intro g m
  refine cut.legal legal g ?_
  rw [left] at m
  simp only [Pieces.list,List.mem_append,List.mem_cons] at m ⊢
  rcases m with m | m
  · exact Or.inl m
  · exact Or.inr (Or.inr m)

theorem turnLegal {s s'} (legal : ∀ f ∈ s.frags, Legal f) (turn : Turn s s') : ∀ f ∈ s'.frags, Legal f := by
  have legal' := purgeLegal legal
  cases turn with
  | discard frags _ next =>
    subst next
    intro g m
    exact legal g (frags ▸ List.mem_cons_of_mem _ m)
  | advance frags _ _ _ chunk _ _ left =>
    intro g m
    rcases List.mem_append.mp (left.mem_iff.mpr m) with piece | rest
    · exact chunkLegal (legal' _ (frags.mem_iff.mp List.mem_cons_self)) chunk g piece
    · exact legal' g (frags.mem_iff.mp (List.mem_cons_of_mem _ rest))
  | @evict f o others copy k q _ _ _ c frags _ area cut source _ _ chunk _ _ left =>
    have legalO : Legal o := legal' o (frags.mem_iff.mp List.mem_cons_self)
    intro g m
    rcases List.mem_append.mp (left.mem_iff.mpr m) with piece | rest
    · exact chunkLegal (legal' f (frags.mem_iff.mp (by simp))) chunk g piece
    · rcases List.mem_cons.mp rest with rfl | rest
      · have here := cut.legal legalO q.here (hereMem q)
        have fits := area.fits
        have len : q.here.len = copy.len := by rw [cut.here]
        unfold Legal at here ⊢
        simp only at fits ⊢
        omega
      · rcases List.mem_append.mp rest with piece | rest
        · refine cut.legal legalO g ?_
          simp only [Pieces.list,List.mem_append,List.mem_cons] at piece ⊢
          rcases piece with m | m
          · exact Or.inl m
          · exact Or.inr (Or.inr m)
        · exact legal' g (frags.mem_iff.mp (by simp [rest]))

theorem turnPending {s s'} (h : Planning want mem s) (turn : Turn s s') :
    Pending (freeIn s'.mmap) want (execAll s'.moves mem) s'.frags := by
  have legal' := purgeLegal h.legal
  have pending := pendingPurge h.pending
  cases turn with
  | discard frags inPlace next =>
    subst next
    have pending := h.pending
    rw [frags] at pending
    exact pending.drop inPlace
  | @advance f others copylen mmap c frags differ open' taken chunk mmap' moves left =>
    have ready := (pending.perm frags.symm).release (freeIn mmap) (fun a isFree => Or.inl (taken a isFree).1)
    rw [mmap',moves,execAllSnoc]
    refine (chunkPending ready (legal' f (frags.mem_iff.mp List.mem_cons_self)) chunk ?_).perm left
    intro a claimed
    refine ⟨fun isFree => (taken a isFree).2 claimed,?_⟩
    intro g m source
    exact (pending.perm frags.symm).held g m a source (open' a claimed)
  | @evict f o others copy k q mmap1 mmap2 copylen c frags differ area cut source taken trim chunk mmap' moves left =>
    have cutUp := pendingCut (pending.perm frags.symm) cut
    have len : q.here.len = copy.len := by rw [cut.here]
    have same : (Move.mk copy.dst q.here.src q.here.len) = copy := by rw [source,len]
    have evicted := cutUp.evict copy.dst (freeIn mmap1)
      (fun a low high => area.free a ⟨low,by simpa [len] using high⟩)
      (by
        intro a isFree
        have h := (freeAfterAlloc taken).mp isFree
        exact ⟨h.1,by simpa [Area.has,len] using h.2⟩)
    rw [same,len] at evicted
    -- the vacated bytes: nobody's source any more, and not settled
    have vacant : ∀ a, copy.inSrc a →
        (∀ g ∈ (⟨q.here.dst,copy.dst,copy.len⟩::(q.before ++ q.after ++ f::others) : List Move), ¬ g.inSrc a) ∧
        ∀ b, want a = some b →
          ∃ g ∈ (⟨q.here.dst,copy.dst,copy.len⟩::(q.before ++ q.after ++ f::others) : List Move), g.inDst a := by
      intro a inside
      have own : q.here.inSrc a := by unfold Move.inSrc at inside ⊢; omega
      refine ⟨?_,?_⟩
      · intro g m other
        rcases List.mem_cons.mp m with rfl | rest
        · exact cutUp.held q.here List.mem_cons_self a own (area.free a other)
        · exact notInSrc ((List.pairwise_cons.mp cutUp.srcs).1 g rest) own other
      · intro b wanted
        obtain ⟨g,m,to'⟩ := cutUp.sourceUnsettled List.mem_cons_self own wanted
        rcases List.mem_cons.mp m with rfl | rest
        · exact ⟨_,List.mem_cons_self,by unfold Move.inDst at to' ⊢; simp only; omega⟩
        · exact ⟨g,List.mem_cons_of_mem _ rest,to'⟩
    have released := evicted.release (freeIn mmap2) (by
      intro a isFree
      rcases trim.freed a isFree with old | ⟨inside,_⟩
      · exact Or.inl old
      · exact Or.inr (vacant a inside))
    have toFront : (⟨q.here.dst,copy.dst,copy.len⟩::(q.before ++ q.after ++ f::others) : List Move).Perm
        (f::⟨q.here.dst,copy.dst,copy.len⟩::(q.before ++ q.after ++ others)) :=
      (List.Perm.cons _ List.perm_middle).trans (List.Perm.swap _ _ _)
    rw [mmap',moves,show s.moves ++ [copy,c.move] = (s.moves ++ [copy]) ++ [c.move] by simp,execAllSnoc,execAllSnoc]
    refine (chunkPending (released.perm toFront) (legal' f (frags.mem_iff.mp (by simp))) chunk ?_).perm left
    intro a claimed
    have inside := trim.vacated a claimed
    refine ⟨?_,?_⟩
    · intro isFree
      rcases trim.freed a isFree with old | ⟨_,away⟩
      · have own : q.here.inSrc a := by unfold Move.inSrc at inside ⊢; omega
        exact cutUp.held q.here List.mem_cons_self a own ((freeAfterAlloc taken).mp old).1
      · exact away claimed
    · intro g m
      exact (vacant a inside).1 g (toFront.mem_iff.mpr m)

theorem turnWellFormed {s s'} (wf : WellFormed s.mmap) (turn : Turn s s') : WellFormed s'.mmap := by
  cases turn with
  | discard _ _ next => subst next; exact wf
  | advance _ _ _ _ chunk mmap' => rw [mmap']; exact chunk.freed.wf
  | evict _ _ _ _ _ _ _ chunk mmap' => rw [mmap']; exact chunk.freed.wf

theorem planningTurn {s s'} (h : Planning want mem s) (turn : Turn s s') : Planning want mem s' :=
  ⟨turnWellFormed h.wf turn,turnLegal h.legal turn,turnPending h turn⟩

def wanted (frags : List Move) (mem : Nat → β) (a : Nat) : Option β :=
  (frags.find? (fun f => f.inDst a)).map (fun f => mem (f.src + (a - f.dst)))

theorem wantedAt {frags : List Move} {f i} (apart : frags.Pairwise DstApart) (m : f ∈ frags) (small : i < f.len) :
    wanted frags mem (f.dst + i) = some (mem (f.src + i)) := by
  have inside : f.inDst (f.dst + i) := by unfold Move.inDst; omega
  induction frags with
  | nil => simp at m
  | cons g rest ih =>
    obtain ⟨head,tail⟩ := List.pairwise_cons.mp apart
    rcases List.mem_cons.mp m with rfl | later
    · simp [wanted,inside]
    · have other : ¬ g.inDst (f.dst + i) := fun h => notInDst (head f later) h inside
      have found := ih tail later
      simpa [wanted,other] using found

theorem wantedBy {frags : List Move} {a b} (h : wanted frags mem a = some b) : ∃ f ∈ frags, f.inDst a := by
  obtain ⟨f,found,_⟩ := Option.map_eq_some_iff.mp h
  exact ⟨f,List.mem_of_find?_eq_some found,by simpa using List.find?_some found⟩

theorem planningStart {fuel ifrags memmap m s postcopy m'} (mem : Nat → β) (wf : WellFormed memmap) (legal : ∀ f ∈ ifrags, Legal f)
    (srcs : ifrags.Pairwise SrcApart) (dsts : ifrags.Pairwise DstApart)
    (ok : planSetup fuel ifrags memmap m = .ok ((s,postcopy),m')) :
    Planning (wanted ifrags mem) mem s ∧ postcopy = [] := by
  obtain ⟨m1,m2,_,shuffled,empty,ready⟩ := planSetupOk wf ok
  have same := shuffleApart (by simpa using legal) (by simpa using srcs) shuffled
  simp only [List.nil_append,Prod.mk.injEq] at same
  obtain ⟨frags,rfl⟩ := same
  rw [frags] at ready
  obtain ⟨wf',free⟩ := ready legal
  refine ⟨⟨wf',by rw [frags]; exact legal,?_⟩,rfl⟩
  rw [empty,frags]
  refine ⟨fun f m => (legal f m).1,fun f m a source isFree => (free a isFree).2 f m source,srcs,dsts,
    fun f m i small => wantedAt dsts m small,?_⟩
  intro a b want away
  obtain ⟨f,m,inside⟩ := wantedBy want
  exact absurd inside (away f m)

theorem movelistDelivers {fuel ifrags memmap m moves m'} (wf : WellFormed memmap) (legal : ∀ f ∈ ifrags, Legal f)
    (srcs : ifrags.Pairwise SrcApart) (dsts : ifrags.Pairwise DstApart)
    (sound : ∀ t ∈ planTurns fuel ifrags memmap m, SoundTurn t.1 t.2)
    (ok : syslinuxComputeMovelist fuel ifrags memmap m = .ok (moves,m')) (mem : Nat → β) :
    ∀ f ∈ ifrags, ∀ i, i < f.len → execAll moves mem (f.dst + i) = mem (f.src + i) := by
  obtain ⟨⟨s,postcopy⟩,m1,setup,ok⟩ := workBind ok
  obtain ⟨s',m2,planned,ok⟩ := workBind ok
  obtain ⟨start,rfl⟩ := planningStart mem wf legal srcs dsts setup
  simp only [planTurns,setup] at sound
  obtain ⟨last,done⟩ := planKeeps
    (fun s m s' m' h sound step => planningTurn h (planStepTurn h.wf h.legal sound step)) start sound planned
  rw [(workPure ok).1,List.append_nil]
  intro f mf i small
  have pending := last.pending
  rw [done] at pending
  exact pending.finished (wantedAt dsts mf small)

end

theorem movelistDeliversSwap :
    syslinuxComputeMovelist 3 [⟨110,100,10⟩,⟨100,110,10⟩,⟨204,200,8⟩]
        [⟨0,smtUndefined⟩,⟨100,smtFree⟩,⟨0,smtEnd⟩] [] =
      .ok ([⟨204,200,8⟩,⟨120,110,10⟩,⟨110,100,10⟩,⟨100,120,10⟩],[]) ∧
    ∀ f ∈ [Move.mk 110 100 10,⟨100,110,10⟩,⟨204,200,8⟩], ∀ i, i < f.len →
      execAll [⟨204,200,8⟩,⟨120,110,10⟩,⟨110,100,10⟩,⟨100,120,10⟩] (id : Nat → Nat) (f.dst + i) = f.src + i :=
  ⟨rfl,@movelistDelivers Nat 3 _ [⟨0,smtUndefined⟩,⟨100,smtFree⟩,⟨0,smtEnd⟩] [] _ []
    (by simp [WellFormed,Follows]) (by decide) (by decide) (by decide) (by decide) rfl id⟩

/- is_free_zone answers the critical byte 115 with the FREE zone in front of the TERMINAL
one; the room computed from it wraps, and the move runs over the second source. -/
theorem movelistOverrunsSource :
    ¬ ∀ (fuel : Nat) (ifrags : List Move) (memmap : List Zone) (moves : List Move) (mem : Nat → Nat),
      WellFormed memmap → (∀ f ∈ ifrags, Legal f) → ifrags.Pairwise SrcApart → ifrags.Pairwise DstApart →
      syslinuxComputeMovelist fuel ifrags memmap [] = .ok (moves,[]) →
      ∀ f ∈ ifrags, ∀ i, i < f.len → execAll moves mem (f.dst + i) = mem (f.src + i) := by
  intro claim
  have wrong := claim 2 [⟨115,200,10⟩,⟨200,120,5⟩]
    [⟨0,smtUndefined⟩,⟨100,smtFree⟩,⟨110,smtTerminal⟩,⟨120,smtUndefined⟩,⟨0,smtEnd⟩]
    [⟨115,200,10⟩,⟨200,120,5⟩] id (by simp [WellFormed,Follows]) (by decide) (by decide) (by decide) rfl
    ⟨200,120,5⟩ (by decide) 0 (by decide)
  exact absurd wrong (by decide)

/- A byte a move may write: usable in the caller's map, or some fragment's source. -/
def Writable (ifrags : List Move) (memmap : List Zone) (a : Nat) : Prop :=
  Usable memmap a ∨ ∃ f ∈ ifrags, f.inSrc a
instance (ifrags memmap a) : Decidable (Writable ifrags memmap a) := by unfold Writable; infer_instance

structure Confined (may : Nat → Prop) (s : PlanState) : Prop where
  wf : WellFormed s.mmap
  legal : ∀ f ∈ s.frags, Legal f
  free : ∀ a, freeIn s.mmap a → may a
  sources : ∀ f ∈ s.frags, ∀ a, f.inSrc a → may a
  writes : ∀ mv ∈ s.moves, ∀ a, mv.inDst a → may a

theorem chunkConfined {may : Nat → Prop} {mmap f copylen c} (legal : Legal f) (chunk : ChunkOk mmap f copylen c)
    (free : ∀ a, freeIn mmap a → may a) (source : ∀ a, f.inSrc a → may a)
    (claimed : ∀ a, (need f).claims copylen a → may a) :
    (∀ a, freeIn c.mmap a → may a) ∧ (∀ g ∈ c.left, ∀ a, g.inSrc a → may a) ∧ ∀ a, c.move.inDst a → may a := by
  obtain ⟨k,len,p,cut,move,left,differ,reach⟩ := chunk.cut
  have freed := chunk.freed
  rw [move] at freed differ
  refine ⟨?_,?_,?_⟩
  · intro a isFree
    rcases freeAfterFree freed isFree with old | given
    · exact free a old
    · have back := ((freedByOk (cut.legal legal p.here (hereMem p)) differ).2 a).mp given
      exact source a (cut.source (hereMem p) back.1)
  · intro g m a inside
    rw [left] at m
    exact source a ((cut.rest g m).2.source inside)
  · intro a inside
    rw [move] at inside
    rcases reach a inside with h | h
    · exact claimed a h
    · exact source a h.1

theorem confinedTurn {may : Nat → Prop} {s s'} (h : Confined may s) (turn : Turn s s') : Confined may s' := by
  have legal' := purgeLegal h.legal
  have sources : ∀ f ∈ purge s.frags, ∀ a, f.inSrc a → may a := fun f m => h.sources f (purgeMem m)
  have facts : (∀ a, freeIn s'.mmap a → may a) ∧ (∀ f ∈ s'.frags, ∀ a, f.inSrc a → may a) ∧
      ∀ mv ∈ s'.moves, ∀ a, mv.inDst a → may a := by
    cases turn with
    | discard frags _ next =>
      subst next
      refine ⟨h.free,?_,h.writes⟩
      intro g m
      exact h.sources g (frags ▸ List.mem_cons_of_mem _ m)
    | @advance f others copylen mmap c frags _ open' taken chunk mmap' moves left =>
      have m := frags.mem_iff.mp List.mem_cons_self
      obtain ⟨free,rest,write⟩ := chunkConfined (legal' f m) chunk (fun a isFree => h.free a (taken a isFree).1)
        (sources f m) (fun a claimed => h.free a (open' a claimed))
      refine ⟨mmap' ▸ free,?_,?_⟩
      · intro g mg
        rcases List.mem_append.mp (left.mem_iff.mpr mg) with piece | old
        · exact rest g piece
        · exact sources g (frags.mem_iff.mp (List.mem_cons_of_mem _ old))
      · intro mv mm
        rw [moves] at mm
        rcases List.mem_append.mp mm with old | new
        · exact h.writes mv old
        · rw [List.mem_singleton.mp new]; exact write
    | @evict f o others copy k q mmap1 mmap2 copylen c frags _ area cut source taken trim chunk mmap' moves left =>
      have mo : o ∈ purge s.frags := frags.mem_iff.mp List.mem_cons_self
      have mf : f ∈ purge s.frags := frags.mem_iff.mp (by simp)
      have free1 : ∀ a, freeIn mmap1 a → may a := fun a isFree => h.free a ((freeAfterAlloc taken).mp isFree).1
      have vacated : ∀ a, copy.inSrc a → may a := by
        intro a inside
        refine sources o mo a (cut.source (hereMem q) ?_)
        have len : q.here.len = copy.len := by rw [cut.here]
        unfold Move.inSrc at inside ⊢; omega
      have free2 : ∀ a, freeIn mmap2 a → may a := by
        intro a isFree
        rcases trim.freed a isFree with old | given
        · exact free1 a old
        · exact vacated a given.1
      obtain ⟨free,rest,write⟩ := chunkConfined (legal' f mf) chunk free2 (sources f mf)
        (fun a claimed => vacated a (trim.vacated a claimed))
      refine ⟨mmap' ▸ free,?_,?_⟩
      · intro g mg a inside
        rcases List.mem_append.mp (left.mem_iff.mpr mg) with piece | old
        · exact rest g piece a inside
        · rcases List.mem_cons.mp old with rfl | old
          · exact h.free a (area.free a inside)
          · rcases List.mem_append.mp old with piece | old
            · exact sources o mo a ((cut.rest g piece).2.source inside)
            · exact sources g (frags.mem_iff.mp (by simp [old])) a inside
      · intro mv mm a inside
        rw [moves] at mm
        rcases List.mem_append.mp mm with old | new
        · exact h.writes mv old a inside
        · simp only [List.mem_cons,List.not_mem_nil,or_false] at new
          rcases new with rfl | rfl
          · exact h.free a (area.free a inside)
          · exact write a inside
  exact ⟨turnWellFormed h.wf turn,turnLegal h.legal turn,facts.1,facts.2.1,facts.2.2⟩

theorem confinedStart {fuel ifrags memmap m s postcopy m'} (wf : WellFormed memmap) (legal : ∀ f ∈ ifrags, Legal f)
    (sound : ∀ t ∈ dealiasScans fuel ifrags m, SoundScan t)
    (ok : planSetup fuel ifrags memmap m = .ok ((s,postcopy),m')) :
    Confined (Writable ifrags memmap) s ∧ ∀ p ∈ postcopy, ∀ a, p.inDst a → Aliased ifrags a := by
  obtain ⟨m1,m2,same,shuffled,empty,ready⟩ := planSetupOk wf ok
  have dealiased := shuffleDealiasOk (dealiasingStart legal) (fun t mem => sound t (same t mem)) shuffled
  have legal' : ∀ f ∈ s.frags, Legal f := by simpa using dealiased.legal
  obtain ⟨wf',free⟩ := ready legal'
  refine ⟨⟨wf',legal',fun a isFree => Or.inl (free a isFree).1,?_,by simp [empty]⟩,dealiased.post⟩
  intro g mg a inside
  obtain ⟨ls,names,_,pieces⟩ := dealiased.labelled
  rw [List.append_nil] at names
  obtain ⟨⟨i,g'⟩,mem,rfl⟩ := List.mem_map.mp (names ▸ mg)
  obtain ⟨f,isF,piece⟩ := pieces (i,g') mem
  exact Or.inr ⟨f,List.mem_of_getElem? isF,piece.source inside⟩

theorem movelistConfined {fuel ifrags memmap m moves m'} (wf : WellFormed memmap) (legal : ∀ f ∈ ifrags, Legal f)
    (scansSound : ∀ t ∈ dealiasScans fuel ifrags m, SoundScan t)
    (aliases : ∀ a, Aliased ifrags a → Writable ifrags memmap a)
    (sound : ∀ t ∈ planTurns fuel ifrags memmap m, SoundTurn t.1 t.2)
    (ok : syslinuxComputeMovelist fuel ifrags memmap m = .ok (moves,m')) :
    ∀ mv ∈ moves, ∀ a, mv.inDst a → Writable ifrags memmap a := by
  obtain ⟨⟨s,postcopy⟩,m1,setup,ok⟩ := workBind ok
  obtain ⟨s',m2,planned,ok⟩ := workBind ok
  obtain ⟨start,post⟩ := confinedStart wf legal scansSound setup
  simp only [planTurns,setup] at sound
  obtain ⟨last,_⟩ := planKeeps
    (fun s m s' m' h sound step => confinedTurn h (planStepTurn h.wf h.legal sound step)) start sound planned
  rw [(workPure ok).1]
  intro mv mm a inside
  rcases List.mem_append.mp mm with planned | copied
  · exact last.writes mv planned a inside
  · exact aliases a (post mv copied a inside)

/- The third fragment reads bytes the first one moves; its part of them is a post-copy. -/
theorem movelistConfinedAlias :
    syslinuxComputeMovelist 4 [⟨110,200,10⟩,⟨100,110,10⟩,⟨300,205,10⟩]
        [⟨0,smtUndefined⟩,⟨100,smtFree⟩,⟨0,smtEnd⟩] [] =
      .ok ([⟨100,110,10⟩,⟨110,200,10⟩,⟨305,210,5⟩,⟨300,115,5⟩],[]) ∧
    ∀ mv ∈ [Move.mk 100 110 10,⟨110,200,10⟩,⟨305,210,5⟩,⟨300,115,5⟩], ∀ a, mv.inDst a →
      Writable [⟨110,200,10⟩,⟨100,110,10⟩,⟨300,205,10⟩] [⟨0,smtUndefined⟩,⟨100,smtFree⟩,⟨0,smtEnd⟩] a := by
  refine ⟨rfl,?_⟩
  refine @movelistConfined 4 _ _ [] _ [] (by simp [WellFormed,Follows]) (by decide) (by decide) ?_
    (by decide) rfl
  rintro a ⟨i,j,g,f,_,_,isF,inside,_⟩
  have low : 100 ≤ a := by
    have m := List.mem_of_getElem? isF
    unfold Move.inDst at inside
    simp only [List.mem_cons,List.not_mem_nil,or_false] at m
    rcases m with rfl | rfl | rfl <;> simp only at inside <;> omega
  refine Or.inl (Or.inl ?_)
  simp [typeAt,typeFrom,low]

theorem movelistWritesReserved :
    ¬ ∀ (fuel : Nat) (ifrags : List Move) (memmap : List Zone) (moves : List Move),
      WellFormed memmap → (∀ f ∈ ifrags, Legal f) → ifrags.Pairwise DstApart →
      syslinuxComputeMovelist fuel ifrags memmap [] = .ok (moves,[]) →
      ∀ mv ∈ moves, ∀ a, mv.inDst a → Writable ifrags memmap a := by
  intro claim
  have wrong := claim 1 [⟨115,200,10⟩]
    [⟨0,smtUndefined⟩,⟨100,smtFree⟩,⟨110,smtTerminal⟩,⟨120,smtReserved⟩,⟨130,smtUndefined⟩,⟨0,smtEnd⟩]
    [⟨115,200,10⟩] (by simp [WellFormed,Follows]) (by decide) (by decide) rfl ⟨115,200,10⟩ (by decide) 120 (by decide)
  exact absurd wrong (by decide)

end Syslinux.Movebits
