import Syslinux.MovebitsPlan
import Syslinux.ZonelistOrder

/-! The calls of split_movelist in the planning loop. A fragment is split where part of it is
evicted and where part of it is moved into place. The part to evict starts at
cbyte + 1 - flen when the need is at the upper end; with more free memory than there are bytes
below the critical one that difference wraps, and the split starts outside the fragment. Without
such an eviction every turn also leaves fewer bytes to move. -/
namespace Syslinux.Movebits
open Zonelist Zonelist.MemmapType Relocation

/- One call of split_movelist on the fragment ml. -/
structure Split where
  start : Nat
  len : Nat
  ml : Move
  deriving DecidableEq, Repr

/- The assertions at its head, in addr_t arithmetic. -/
def Split.Asserted (c : Split) : Prop := c.ml.src ≤ c.start ∧ c.start < add32 c.ml.src c.ml.len
instance (c : Split) : Decidable c.Asserted := by unfold Split.Asserted; infer_instance

/- The pieces follow each other in source and destination and make up the fragment. -/
def Joined (f : Move) : List Move → Prop
  | [] => f.len = 0
  | g::rest => g.dst = f.dst ∧ g.src = f.src ∧ g.len ≤ f.len ∧ Joined (f.back g.len) rest

def trimmed (n : Need) (copy : Move) : Nat :=
  if n.len < copy.len then
    let copylen := if copy.src < n.base then sub32 copy.len (n.base - copy.src) else copy.len
    if n.len < copylen then n.len else copylen
  else copy.len

def chunkSplits (f : Move) (copylen : Nat) : List Split :=
  if copylen < (need f).len then
    [⟨if (need f).reverse then add32 f.src (sub32 f.len copylen) else f.src,copylen,f⟩]
  else []

def Choice.splits : Choice → List Split
  | .place p => chunkSplits p.here (need p.here).len
  | .claim _ copylen f _ => chunkSplits f copylen
  | .evict n f p copy =>
      (if copy.len < p.here.len then [⟨copy.src,copy.len,p.here⟩] else []) ++ chunkSplits f (trimmed n copy)
  | _ => []

def turnSplits (s : PlanState) : List Split := (choose s.mmap s.frags).splits

def WrapsBack (mmap : List Zone) (n : Need) (o : Move) : Prop :=
  n.reverse = true ∧ isFreeZone mmap o.dst o.len = none ∧ freeArea mmap o.len = none ∧
    (syslinuxMemmapLargest mmap smtFree).any (fun area => n.cbyte + 1 < area.len) = true
instance (mmap n o) : Decidable (WrapsBack mmap n o) := by unfold WrapsBack; infer_instance

def Unwrapped (s : PlanState) : Prop :=
  match choose s.mmap s.frags with
  | .evict n _ p _ => ¬ WrapsBack s.mmap n p.here
  | _ => True
instance (s : PlanState) : Decidable (Unwrapped s) := by unfold Unwrapped; split <;> infer_instance

/- A fragment moved in part does not end at the top of the address space, where src + len is 0. -/
def BelowTop (s : PlanState) : Prop :=
  match choose s.mmap s.frags with
  | .claim n copylen f _ => copylen < n.len → f.src + f.len < 2^32
  | .evict n f _ copy => trimmed n copy < n.len → f.src + f.len < 2^32
  | _ => True
instance (s : PlanState) : Decidable (BelowTop s) := by unfold BelowTop; split <;> infer_instance

section Zones
variable {z next : Zone} {rest list : List Zone} {len : Nat} {area : Area}

def Area.Fits (area : Area) : Prop := area.start + area.len ≤ 2^32

def Standing : List Zone → Prop
  | [] => True
  | z::rest => z.start < 2^32 ∧ (z.type ≠ smtEnd → Rising (z.start + 1) rest)

theorem standingWhole (h : Ordered list) : Standing list := by
  cases list with
  | nil => trivial
  | cons z rest =>
    obtain ⟨zero,_,rising⟩ := h
    refine ⟨by omega,fun _ => ?_⟩
    rw [zero]; exact rising

theorem standingNext (h : Standing (z::next::rest)) (proper : z.type ≠ smtEnd) :
    Standing (next::rest) ∧ z.start + sub32 next.start z.start ≤ 2^32 := by
  obtain ⟨bound,rising⟩ := h
  rcases rising proper with ⟨rfl,_⟩ | ⟨_,above,nbound,later⟩
  · refine ⟨⟨by simp,fun improper => absurd rfl improper⟩,?_⟩
    simp only [sub32]
    split <;> omega
  · refine ⟨⟨nbound,fun _ => later⟩,?_⟩
    rw [sub32Eq (by omega)]
    omega

theorem standingStep (h : Standing (z::next::rest)) (proper : z.type ≠ smtEnd) :
    Standing (next::rest) ∧ (z.type = smtFree → (Area.mk z.start (sub32 next.start z.start)).Fits) :=
  ⟨(standingNext h proper).1,fun _ => (standingNext h proper).2⟩

theorem freeAreaFits (ordered : Ordered list) (ok : freeArea list len = some area) : area.Fits ∧ len ≤ area.len :=
  freeAreaFromFinds standingStep (standingWhole ordered) (by simp) ok

theorem memmapLargestFits (ordered : Ordered list) (ok : syslinuxMemmapLargest list smtFree = some area) :
    area.Fits ∧ 0 < area.len :=
  memmapLargestFromFinds standingStep (standingWhole ordered) (by simp) ok

end Zones

structure EvictInside (n : Need) (o copy : Move) : Prop where
  some' : 0 < copy.len
  room : copy.dst + copy.len ≤ 2^32
  above : o.src ≤ copy.src
  within : copy.src + copy.len ≤ o.src + o.len
  near : copy.src ≤ n.cbyte
  reach : n.cbyte < copy.src + copy.len

theorem evictToNear {mmap n o copy} (occupies : o.inSrc n.cbyte) (bound : n.cbyte < 2^32)
    (sized : ∀ area, syslinuxMemmapLargest mmap smtFree = some area → 0 < area.len ∧ area.len ≤ 2^32)
    (fits : ¬ WrapsBack mmap n o) (ok : evictTo mmap n o = some copy) : copy.src ≤ n.cbyte := by
  have low := occupies.1
  unfold evictTo at ok
  split at ok
  · cases Option.some.inj ok
    exact low
  · rename_i away
    split at ok
    · cases Option.some.inj ok
      exact low
    · rename_i none'
      split at ok
      · contradiction
      · rename_i area found
        split at ok
        · rename_i rev
          obtain ⟨nonempty,_⟩ := sized area found
          have le : area.len ≤ n.cbyte + 1 := by
            by_contra more
            exact fits ⟨rev,by simpa using away,none',by rw [found]; simpa using by omega⟩
          cases Option.some.inj ok
          simp only
          rw [show add32 n.cbyte 1 = (n.cbyte + 1) % 2^32 from rfl,endMinus (by omega) nonempty le]
          omega
        · cases Option.some.inj ok
          exact Nat.le_refl _

theorem evictToInside {mmap n o copy} (ordered : Ordered mmap) (legal : Legal o) (occupies : o.inSrc n.cbyte)
    (bound : n.cbyte < 2^32) (fits : ¬ WrapsBack mmap n o) (ok : evictTo mmap n o = some copy) :
    EvictInside n o copy := by
  have sized : ∀ area, syslinuxMemmapLargest mmap smtFree = some area → 0 < area.len ∧ area.len ≤ 2^32 := by
    intro area found
    obtain ⟨room,some'⟩ := memmapLargestFits ordered found
    unfold Area.Fits at room
    omega
  have near := evictToNear occupies bound sized fits ok
  have parts := evictToParts legal occupies sized near ok
  obtain ⟨some',_,dst,_⟩ := legal
  have high := occupies.2
  cases parts with
  | direct _ same =>
    subst same
    exact ⟨some',dst,Nat.le_refl _,Nat.le_refl _,near,high⟩
  | @whole area found same =>
    subst same
    obtain ⟨room,wide⟩ := freeAreaFits ordered found
    unfold Area.Fits at room
    exact ⟨some',by simp only; omega,Nat.le_refl _,Nat.le_refl _,near,high⟩
  | @part area found to' len nonempty above within reach =>
    have room := (memmapLargestFits ordered found).1
    unfold Area.Fits at room
    exact ⟨nonempty,by omega,above,within,near,reach⟩

theorem needCritical {f n} (needed : NeedOk f n) : n.base ≤ n.cbyte ∧ n.cbyte < n.base + n.len := by
  have some' := needed.some'
  cases rev : n.reverse with
  | true =>
    obtain ⟨_,critical,_⟩ := needed.up rev
    omega
  | false =>
    obtain ⟨_,critical,_⟩ := needed.down rev
    omega

theorem trimmedBounds {f n o copy} (needed : NeedOk f n) (inside : EvictInside n o copy) :
    0 < trimmed n copy ∧ trimmed n copy ≤ n.len := by
  have some' := needed.some'
  have critical := needCritical needed
  have copied := inside.some'
  have reach := inside.reach
  unfold trimmed
  split
  · by_cases below : copy.src < n.base
    · simp only [if_pos below]
      rw [sub32Eq (by omega)]
      split <;> omega
    · simp only [if_neg below]
      split <;> omega
  · omega

theorem trimVacatedTrimmed {mmap n copy m mmap' copylen m'} (ok : trimVacated mmap n copy m = .ok ((mmap',copylen),m')) :
    copylen = trimmed n copy := by
  unfold trimVacated at ok
  unfold trimmed
  by_cases more : n.len < copy.len
  · rw [if_pos more] at ok ⊢
    obtain ⟨⟨mmap1,len1⟩,m1,first,second⟩ := workBind ok
    have eq : len1 = if copy.src < n.base then sub32 copy.len (n.base - copy.src) else copy.len := by
      by_cases below : copy.src < n.base
      · rw [if_pos below] at first ⊢
        obtain ⟨_,_,_,out⟩ := workBind first
        exact (Prod.mk.inj (workPure out).1).2
      · rw [if_neg below] at first ⊢
        exact (Prod.mk.inj (workPure first).1).2
    simp only [← eq]
    simp only at second
    split at second
    · rename_i excess
      obtain ⟨_,_,_,out⟩ := workBind second
      rw [if_pos excess]
      exact (Prod.mk.inj (workPure out).1).2
    · rename_i rest
      rw [if_neg rest]
      exact (Prod.mk.inj (workPure second).1).2
  · rw [if_neg more] at ok ⊢
    exact (Prod.mk.inj (workPure ok).1).2

def bytes (frags : List Move) : Nat := (frags.map Move.len).sum

@[simp] theorem bytesNil : bytes [] = 0 := rfl
@[simp] theorem bytesCons (f : Move) (frags : List Move) : bytes (f::frags) = f.len + bytes frags := by simp [bytes]
@[simp] theorem bytesAppend (fs gs : List Move) : bytes (fs ++ gs) = bytes fs + bytes gs := by simp [bytes]

theorem bytesCut {f k len p} (cut : Cut f k len p) : bytes (p.before ++ p.after) + len = f.len := by
  have within := cut.within
  rw [bytesAppend,cut.before,cut.after]
  split <;> split <;> simp only [bytesNil,bytesCons,Move.front,Move.back] <;> omega

theorem bytesPurge (frags : List Move) : bytes (purge frags) ≤ bytes frags := by
  cases frags with
  | nil => exact Nat.le_refl _
  | cons f rest =>
    have kept : bytes (rest.filter (fun o => o.src ≠ o.dst)) ≤ bytes rest := by
      induction rest with
      | nil => exact Nat.le_refl _
      | cons o rest ih =>
        rw [List.filter_cons]
        split <;> simp only [bytesCons] <;> omega
    simp only [purge,bytesCons]
    omega

section Order
variable {mmap mmap' : List Zone} {start len : Nat} {m m' : List Bool}

theorem addFreelistOrdered {type : MemmapType} (ordered : Ordered mmap) (given : type ≠ smtEnd) (fits : start + len ≤ 2^32)
    (ok : addFreelist mmap start len type m = .ok (mmap',m')) : Ordered mmap' := by
  unfold addFreelist at ok
  simp only at ok
  split at ok
  · cases Except.ok.inj ok
    exact addMemmapOrdered m given fits ordered
  · contradiction

theorem allocateFromOrdered (ordered : Ordered mmap) (fits : start + len ≤ 2^32)
    (ok : allocateFrom mmap start len m = .ok (mmap',m')) : Ordered mmap' := by
  cases Except.ok.inj ok
  exact addMemmapOrdered m (by decide) fits ordered

theorem trimVacatedOrdered {f n o copy copylen} (ordered : Ordered mmap) (needed : NeedOk f n)
    (inside : EvictInside n o copy) (top : copy.src + copy.len ≤ 2^32)
    (ok : trimVacated mmap n copy m = .ok ((mmap',copylen),m')) : Ordered mmap' := by
  have critical := needCritical needed
  have ends := needed.top
  have reach := inside.reach
  unfold trimVacated at ok
  split at ok
  · rename_i more
    obtain ⟨⟨mmap1,len1⟩,m1,first,second⟩ := workBind ok
    have step : Ordered mmap1 ∧ len1 ≤ copy.len := by
      split at first
      · obtain ⟨_,_,painted,out⟩ := workBind first
        cases Prod.mk.inj (workPure out).1 with
        | intro left right =>
          subst left right
          exact ⟨addFreelistOrdered ordered (by decide) (by omega) painted,by rw [sub32Eq (by omega)]; omega⟩
      · cases Prod.mk.inj (workPure first).1 with
        | intro left right =>
          subst left right
          exact ⟨ordered,Nat.le_refl _⟩
    obtain ⟨ordered1,le⟩ := step
    simp only at second
    split at second
    · obtain ⟨_,_,painted,out⟩ := workBind second
      rw [(Prod.mk.inj (workPure out).1).1]
      rw [add32Eq (by omega)] at painted
      exact addFreelistOrdered ordered1 (by decide) (by omega) painted
    · rw [(Prod.mk.inj (workPure second).1).1]
      exact ordered1
  · rw [(Prod.mk.inj (workPure ok).1).1]
    exact ordered

theorem moveChunkOrdered {f copylen c} (ordered : Ordered mmap) (legal : Legal f) (differ : f.src ≠ f.dst)
    (some' : 0 < copylen) (le : copylen ≤ (need f).len) (ok : moveChunk mmap f copylen m = .ok (c,m')) :
    Ordered c.mmap ∧ (∀ g ∈ c.left, Legal g) ∧ bytes c.left < f.len := by
  obtain ⟨⟨k,len,p,cut,move,left,differ',_⟩,m1,painted⟩ := moveChunkCut legal differ some' le ok
  have legal' : Legal c.move := by rw [move]; exact cut.legal legal p.here (hereMem p)
  have counted := bytesCut cut
  have moved := cut.some'
  rw [left]
  refine ⟨addFreelistOrdered ordered (by decide) (freedByOk legal' differ').1 painted,?_,by omega⟩
  intro g mem
  exact cut.legal legal g (cut.rest g mem).1

end Order

/- A split whose assertions hold and that takes its bytes from the fragment. -/
structure SplitInside (c : Split) : Prop where
  legal : Legal c.ml
  asserted : c.Asserted
  some' : 0 < c.len
  within : c.start + c.len ≤ c.ml.src + c.ml.len

theorem cutJoined {f k len p} (cut : Cut f k len p) : Joined f p.list := by
  have within := cut.within
  simp only [Pieces.list,cut.before,cut.here,cut.after]
  by_cases front : k = 0 <;> by_cases back : k + len = f.len
  · simp only [front,if_true,List.nil_append,Joined,Move.back]
    rw [if_pos (by omega)]
    simp only [Joined]
    omega
  · simp only [front,if_true,List.nil_append,Joined,Move.back]
    rw [if_neg (by omega)]
    simp only [Joined,Move.back]
    omega
  · simp only [front,if_false,back,if_true,List.cons_append,List.nil_append,Joined,Move.front,Move.back,true_and]
    omega
  · simp only [front,if_false,back,List.cons_append,List.nil_append,Joined,Move.front,Move.back,true_and]
    omega

theorem SplitInside.yields {c m p m'} (h : SplitInside c) (ok : splitMovelist c.start c.len c.ml m = .ok (p,m')) :
    (∀ g ∈ p.list, 0 < g.len) ∧ Joined c.ml p.list := by
  have above := h.asserted.1
  have within := h.within
  rw [show c.start = c.ml.src + (c.start - c.ml.src) by omega] at ok
  have cut := splitMovelistOk h.legal h.some' (by omega) ok
  exact ⟨fun g mem => (cut.legal h.legal g mem).1,cutJoined cut⟩

theorem chunkSplitsInside {f copylen} (legal : Legal f) (differ : f.src ≠ f.dst) (some' : 0 < copylen)
    (top : copylen < (need f).len → f.src + f.len < 2^32) : ∀ c ∈ chunkSplits f copylen, SplitInside c := by
  have n := needOk legal differ
  intro c mem
  unfold chunkSplits at mem
  split at mem
  · rename_i part
    have below := top part
    have stop : add32 f.src f.len = f.src + f.len := add32Eq below
    rw [List.mem_singleton.mp mem]
    cases rev : (need f).reverse with
    | true =>
      obtain ⟨_,_,less⟩ := n.up rev
      have start : add32 f.src (sub32 f.len copylen) = f.src + (f.len - copylen) := by
        rw [sub32Eq (by omega),add32Eq (by omega)]
      refine ⟨legal,?_,some',?_⟩
      · simp only [Split.Asserted,if_true,start,stop]
        omega
      · simp only [if_true,start]
        omega
    | false =>
      obtain ⟨_,_,less⟩ := n.down rev
      refine ⟨legal,?_,some',?_⟩
      · simp only [Split.Asserted,Bool.false_eq_true,if_false,stop]
        omega
      · simp only [Bool.false_eq_true,if_false]
        omega
  · simp at mem

structure Splittable (s : PlanState) : Prop where
  ordered : Ordered s.mmap
  legal : ∀ f ∈ s.frags, Legal f

theorem occupantBelow {cbyte frags p} (ok : findOccupant cbyte frags = some p) : cbyte < add32 p.here.src p.here.len := by
  induction frags generalizing p with
  | nil => simp [findOccupant] at ok
  | cons o rest ih =>
    simp only [findOccupant] at ok
    split at ok
    · rename_i found
      cases Option.some.inj ok
      exact found.2
    · obtain ⟨q,found,rfl⟩ := Option.map_eq_some_iff.mp ok
      have below := ih found
      exact below

/- What an eviction that does not wrap has to work with. -/
theorem evictReady {s f rest p copy} (h : Splittable s) (frags : purge s.frags = f::rest) (differ : f.src ≠ f.dst)
    (found : findOccupant (need f).cbyte rest = some p) (to' : evictTo s.mmap (need f) p.here = some copy)
    (fits : ¬ WrapsBack s.mmap (need f) p.here) :
    rest = p.list ∧ (∀ g ∈ f::rest, Legal g) ∧ NeedOk f (need f) ∧ EvictInside (need f) p.here copy := by
  have legal := purgeLegal h.legal
  rw [frags] at legal
  obtain ⟨list,source⟩ := findOccupantOk (fun g m => legal g (List.mem_cons_of_mem _ m)) found
  have n := needOk (legal f List.mem_cons_self) differ
  have critical := needCritical n
  have top := n.top
  exact ⟨list,legal,n,evictToInside h.ordered (legal p.here (List.mem_cons_of_mem _ (list ▸ hereMem p))) source
    (by omega) fits to'⟩

theorem turnSplitsInside {s} (h : Splittable s) (fits : Unwrapped s) (top : BelowTop s) : ∀ c ∈ turnSplits s, SplitInside c := by
  unfold turnSplits
  unfold Unwrapped at fits
  unfold BelowTop at top
  have chosen := chooseChosen s
  have legal := purgeLegal h.legal
  generalize choose s.mmap s.frags = c at chosen fits top
  cases chosen with
  | stuck => simp [Choice.splits]
  | discard => simp [Choice.splits]
  | @place p frags differ free =>
    have legalP : Legal p.here := legal p.here (frags ▸ hereMem p)
    exact chunkSplitsInside legalP differ (needOk legalP differ).some' (fun less => absurd less (by omega))
  | @claim f rest frags differ some' =>
    have legalF : Legal f := legal f (frags ▸ List.mem_cons_self)
    have nsome := (needOk legalF differ).some'
    exact chunkSplitsInside legalF differ (by omega) top
  | @evict f rest p copy frags differ found to' =>
    obtain ⟨list,legal',needed,inside⟩ := evictReady h frags differ found to' fits
    have legalO : Legal p.here := legal' p.here (List.mem_cons_of_mem _ (list ▸ hereMem p))
    intro c mem
    rcases List.mem_append.mp mem with evicted | moved
    · split at evicted
      · rw [List.mem_singleton.mp evicted]
        have stop := occupantBelow found
        have near := inside.near
        exact ⟨legalO,⟨inside.above,by simp only; omega⟩,inside.some',inside.within⟩
      · simp at evicted
    · have bounds := trimmedBounds needed inside
      exact chunkSplitsInside (legal' f List.mem_cons_self) differ bounds.1 top c moved

/- A turn without such an eviction keeps the fragments legal and brings one nearer its end. -/
theorem splittableStep {s m s' m'} (h : Splittable s) (fits : Unwrapped s) (ok : planStep s m = .ok (s',m')) :
    Splittable s' ∧ bytes s'.frags < bytes s.frags := by
  unfold planStep at ok
  unfold Unwrapped at fits
  have chosen := chooseChosen s
  have legal := purgeLegal h.legal
  have purged := bytesPurge s.frags
  generalize choose s.mmap s.frags = c at chosen fits ok
  cases chosen with
  | stuck => rw [stuckBails] at ok; contradiction
  | @discard f rest frags inPlace =>
    rw [(workPure ok).1]
    have some' := (h.legal f (frags ▸ List.mem_cons_self)).1
    refine ⟨⟨h.ordered,fun g mem => h.legal g (frags ▸ List.mem_cons_of_mem _ mem)⟩,?_⟩
    simp only [frags,bytesCons]
    omega
  | @place p frags differ free =>
    rw [frags] at legal
    have legalP : Legal p.here := legal p.here (hereMem p)
    have n := needOk legalP differ
    obtain ⟨mmap,m1,allocated,rest⟩ := workBind ok
    obtain ⟨c,m2,moved,out⟩ := workBind rest
    obtain ⟨ordered,left,less⟩ := moveChunkOrdered (allocateFromOrdered h.ordered n.top allocated) legalP differ
      n.some' (Nat.le_refl _) moved
    rw [(workPure out).1]
    rw [frags,Pieces.list] at purged
    simp only [bytesAppend,bytesCons] at purged ⊢
    refine ⟨⟨ordered,?_⟩,by omega⟩
    intro g mem
    simp only [List.mem_append] at mem
    rcases mem with (before | piece) | after
    · exact legal g (by simp [Pieces.list,before])
    · exact left g piece
    · exact legal g (by simp [Pieces.list,after])
  | @claim f rest frags differ some' =>
    rw [frags] at legal
    have legalF : Legal f := legal f List.mem_cons_self
    have n := needOk legalF differ
    have nsome := n.some'
    have top := n.top
    obtain ⟨mmap,m1,allocated,rest'⟩ := workBind ok
    obtain ⟨c,m2,moved,out⟩ := workBind rest'
    have region : Ordered mmap := by
      refine allocateFromOrdered h.ordered ?_ allocated
      split
      · rw [show add32 (need f).base (need f).len = ((need f).base + (need f).len) % 2^32 from rfl,
          endMinus top (by omega) (by omega)]
        omega
      · omega
    obtain ⟨ordered,left,less⟩ := moveChunkOrdered region legalF differ (by omega) (by omega) moved
    rw [(workPure out).1]
    rw [frags] at purged
    simp only [bytesAppend,bytesCons] at purged ⊢
    refine ⟨⟨ordered,?_⟩,by omega⟩
    intro g mem
    rcases List.mem_append.mp mem with piece | other
    · exact left g piece
    · exact legal g (List.mem_cons_of_mem _ other)
  | @evict f rest p copy frags differ found to' =>
    obtain ⟨list,legal',needed,inside⟩ := evictReady h frags differ found to' fits
    have legalF : Legal f := legal' f List.mem_cons_self
    have legalO : Legal p.here := legal' p.here (List.mem_cons_of_mem _ (list ▸ hereMem p))
    have above := inside.above
    have within := inside.within
    have some' := inside.some'
    have top := legalO.2.2.2
    obtain ⟨mmap1,m1,allocated,rest'⟩ := workBind ok
    obtain ⟨q,m2,split',rest'⟩ := workBind rest'
    obtain ⟨mv,m3,_,rest'⟩ := workBind rest'
    obtain ⟨⟨mmap2,copylen⟩,m4,trim,rest'⟩ := workBind rest'
    obtain ⟨c,m5,moved,out⟩ := workBind rest'
    have cut := evictCut legalO some' above within split'
    have ordered2 := trimVacatedOrdered (allocateFromOrdered h.ordered inside.room allocated) needed inside (by omega) trim
    have bounds := trimmedBounds needed inside
    rw [← trimVacatedTrimmed trim] at bounds
    obtain ⟨ordered,left,less⟩ := moveChunkOrdered ordered2 legalF differ bounds.1 bounds.2 moved
    rw [(workPure out).1]
    have len : q.here.len = copy.len := by rw [cut.here]
    have counted := bytesCut cut
    rw [frags,list] at purged
    simp only [Pieces.list,bytesAppend,bytesCons,len] at purged counted ⊢
    refine ⟨⟨ordered,?_⟩,by omega⟩
    intro g mem
    rcases List.mem_append.mp mem with piece | other
    · exact left g piece
    · simp only [List.mem_append] at other
      rcases other with (before | piece) | after
      · exact legal' g (List.mem_cons_of_mem _ (list ▸ by simp [Pieces.list,before]))
      · rw [List.mem_cons] at piece
        rcases piece with before | rfl | after
        · exact cut.legal legalO g (by simp [Pieces.list,before])
        · have here := cut.legal legalO q.here (hereMem q)
          have room := inside.room
          unfold Legal at here ⊢
          simp only
          omega
        · exact cut.legal legalO g (by simp [Pieces.list,after])
      · exact legal' g (List.mem_cons_of_mem _ (list ▸ by simp [Pieces.list,after]))

theorem turnsKeep {I C : PlanState → Prop}
    (step : ∀ s m s' m', I s → C s → planStep s m = .ok (s',m') → I s') {fuel s m} (start : I s)
    (holds : ∀ t ∈ turns fuel s m, C t.1) : ∀ t ∈ turns fuel s m, I t.1 := by
  induction fuel generalizing s m with
  | zero => simp [turns]
  | succ fuel ih =>
    unfold turns at holds ⊢
    split at holds
    · rename_i none'
      simp [none']
    · rename_i some'
      rw [if_neg some']
      obtain ⟨here,later⟩ := List.forall_mem_cons.mp holds
      refine List.forall_mem_cons.mpr ⟨start,?_⟩
      cases next : planStep s m with
      | error e => simp
      | ok r =>
        obtain ⟨s1,m1⟩ := r
        rw [next] at later
        exact ih (step s m s1 m1 start here next) later

theorem splittableStart {fuel ifrags memmap m s postcopy m'} (wf : WellFormed memmap) (legal : ∀ f ∈ ifrags, Legal f)
    (srcs : ifrags.Pairwise SrcApart) (ok : planSetup fuel ifrags memmap m = .ok ((s,postcopy),m')) : Splittable s := by
  obtain ⟨m1,m2,_,shuffled,_,ready⟩ := planSetupOk wf ok
  have same := shuffleApart (by simpa using legal) (by simpa using srcs) shuffled
  simp only [List.nil_append,Prod.mk.injEq] at same
  rw [same.1] at ready
  exact ⟨wellFormedOrdered (ready legal).1,by rw [same.1]; exact legal⟩

/- Every call of split_movelist in a run, whatever the mallocs do. -/
theorem splitsStayInside {fuel ifrags memmap m} (wf : WellFormed memmap) (legal : ∀ f ∈ ifrags, Legal f)
    (srcs : ifrags.Pairwise SrcApart) (fit : ∀ t ∈ planTurns fuel ifrags memmap m, Unwrapped t.1 ∧ BelowTop t.1) :
    ∀ t ∈ planTurns fuel ifrags memmap m, ∀ c ∈ turnSplits t.1, c.Asserted ∧
      ∀ n p n', splitMovelist c.start c.len c.ml n = .ok (p,n') → (∀ g ∈ p.list, 0 < g.len) ∧ Joined c.ml p.list := by
  intro t mem c called
  have ready : Splittable t.1 := by
    unfold planTurns at fit mem
    cases setup : planSetup fuel ifrags memmap m with
    | error e => simp [setup] at mem
    | ok r =>
      obtain ⟨⟨s,postcopy⟩,m'⟩ := r
      rw [setup] at fit mem
      exact turnsKeep (fun s m s' m' h fits step => (splittableStep h fits step).1) (splittableStart wf legal srcs setup)
        (fun t mem => (fit t mem).1) t mem
  have inside := turnSplitsInside ready (fit t mem).1 (fit t mem).2 c called
  exact ⟨inside.asserted,fun n p n' ok => inside.yields ok⟩

/- Two fragments change places through five free bytes: one of them is evicted in halves. -/
theorem splitsStayInsideHalves :
    (∃ t ∈ planTurns 7 [⟨140,300,5⟩,⟨110,100,10⟩,⟨100,110,10⟩]
        [⟨0,smtUndefined⟩,⟨138,smtFree⟩,⟨150,smtUndefined⟩,⟨0,smtEnd⟩] [], ⟨110,5,⟨100,110,10⟩⟩ ∈ turnSplits t.1) ∧
    ∀ t ∈ planTurns 7 [⟨140,300,5⟩,⟨110,100,10⟩,⟨100,110,10⟩]
        [⟨0,smtUndefined⟩,⟨138,smtFree⟩,⟨150,smtUndefined⟩,⟨0,smtEnd⟩] [], ∀ c ∈ turnSplits t.1, c.Asserted ∧
      ∀ n p n', splitMovelist c.start c.len c.ml n = .ok (p,n') → (∀ g ∈ p.list, 0 < g.len) ∧ Joined c.ml p.list :=
  ⟨by decide,splitsStayInside (by simp [WellFormed,Follows]) (by decide) (by decide) (by decide)⟩

/- The critical byte is 19 and the largest free zone has 100 bytes: the part of the second
fragment to evict starts at 20 - 100, far above its end. -/
theorem splitStartsOutside :
    ¬ ∀ (fuel : Nat) (ifrags : List Move) (memmap : List Zone), WellFormed memmap → (∀ f ∈ ifrags, Legal f) →
      ifrags.Pairwise SrcApart → ifrags.Pairwise DstApart → ∀ t ∈ planTurns fuel ifrags memmap [],
      ∀ c ∈ turnSplits t.1, c.Asserted ∧
        ∀ n p n', splitMovelist c.start c.len c.ml n = .ok (p,n') → (∀ g ∈ p.list, 0 < g.len) ∧ Joined c.ml p.list := by
  intro claim
  have called : ∃ t ∈ planTurns 2 [⟨10,5,10⟩,⟨1000,15,200⟩]
      [⟨0,smtUndefined⟩,⟨300,smtFree⟩,⟨400,smtUndefined⟩,⟨0,smtEnd⟩] [],
      ⟨4294967216,100,⟨1000,15,200⟩⟩ ∈ turnSplits t.1 := by decide
  obtain ⟨t,mem,called⟩ := called
  have wrong := claim 2 [⟨10,5,10⟩,⟨1000,15,200⟩] [⟨0,smtUndefined⟩,⟨300,smtFree⟩,⟨400,smtUndefined⟩,⟨0,smtEnd⟩]
    (by simp [WellFormed,Follows]) (by decide) (by decide) (by decide) t mem _ called
  exact absurd wrong.1 (by decide)

end Syslinux.Movebits
