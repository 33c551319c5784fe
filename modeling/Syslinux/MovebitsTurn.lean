import Syslinux.MovebitsSpec

/-! One turn of the planning loop. `SoundTurn` is the condition on the state before the
turn under which its bookkeeping is right; `Turn` says what a sound turn can do. -/
namespace Syslinux.Movebits
open Zonelist Zonelist.MemmapType Relocation

/- The zone is_free_zone returned for the critical byte holds that byte itself, and is
not an earlier zone of the same run. -/
def CriticalInZone (mmap : List Zone) (n : Need) : Prop :=
  match isFreeZone mmap n.cbyte 1 with
  | some (_::next::_) => n.base < zoneEnd next
  | _ => True
instance (mmap n) : Decidable (CriticalInZone mmap n) := by unfold CriticalInZone; split <;> infer_instance

/- The vacated bytes are the ones the turn then uses. Otherwise copylen counts bytes of
the evicted fragment that do not lie in the needed part of the destination. -/
def EvictionFits (n : Need) (copy : Move) : Prop :=
  copy.src ≤ n.cbyte ∧
  if n.len < copy.len ∧ copy.src < n.base then
    copy.src + copy.len ≤ n.base + n.len ∨ copy.src + copy.len ≤ n.base + (n.base - copy.src)
  else if n.reverse ∧ copy.len ≤ n.len then copy.src + copy.len = n.base + n.len
  else copy.src = n.base
instance (n copy) : Decidable (EvictionFits n copy) := by unfold EvictionFits; infer_instance

def ChoiceFits (mmap : List Zone) : Choice → Prop
  | .claim n _ _ _ => n.reverse = true ∨ CriticalInZone mmap n
  | .evict n _ _ copy => EvictionFits n copy
  | _ => True
instance (mmap c) : Decidable (ChoiceFits mmap c) := by unfold ChoiceFits; split <;> infer_instance

def AllocationHeld (mmap : List Zone) (mallocs : List Bool) (c : Choice) : Prop :=
  match c.allocated with
  | some r => (syslinuxAddMemmap mallocs mmap r.start r.len smtAlloc).rv = 0
  | none => True
instance (mmap m c) : Decidable (AllocationHeld mmap m c) := by unfold AllocationHeld; split <;> infer_instance

def SoundTurn (s : PlanState) (mallocs : List Bool) : Prop :=
  ChoiceFits s.mmap (choose s.mmap s.frags) ∧ AllocationHeld s.mmap mallocs (choose s.mmap s.frags)
instance (s m) : Decidable (SoundTurn s m) := by unfold SoundTurn; infer_instance

theorem findMovableOk {mmap frags p} (ok : findMovable mmap frags = some p) :
    frags = p.list ∧ (isFreeZone mmap (need p.here).base (need p.here).len).isSome = true := by
  induction frags generalizing p with
  | nil => simp [findMovable] at ok
  | cons o rest ih =>
    simp only [findMovable] at ok
    split at ok
    · cases Option.some.inj ok
      exact ⟨rfl,by assumption⟩
    · obtain ⟨q,found,eq⟩ := Option.map_eq_some_iff.mp ok
      obtain ⟨list,free⟩ := ih found
      subst eq
      exact ⟨by rw [list]; rfl,free⟩

theorem findOccupantOk {cbyte frags p} (legal : ∀ f ∈ frags, Legal f) (ok : findOccupant cbyte frags = some p) :
    frags = p.list ∧ p.here.inSrc cbyte := by
  induction frags generalizing p with
  | nil => simp [findOccupant] at ok
  | cons o rest ih =>
    simp only [findOccupant] at ok
    split at ok
    · rename_i found
      cases Option.some.inj ok
      refine ⟨rfl,found.1,?_⟩
      have bound : add32 o.src o.len ≤ o.src + o.len := Nat.mod_le _ _
      simp only; omega
    · obtain ⟨q,found,eq⟩ := Option.map_eq_some_iff.mp ok
      obtain ⟨list,source⟩ := ih (fun f m => legal f (List.mem_cons_of_mem _ m)) found
      subst eq
      exact ⟨by rw [list]; rfl,source⟩

/- Where the copy goes and what it takes: all of o, or the part of it around the critical byte. -/
inductive Evicted (mmap : List Zone) (n : Need) (o copy : Move) : Prop where
  | direct (free : (isFreeZone mmap o.dst o.len).isSome = true) (same : copy = o)
  | whole {area} (found : freeArea mmap o.len = some area) (same : copy = ⟨area.start,o.src,o.len⟩)
  | part {area} (found : syslinuxMemmapLargest mmap smtFree = some area) (dst : copy.dst = area.start)
      (len : copy.len ≤ area.len) (some' : 0 < copy.len) (above : o.src ≤ copy.src)
      (within : copy.src + copy.len ≤ o.src + o.len) (reach : n.cbyte < copy.src + copy.len)

theorem evictToParts {mmap n o copy} (legal : Legal o) (occupies : o.inSrc n.cbyte)
    (sized : ∀ area, syslinuxMemmapLargest mmap smtFree = some area → 0 < area.len ∧ area.len ≤ 2^32)
    (near : copy.src ≤ n.cbyte) (ok : evictTo mmap n o = some copy) : Evicted mmap n o copy := by
  obtain ⟨some',small,dst,src⟩ := legal
  obtain ⟨low,high⟩ := occupies
  unfold evictTo at ok
  split at ok
  · rename_i direct
    cases Option.some.inj ok
    exact .direct direct rfl
  · split at ok
    · rename_i area found
      exact .whole found (Option.some.inj ok).symm
    · split at ok
      · contradiction
      · rename_i area found
        obtain ⟨nonempty,top⟩ := sized area found
        split at ok
        · cases Option.some.inj ok
          simp only at near
          have room : sub32 (add32 n.cbyte 1) area.len ≤ n.cbyte := by omega
          have base : area.len ≤ n.cbyte + 1 ∧ sub32 (add32 n.cbyte 1) area.len = n.cbyte + 1 - area.len := by
            by_cases le : area.len ≤ n.cbyte + 1
            · exact ⟨le,endMinus (by omega) nonempty le⟩
            · exfalso
              rw [add32Eq (by omega)] at room
              unfold sub32 at room
              split at room <;> omega
          obtain ⟨le,eq⟩ := base
          rw [eq] at near ⊢
          have size : sub32 (add32 n.cbyte 1) (max o.src (n.cbyte + 1 - area.len)) =
              n.cbyte + 1 - max o.src (n.cbyte + 1 - area.len) := by
            by_cases zero : max o.src (n.cbyte + 1 - area.len) = 0
            · rw [zero,add32Eq (by omega)]; rfl
            · exact endMinus (by omega) (by omega) (by omega)
          rw [size]
          exact .part found rfl (by simp only; omega) (by simp only; omega) (by simp only; omega) (by simp only; omega)
            (by simp only; omega)
        · cases Option.some.inj ok
          have size : sub32 o.len (n.cbyte - o.src) = o.len - (n.cbyte - o.src) := sub32Eq (by omega)
          rw [size]
          exact .part found rfl (by simp only; omega) (by simp only; omega) low (by simp only; omega) (by simp only; omega)

structure EvictOk (mmap : List Zone) (n : Need) (o copy : Move) : Prop where
  some' : 0 < copy.len
  area : FreeArea mmap ⟨copy.dst,copy.len⟩
  above : o.src ≤ copy.src
  within : copy.src + copy.len ≤ o.src + o.len
  reach : n.cbyte < copy.src + copy.len

theorem FreeArea.front {mmap area} (free : FreeArea mmap area) {len : Nat} (le : len ≤ area.len) :
    FreeArea mmap ⟨area.start,len⟩ := by
  have top := free.fits
  refine ⟨by simp only; omega,?_⟩
  intro a inside
  exact free.free a ⟨inside.1,by have := inside.2; simp only at this; omega⟩

theorem evictToOk {mmap n o copy} (wf : WellFormed mmap) (legal : Legal o) (occupies : o.inSrc n.cbyte)
    (near : copy.src ≤ n.cbyte) (ok : evictTo mmap n o = some copy) : EvictOk mmap n o copy := by
  have sized : ∀ area, syslinuxMemmapLargest mmap smtFree = some area → 0 < area.len ∧ area.len ≤ 2^32 := by
    intro area found
    obtain ⟨free,nonempty⟩ := memmapLargestOk wf found
    have top := free.fits
    exact ⟨nonempty,by omega⟩
  have parts := evictToParts legal occupies sized near ok
  obtain ⟨some',_,dst,_⟩ := legal
  have high := occupies.2
  cases parts with
  | direct free same =>
    subst same
    exact ⟨some',⟨dst,fun a inside => isFreeZoneFree wf some' dst free inside⟩,Nat.le_refl _,Nat.le_refl _,high⟩
  | whole found same =>
    subst same
    obtain ⟨free,fits⟩ := freeAreaOk wf found
    exact ⟨some',free.front fits,Nat.le_refl _,Nat.le_refl _,high⟩
  | part found to' len nonempty above within reach =>
    have free := (memmapLargestOk wf found).1.front len
    rw [← to'] at free
    exact ⟨nonempty,free,above,within,reach⟩

structure TrimOk (mmap mmap' : List Zone) (n : Need) (copy : Move) (copylen : Nat) : Prop where
  wf : WellFormed mmap'
  some' : 0 < copylen
  le : copylen ≤ n.len
  vacated : ∀ a, n.claims copylen a → copy.inSrc a
  freed : ∀ a, freeIn mmap' a → freeIn mmap a ∨ copy.inSrc a ∧ ¬ n.claims copylen a

theorem trimVacatedOk {mmap n copy m mmap' copylen m' f} (wf : WellFormed mmap) (needed : NeedOk f n)
    (some' : 0 < copy.len) (reach : n.cbyte < copy.src + copy.len) (top : copy.src + copy.len ≤ 2^32)
    (fits : EvictionFits n copy)
    (ok : trimVacated mmap n copy m = .ok ((mmap',copylen),m')) : TrimOk mmap mmap' n copy copylen := by
  obtain ⟨near,fits⟩ := fits
  have nsome := needed.some'
  have critical : n.base ≤ n.cbyte ∧ n.cbyte < n.base + n.len ∧
      (n.reverse = true → n.cbyte + 1 = n.base + n.len) ∧ (n.reverse = false → n.cbyte = n.base) := by
    cases rev : n.reverse with
    | true => obtain ⟨_,c,_⟩ := needed.up rev; exact ⟨by omega,by omega,fun _ => c,by simp⟩
    | false => obtain ⟨_,c,_⟩ := needed.down rev; exact ⟨by omega,by omega,by simp,fun _ => c⟩
  obtain ⟨lowC,highC,upC,downC⟩ := critical
  unfold trimVacated at ok
  by_cases big : n.len < copy.len
  · rw [if_pos big] at ok
    obtain ⟨⟨mmap1,len1⟩,m1,first,second⟩ := workBind ok
    simp only at second
    by_cases below : copy.src < n.base
    · rw [if_pos ⟨big,below⟩] at fits
      rw [if_pos below] at first
      obtain ⟨mm,m2,painted,out⟩ := workBind first
      have eq := (workPure out).1
      simp only [Prod.mk.injEq] at eq
      obtain ⟨rfl,eq⟩ := eq
      rw [sub32Eq (by omega)] at eq
      subst eq
      have p1 := addFreelistOk wf (by decide) (by omega) painted
      by_cases excess : n.len < copy.len - (n.base - copy.src)
      · rw [if_pos excess] at second
        obtain ⟨mm,m3,painted2,out⟩ := workBind second
        have eq := (workPure out).1
        simp only [Prod.mk.injEq] at eq
        obtain ⟨rfl,rfl⟩ := eq
        rw [add32Eq (by omega)] at painted2
        have p2 := addFreelistOk p1.wf (by decide) (by omega) painted2
        refine ⟨p2.wf,nsome,Nat.le_refl _,?_,?_⟩
        · intro a claimed
          unfold Need.claims at claimed
          unfold Move.inSrc
          split at claimed <;> omega
        · intro a isFree
          have away : ∀ a, a < n.base → ¬ n.claims n.len a := by
            intro a low claimed
            unfold Need.claims at claimed
            split at claimed <;> omega
          rcases freeAfterFree p2 isFree with h | h
          · rcases freeAfterFree p1 h with h | h
            · exact Or.inl h
            · simp only [Area.has] at h
              exact Or.inr ⟨by unfold Move.inSrc; omega,away a (by omega)⟩
          · simp only [Area.has] at h
            exact Or.inr ⟨by unfold Move.inSrc; omega,away a (by omega)⟩
      · rw [if_neg excess] at second
        have eq := (workPure second).1
        simp only [Prod.mk.injEq] at eq
        obtain ⟨rfl,rfl⟩ := eq
        refine ⟨p1.wf,by omega,by omega,?_,?_⟩
        · intro a claimed
          unfold Need.claims at claimed
          unfold Move.inSrc
          split at claimed
          · have := upC (by assumption); omega
          · omega
        · intro a isFree
          rcases freeAfterFree p1 isFree with h | h
          · exact Or.inl h
          · simp only [Area.has] at h
            refine Or.inr ⟨by unfold Move.inSrc; omega,?_⟩
            intro claimed
            unfold Need.claims at claimed
            split at claimed <;> omega
    · rw [if_neg (by omega),if_neg (by omega)] at fits
      rw [if_neg below] at first
      have eq := (workPure first).1
      simp only [Prod.mk.injEq] at eq
      obtain ⟨rfl,rfl⟩ := eq
      rw [if_pos big] at second
      obtain ⟨mm,m3,painted2,out⟩ := workBind second
      have eq := (workPure out).1
      simp only [Prod.mk.injEq] at eq
      obtain ⟨rfl,rfl⟩ := eq
      rw [add32Eq (by omega)] at painted2
      have p2 := addFreelistOk wf (by decide) (by omega) painted2
      refine ⟨p2.wf,nsome,Nat.le_refl _,?_,?_⟩
      · intro a claimed
        unfold Need.claims at claimed
        unfold Move.inSrc
        split at claimed <;> omega
      · intro a isFree
        rcases freeAfterFree p2 isFree with h | h
        · exact Or.inl h
        · simp only [Area.has] at h
          refine Or.inr ⟨by unfold Move.inSrc; omega,?_⟩
          intro claimed
          unfold Need.claims at claimed
          split at claimed <;> omega
  · rw [if_neg big] at ok
    have eq := (workPure ok).1
    simp only [Prod.mk.injEq] at eq
    obtain ⟨rfl,rfl⟩ := eq
    rw [if_neg (by omega)] at fits
    refine ⟨wf,some',by omega,?_,fun a isFree => Or.inl isFree⟩
    intro a claimed
    unfold Need.claims at claimed
    unfold Move.inSrc
    cases rev : n.reverse with
    | true =>
      rw [if_pos ⟨rev,by omega⟩] at fits
      rw [if_pos rev] at claimed
      omega
    | false =>
      rw [if_neg (by simp [rev])] at fits
      rw [if_neg (by simp [rev])] at claimed
      omega

def purge : List Move → List Move
  | [] => []
  | f::rest => f::rest.filter (fun o => o.src ≠ o.dst)

inductive Turn (s s' : PlanState) : Prop where
  | discard {f rest} (frags : s.frags = f::rest) (inPlace : f.src = f.dst) (next : s' = { s with frags := rest })
  | advance {f others copylen mmap c}
      (frags : (f::others).Perm (purge s.frags)) (differ : f.src ≠ f.dst)
      (open' : ∀ a, (need f).claims copylen a → freeIn s.mmap a)
      (taken : ∀ a, freeIn mmap a → freeIn s.mmap a ∧ ¬ (need f).claims copylen a)
      (chunk : ChunkOk mmap f copylen c)
      (mmap' : s'.mmap = c.mmap) (moves : s'.moves = s.moves ++ [c.move]) (left : (c.left ++ others).Perm s'.frags)
  | evict {f o others copy k q mmap1 mmap2 copylen c}
      (frags : (o::f::others).Perm (purge s.frags)) (differ : f.src ≠ f.dst)
      (area : FreeArea s.mmap ⟨copy.dst,copy.len⟩) (cut : Cut o k copy.len q) (source : q.here.src = copy.src)
      (taken : Repainted s.mmap mmap1 ⟨copy.dst,copy.len⟩ smtAlloc)
      (trim : TrimOk mmap1 mmap2 (need f) copy copylen) (chunk : ChunkOk mmap2 f copylen c)
      (mmap' : s'.mmap = c.mmap) (moves : s'.moves = s.moves ++ [copy,c.move])
      (left : (c.left ++ (⟨q.here.dst,copy.dst,copy.len⟩::(q.before ++ q.after ++ others))).Perm s'.frags)

theorem purgeMem {frags g} (m : g ∈ purge frags) : g ∈ frags := by
  cases frags with
  | nil => exact m
  | cons f rest =>
    rcases List.mem_cons.mp m with rfl | inRest
    · exact List.mem_cons_self
    · exact List.mem_cons_of_mem _ (List.mem_filter.mp inRest).1

theorem purgeLegal {frags} (legal : ∀ f ∈ frags, Legal f) : ∀ f ∈ purge frags, Legal f :=
  fun f m => legal f (purgeMem m)

theorem placeTurn {s p m s' m'} (wf : WellFormed s.mmap) (legal : ∀ f ∈ s.frags, Legal f)
    (frags : purge s.frags = p.list) (differ : p.here.src ≠ p.here.dst)
    (free : (isFreeZone s.mmap (need p.here).base (need p.here).len).isSome = true)
    (held : AllocationHeld s.mmap m (.place p)) (ok : perform s (.place p) m = .ok (s',m')) : Turn s s' := by
  have legal' : Legal p.here := purgeLegal legal p.here (frags ▸ hereMem p)
  have n := needOk legal' differ
  obtain ⟨mmap,m1,allocated,rest⟩ := workBind ok
  obtain ⟨c,m2,moved,out⟩ := workBind rest
  have painted := allocateFromOk wf n.top held allocated
  have chunk := moveChunkOk painted.wf legal' differ n.some' (Nat.le_refl _) moved
  have claims : ∀ a, (need p.here).claims (need p.here).len a ↔
      (Area.mk (need p.here).base (need p.here).len).has a := by
    intro a
    simp only [Need.claims,Area.has]
    split <;> omega
  have front : (p.here::(p.before ++ p.after)).Perm (purge s.frags) := by
    rw [frags]; exact List.perm_middle.symm
  refine .advance (c := c) front differ ?_ ?_ chunk ?_ ?_ ?_
  · intro a claimed
    exact isFreeZoneFree wf n.some' n.top free ((claims a).mp claimed)
  · intro a isFree
    have h := (freeAfterAlloc painted).mp isFree
    exact ⟨h.1,fun claimed => h.2 ((claims a).mp claimed)⟩
  · rw [(workPure out).1]
  · rw [(workPure out).1]
  · rw [(workPure out).1]
    rw [← List.append_assoc]
    exact List.Perm.append_right _ List.perm_append_comm

theorem claimTurn {s f rest copylen avail m s' m'} (wf : WellFormed s.mmap) (legal : Legal f)
    (frags : purge s.frags = f::rest) (differ : f.src ≠ f.dst)
    (have' : avail = available (need f) (isFreeZone s.mmap (need f).cbyte 1)) (some' : avail ≠ 0)
    (size : copylen = min (need f).len avail)
    (fits : ChoiceFits s.mmap (.claim (need f) copylen f rest))
    (held : AllocationHeld s.mmap m (.claim (need f) copylen f rest))
    (ok : perform s (.claim (need f) copylen f rest) m = .ok (s',m')) : Turn s s' := by
  have n := needOk legal differ
  have top := n.top
  have nsome := n.some'
  obtain ⟨mmap,m1,allocated,rest'⟩ := workBind ok
  obtain ⟨c,m2,moved,out⟩ := workBind rest'
  simp only [AllocationHeld,Choice.allocated] at held
  have base : (if (need f).reverse then sub32 (add32 (need f).base (need f).len) copylen else (need f).base) =
      if (need f).reverse then (need f).base + (need f).len - copylen else (need f).base := by
    split
    · exact endMinus n.top (by omega) (by omega)
    · rfl
  rw [base] at allocated held
  have critical : (need f).cbyte < 2^32 := by
    cases rev : (need f).reverse with
    | true => obtain ⟨_,c,_⟩ := n.up rev; omega
    | false => obtain ⟨_,c,_⟩ := n.down rev; omega
  have open' : ∀ a, (need f).claims copylen a → freeIn s.mmap a := by
    intro a claimed
    cases found : isFreeZone s.mmap (need f).cbyte 1 with
    | none => simp [found,available] at have'; exact absurd have' some'
    | some ep =>
      obtain ⟨z,next,tail,rfl,run⟩ := isFreeZoneOk wf (by omega) (by omega) found
      have below := run.below
      simp only [found,available] at have'
      cases rev : (need f).reverse with
      | true =>
        obtain ⟨_,c,_⟩ := n.up rev
        simp only [rev,if_true] at have'
        have room : avail ≤ (need f).base + (need f).len - z.start := by
          by_cases zero : z.start = 0
          · rw [zero] at have'
            have : avail ≤ (need f).base + (need f).len := by
              rw [have']; unfold sub32 add32; simp; exact Nat.mod_le _ _
            omega
          · rw [have',show add32 (need f).base (need f).len = ((need f).base + (need f).len) % 2^32 from rfl,
              endMinus n.top (by omega) (by omega)]
        simp only [Need.claims,rev,if_true] at claimed
        exact ⟨by omega,run.run a (by omega) (by omega)⟩
      | false =>
        obtain ⟨_,c,_⟩ := n.down rev
        simp only [rev,Bool.false_eq_true,if_false] at have'
        have inZone : (need f).base < zoneEnd next := by
          rcases fits with h | h
          · rw [rev] at h; exact absurd h (by decide)
          · simpa only [CriticalInZone,found] using h
        have size' : (need f).base + avail ≤ zoneEnd next := by
          have span : sub32 next.start z.start = zoneEnd next - z.start ∨
              (z.start = 0 ∧ zoneEnd next = 2^32 ∧ sub32 next.start z.start = 0) := by
            by_cases isEnd : next.type = smtEnd
            · have zend : zoneEnd next = 2^32 := by simp [zoneEnd,isEnd]
              rw [run.nextEnd isEnd,zend]
              unfold sub32
              by_cases zero : z.start = 0
              · exact Or.inr ⟨zero,rfl,by simp [zero]⟩
              · refine Or.inl ?_
                rw [if_neg (by omega)]; omega
            · refine Or.inl ?_
              have := run.nonempty
              rw [run.nextStart isEnd,sub32Eq (by omega)]
          have offset : sub32 (need f).base z.start = (need f).base - z.start := sub32Eq (by omega)
          rw [offset] at have'
          rcases span with span | ⟨zero,zend,span⟩
          · rw [span,sub32Eq (by omega)] at have'
            omega
          · rw [span] at have'
            unfold sub32 at have'
            split at have' <;> omega
        simp only [Need.claims,rev,Bool.false_eq_true,if_false] at claimed
        have := run.bound
        exact ⟨by omega,run.zone a (by omega) (by omega)⟩
  have claims : ∀ a, (need f).claims copylen a ↔ (Area.mk (if (need f).reverse then
      (need f).base + (need f).len - copylen else (need f).base) copylen).has a := by
    intro a
    simp only [Need.claims,Area.has]
    split <;> omega
  have painted := allocateFromOk wf (by split <;> omega) held allocated
  have chunk := moveChunkOk painted.wf legal differ (by omega) (by omega) moved
  have front : (f::rest).Perm (purge s.frags) := by rw [frags]
  refine .advance (c := c) front differ open' ?_ chunk ?_ ?_ ?_
  · intro a isFree
    have h := (freeAfterAlloc painted).mp isFree
    exact ⟨h.1,fun claimed => h.2 ((claims a).mp claimed)⟩
  · rw [(workPure out).1]
  · rw [(workPure out).1]
  · rw [(workPure out).1]

theorem evictCut {o copy : Move} {m q m'} (legal : Legal o) (some' : 0 < copy.len) (above : o.src ≤ copy.src)
    (within : copy.src + copy.len ≤ o.src + o.len)
    (ok : (if copy.len < o.len then splitMovelist copy.src copy.len o else pure ⟨[],o,[]⟩ : Work Pieces) m = .ok (q,m')) :
    Cut o (copy.src - o.src) copy.len q := by
  split at ok
  · rw [show copy.src = o.src + (copy.src - o.src) by omega] at ok
    exact splitMovelistOk legal some' (by omega) ok
  · rw [(workPure ok).1]
    have cut := cutWhole legal.1
    rwa [show o.len = copy.len by omega,← show copy.src - o.src = 0 by omega] at cut

theorem evictTurn {s f rest p copy m s' m'} (wf : WellFormed s.mmap) (legal : ∀ g ∈ f::rest, Legal g)
    (frags : purge s.frags = f::rest) (differ : f.src ≠ f.dst) (place : rest = p.list)
    (occupies : p.here.inSrc (need f).cbyte) (to' : evictTo s.mmap (need f) p.here = some copy)
    (fits : EvictionFits (need f) copy) (held : AllocationHeld s.mmap m (.evict (need f) f p copy))
    (ok : perform s (.evict (need f) f p copy) m = .ok (s',m')) : Turn s s' := by
  have legalF : Legal f := legal f List.mem_cons_self
  have legalO : Legal p.here := legal p.here (List.mem_cons_of_mem _ (place ▸ hereMem p))
  have n := needOk legalF differ
  have e := evictToOk wf legalO occupies fits.1 to'
  have above := e.above
  have within := e.within
  have some' := e.some'
  have top := legalO.2.2.2
  obtain ⟨mmap1,m1,allocated,rest'⟩ := workBind ok
  obtain ⟨q,m2,split',rest'⟩ := workBind rest'
  obtain ⟨mv,m3,made,rest'⟩ := workBind rest'
  obtain ⟨⟨mmap2,copylen⟩,m4,trimmed,rest'⟩ := workBind rest'
  obtain ⟨c,m5,moved,out⟩ := workBind rest'
  have cut := evictCut legalO some' above within split'
  have painted := allocateFromOk wf e.area.fits held allocated
  have trim := trimVacatedOk painted.wf n some' e.reach (by omega) fits trimmed
  have chunk := moveChunkOk trim.wf legalF differ trim.some' trim.le moved
  have made' : mv = copy := newMovelistOk made
  have front : (p.here::f::(p.before ++ p.after)).Perm (purge s.frags) := by
    rw [frags,place]
    refine (List.Perm.swap _ _ _).trans (List.Perm.cons _ ?_)
    exact List.perm_middle.symm
  refine .evict (q := q) (c := c) front differ e.area cut ?_ painted trim chunk ?_ ?_ ?_
  · rw [cut.here]; simp only; omega
  · rw [(workPure out).1]
  · rw [(workPure out).1,made']
  · rw [(workPure out).1]
    refine List.Perm.append_left _ ?_
    have len : q.here.len = copy.len := by rw [cut.here]
    simp only [Pieces.list,len]
    rw [List.perm_iff_count]
    intro g
    simp only [List.count_append,List.count_cons]
    omega

inductive Chosen (s : PlanState) : Choice → Prop where
  | stuck : Chosen s .stuck
  | discard {f rest} (frags : s.frags = f::rest) (inPlace : f.src = f.dst) : Chosen s (.discard rest)
  | place {p} (frags : purge s.frags = p.list) (differ : p.here.src ≠ p.here.dst)
      (free : (isFreeZone s.mmap (need p.here).base (need p.here).len).isSome = true) : Chosen s (.place p)
  | claim {f rest} (frags : purge s.frags = f::rest) (differ : f.src ≠ f.dst)
      (some' : available (need f) (isFreeZone s.mmap (need f).cbyte 1) ≠ 0) :
      Chosen s (.claim (need f) (min (need f).len (available (need f) (isFreeZone s.mmap (need f).cbyte 1))) f rest)
  | evict {f rest p copy} (frags : purge s.frags = f::rest) (differ : f.src ≠ f.dst)
      (found : findOccupant (need f).cbyte rest = some p) (to' : evictTo s.mmap (need f) p.here = some copy) :
      Chosen s (.evict (need f) f p copy)

theorem chooseChosen (s : PlanState) : Chosen s (choose s.mmap s.frags) := by
  cases frags : s.frags with
  | nil => exact .stuck
  | cons f rest =>
    simp only [choose]
    by_cases inPlace : f.src = f.dst
    · rw [if_pos inPlace]
      exact .discard frags inPlace
    · rw [if_neg inPlace]
      have purged : purge s.frags = f::rest.filter (fun o => o.src ≠ o.dst) := by rw [frags]; rfl
      cases movable : findMovable s.mmap (f::rest.filter (fun o => o.src ≠ o.dst)) with
      | some p =>
        obtain ⟨list,free⟩ := findMovableOk movable
        have differ : p.here.src ≠ p.here.dst := by
          have m : p.here ∈ f::rest.filter (fun o => o.src ≠ o.dst) := list ▸ hereMem p
          rcases List.mem_cons.mp m with h | h
          · rw [h]; exact inPlace
          · simpa using (List.mem_filter.mp h).2
        exact .place (purged.trans list) differ free
      | none =>
        by_cases some' : available (need f) (isFreeZone s.mmap (need f).cbyte 1) ≠ 0
        · simp only [some',ne_eq,not_false_eq_true,if_true]
          exact .claim purged inPlace some'
        · simp only [some',if_false]
          cases occupant : findOccupant (need f).cbyte (rest.filter (fun o => o.src ≠ o.dst)) with
          | none => exact .stuck
          | some p =>
            simp only
            cases to' : evictTo s.mmap (need f) p.here with
            | none => exact .stuck
            | some copy => exact .evict purged inPlace occupant to'

theorem stuckBails (s : PlanState) (m : List Bool) : perform s .stuck m = .error .bail := rfl

theorem planStepTurn {s m s' m'} (wf : WellFormed s.mmap) (legal : ∀ f ∈ s.frags, Legal f)
    (sound : SoundTurn s m) (ok : planStep s m = .ok (s',m')) : Turn s s' := by
  obtain ⟨fits,held⟩ := sound
  unfold planStep at ok
  have chosen := chooseChosen s
  have legal' := purgeLegal legal
  generalize choose s.mmap s.frags = c at chosen ok fits held
  cases chosen with
  | stuck => rw [stuckBails] at ok; contradiction
  | discard frags inPlace => exact .discard frags inPlace (workPure ok).1
  | place frags differ free => exact placeTurn wf legal frags differ free held ok
  | claim frags differ some' =>
    exact claimTurn wf (legal' _ (frags ▸ List.mem_cons_self)) frags differ rfl some' rfl fits held ok
  | evict frags differ found to' =>
    rw [frags] at legal'
    obtain ⟨list,source⟩ := findOccupantOk (fun g m => legal' g (List.mem_cons_of_mem _ m)) found
    exact evictTurn wf legal' frags differ list source to' fits held ok

end Syslinux.Movebits
