import Syslinux.MovebitsPlan
import Syslinux.ShuffleArea

/-! Runs of syslinux_compute_movelist that meet a failing malloc. new_movelist and
add_freelist bail out on one; allocate_from drops the -1 of syslinux_add_memmap and goes on
with the map it was left. -/
namespace Syslinux.Movebits
open Zonelist Zonelist.MemmapType Relocation Shuffle

section
variable {α β : Type}

/- One computation under some malloc outcomes and with every malloc succeeding: it gives
up, or comes out the same. -/
inductive Alike (x y : Except Stop (α × List Bool)) : Prop where
  | bails (here : x = .error .bail)
  | fails (e : Stop) (here : x = .error e) (there : y = .error e)
  | returns (a : α) (m' : List Bool) (here : x = .ok (a,m')) (there : y = .ok (a,[]))

def Indifferent (x : Work α) (m : List Bool) : Prop := Alike (x m) (x [])

theorem Alike.result {x y : Except Stop (α × List Bool)} (h : Alike x y) :
    x = .error .bail ∨ x.map Prod.fst = y.map Prod.fst := by
  cases h with
  | bails here => exact Or.inl here
  | fails e here there => exact Or.inr (by rw [here,there])
  | returns a m' here there => exact Or.inr (by rw [here,there]; rfl)

theorem indifferentPure (a : α) (m : List Bool) : Indifferent (pure a : Work α) m := .returns a m rfl rfl

theorem indifferentThrow (e : Stop) (m : List Bool) : Indifferent (throw e : Work α) m := .fails e rfl rfl

theorem indifferentBind {x : Work α} {f : α → Work β} {m : List Bool} (first : Indifferent x m)
    (later : ∀ a m', x m = .ok (a,m') → Indifferent (f a) m') : Indifferent (x >>= f) m := by
  unfold Indifferent
  simp only [bind,StateT.bind,Except.bind]
  cases first with
  | bails here => exact .bails (by rw [here])
  | fails e here there => exact .fails e (by rw [here]) (by rw [there])
  | returns a m' here there =>
    rw [here,there]
    exact later a m' here

theorem indifferentIte {x y : Work α} {m : List Bool} (c : Prop) [Decidable c] (yes : c → Indifferent x m)
    (no : ¬c → Indifferent y m) : Indifferent (if c then x else y) m := by
  split
  · exact yes (by assumption)
  · exact no (by assumption)

end

section Pieces
variable (m : List Bool) (mmap : List Zone)

theorem newMovelistIndifferent (dst src len : Nat) : Indifferent (newMovelist dst src len) m := by
  unfold Indifferent newMovelist
  rcases malloc m with ⟨fine,rest⟩
  cases fine with
  | false => exact .bails rfl
  | true => exact .returns _ rest rfl rfl

theorem dupMovelistIndifferent (frags : List Move) : Indifferent (dupMovelist frags) m := by
  induction frags generalizing m with
  | nil => exact indifferentPure _ m
  | cons f rest ih =>
    refine indifferentBind (newMovelistIndifferent m _ _ _) (fun ml m1 _ => ?_)
    exact indifferentBind (ih m1) (fun tail m2 _ => indifferentPure _ m2)

theorem initMemmapIndifferent : Indifferent initMemmap m := by
  unfold Indifferent initMemmap
  rcases malloc m with ⟨fine,rest⟩
  cases fine with
  | false => exact .bails rfl
  | true =>
    simp only
    rcases malloc rest with ⟨fine,rest⟩
    cases fine with
    | false => exact .bails rfl
    | true => exact .returns _ rest rfl rfl

theorem addFreelistIndifferent (start len : Nat) (type : MemmapType) :
    Indifferent (addFreelist mmap start len type) m := by
  unfold Indifferent
  rw [addFreelistAll]
  cases result : addFreelist mmap start len type m with
  | error e =>
    simp only [addFreelist] at result
    split at result
    · cases result
    · cases result
      exact .bails rfl
  | ok r =>
    obtain ⟨mmap',m'⟩ := r
    exact .returns _ m' rfl (by rw [addFreelistList result])

theorem allocateFromIndifferent {start len : Nat} (zero : (syslinuxAddMemmap m mmap start len smtAlloc).rv = 0) :
    Indifferent (allocateFrom mmap start len) m := by
  refine .returns _ (syslinuxAddMemmap m mmap start len smtAlloc).mallocs rfl ?_
  simp only [allocateFrom]
  rw [addMemmapList zero,addMemmapMallocs]

theorem splitMovelistIndifferent (start len : Nat) (f : Move) : Indifferent (splitMovelist start len f) m := by
  refine indifferentBind (indifferentIte _ (fun _ => ?_) (fun _ => indifferentPure _ m)) ?_
  · exact indifferentBind (newMovelistIndifferent m _ _ _) (fun _ m1 _ => indifferentPure _ m1)
  · rintro ⟨before,ml⟩ m1 _
    refine indifferentIte _ (fun _ => ?_) (fun _ => indifferentPure _ m1)
    exact indifferentBind (newMovelistIndifferent m1 _ _ _) (fun _ m2 _ => indifferentPure _ m2)

theorem moveChunkIndifferent (f : Move) (copylen : Nat) : Indifferent (moveChunk mmap f copylen) m := by
  refine indifferentBind (indifferentIte _ (fun _ => splitMovelistIndifferent m _ _ f)
    (fun _ => indifferentPure _ m)) (fun p m1 _ => ?_)
  refine indifferentBind (newMovelistIndifferent m1 _ _ _) (fun mv m2 _ => ?_)
  exact indifferentBind (addFreelistIndifferent m2 mmap _ _ _) (fun _ m3 _ => indifferentPure _ m3)

theorem trimVacatedIndifferent (n : Need) (copy : Move) : Indifferent (trimVacated mmap n copy) m := by
  refine indifferentIte _ (fun _ => ?_) (fun _ => indifferentPure _ m)
  refine indifferentBind (indifferentIte _ (fun _ => ?_) (fun _ => indifferentPure _ m)) ?_
  · exact indifferentBind (addFreelistIndifferent m mmap _ _ _) (fun _ m1 _ => indifferentPure _ m1)
  · rintro ⟨mmap1,copylen⟩ m1 _
    refine indifferentIte _ (fun _ => ?_) (fun _ => indifferentPure _ m1)
    exact indifferentBind (addFreelistIndifferent m1 mmap1 _ _ _) (fun _ m2 _ => indifferentPure _ m2)

theorem splitBehindIndifferent (mp : Move) (pe xe : Nat) (next : List Move) :
    Indifferent (splitBehind mp pe xe next) m := by
  refine indifferentIte _ (fun _ => ?_) (fun _ => indifferentPure _ m)
  exact indifferentBind (newMovelistIndifferent m _ _ _) (fun _ m1 _ => indifferentPure _ m1)

theorem splitBeforeIndifferent (mp : Move) (ps xs : Nat) (next : List Move) (advance : Bool) :
    Indifferent (splitBefore mp ps xs next advance) m := by
  refine indifferentIte _ (fun _ => ?_) (fun _ => indifferentPure _ m)
  exact indifferentBind (newMovelistIndifferent m _ _ _) (fun _ m1 _ => indifferentPure _ m1)

theorem dealiasScanIndifferent (mxs : List Move) (mp : Move) (ps pe : Nat) (next post : List Move) :
    Indifferent (dealiasScan mxs mp ps pe next post) m := by
  induction mxs generalizing m mp ps pe next post with
  | nil => exact indifferentPure _ m
  | cons mx mxs ih =>
    refine indifferentIte _ (fun _ => ih m mp ps pe next post) (fun _ => ?_)
    refine indifferentBind (splitBehindIndifferent m _ _ _ _) ?_
    rintro ⟨mp1,pe1,here1,advance1⟩ m1 _
    refine indifferentBind (splitBeforeIndifferent m1 _ _ _ _ _) ?_
    rintro ⟨mp2,ps2,here2,advance2⟩ m2 _
    cases advance2 with
    | false => exact indifferentPure _ m2
    | true =>
      cases here2 with
      | nil => exact indifferentPure _ m2
      | cons g next2 => exact ih m2 g ps2 pe1 next2 _

theorem shuffleDealiasIndifferent (fuel : Nat) (done list post : List Move) :
    Indifferent (shuffleDealias fuel done list post) m := by
  induction fuel generalizing m done list post with
  | zero =>
    cases list with
    | nil => exact indifferentPure _ m
    | cons mp next => exact indifferentThrow _ m
  | succ fuel ih =>
    cases list with
    | nil => exact indifferentPure _ m
    | cons mp next =>
      refine indifferentBind (dealiasScanIndifferent m _ _ _ _ _ _) ?_
      rintro ⟨kept,next1,post1⟩ m1 _
      cases kept with
      | none => exact ih m1 done next1 post1
      | some g => exact ih m1 (done ++ [g]) next1 post1

theorem importMemmapIndifferent (memmap : List Zone) : Indifferent (importMemmap mmap memmap) m := by
  induction memmap generalizing m mmap with
  | nil => exact indifferentPure _ m
  | cons mm rest ih =>
    cases rest with
    | nil => exact indifferentPure _ m
    | cons next rest =>
      refine indifferentIte _ (fun _ => indifferentPure _ m) (fun _ => ?_)
      exact indifferentBind (addFreelistIndifferent m mmap _ _ _) (fun mmap1 m1 _ => ih m1 mmap1)

theorem allocateSourcesIndifferent (frags : List Move) : Indifferent (allocateSources mmap frags) m := by
  induction frags generalizing m mmap with
  | nil => exact indifferentPure _ m
  | cons f rest ih =>
    exact indifferentBind (addFreelistIndifferent m mmap _ _ _) (fun mmap1 m1 _ => ih m1 mmap1)

theorem planSetupIndifferent (fuel : Nat) (ifrags : List Move) (memmap : List Zone) :
    Indifferent (planSetup fuel ifrags memmap) m := by
  refine indifferentBind (initMemmapIndifferent m) (fun mmap m1 _ => ?_)
  refine indifferentBind (dupMovelistIndifferent m1 _) (fun frags m2 _ => ?_)
  refine indifferentBind (shuffleDealiasIndifferent m2 _ _ _ _) ?_
  rintro ⟨frags,postcopy⟩ m3 _
  refine indifferentBind (importMemmapIndifferent m3 _ _) (fun mmap m4 _ => ?_)
  exact indifferentBind (allocateSourcesIndifferent m4 _ _) (fun mmap m5 _ => indifferentPure _ m5)

end Pieces

theorem performIndifferent {s : PlanState} {c : Choice} {m : List Bool} (held : AllocationHeld s.mmap m c) :
    Indifferent (perform s c) m := by
  cases c with
  | discard rest => exact indifferentPure _ m
  | stuck => exact indifferentThrow _ m
  | place p =>
    refine indifferentBind (allocateFromIndifferent m s.mmap held) (fun mmap m1 _ => ?_)
    exact indifferentBind (moveChunkIndifferent m1 mmap _ _) (fun c m2 _ => indifferentPure _ m2)
  | claim n copylen f rest =>
    refine indifferentBind (allocateFromIndifferent m s.mmap held) (fun mmap m1 _ => ?_)
    exact indifferentBind (moveChunkIndifferent m1 mmap _ _) (fun c m2 _ => indifferentPure _ m2)
  | evict n f p copy =>
    refine indifferentBind (allocateFromIndifferent m s.mmap held) (fun mmap m1 _ => ?_)
    refine indifferentBind (indifferentIte _ (fun _ => splitMovelistIndifferent m1 _ _ _)
      (fun _ => indifferentPure _ m1)) (fun q m2 _ => ?_)
    refine indifferentBind (newMovelistIndifferent m2 _ _ _) (fun mv m3 _ => ?_)
    refine indifferentBind (trimVacatedIndifferent m3 mmap n copy) ?_
    rintro ⟨mmap1,copylen⟩ m4 _
    exact indifferentBind (moveChunkIndifferent m4 mmap1 _ _) (fun c m5 _ => indifferentPure _ m5)

/- What allocate_from has to find at the head of every turn. -/
def TurnHeld (t : PlanState × List Bool) : Prop := AllocationHeld t.1.mmap t.2 (choose t.1.mmap t.1.frags)
instance (t : PlanState × List Bool) : Decidable (TurnHeld t) := by unfold TurnHeld; infer_instance

theorem planIndifferent {fuel s m} (held : ∀ t ∈ turns fuel s m, TurnHeld t) : Indifferent (plan fuel s) m := by
  induction fuel generalizing s m with
  | zero =>
    obtain ⟨mmap,frags,moves⟩ := s
    cases frags with
    | nil => exact indifferentPure _ m
    | cons f rest => exact indifferentThrow _ m
  | succ fuel ih =>
    obtain ⟨mmap,frags,moves⟩ := s
    cases frags with
    | nil => exact indifferentPure _ m
    | cons f rest =>
      simp only [turns,reduceCtorEq,if_false] at held
      refine indifferentBind (performIndifferent (held _ List.mem_cons_self)) (fun s1 m1 first => ?_)
      have step : planStep ⟨mmap,f::rest,moves⟩ m = .ok (s1,m1) := first
      rw [step] at held
      exact ih (fun t mem => held t (List.mem_cons_of_mem _ mem))

theorem movelistSurvivesFailures (fuel : Nat) (ifrags : List Move) (memmap : List Zone) (m : List Bool)
    (held : ∀ t ∈ planTurns fuel ifrags memmap m, TurnHeld t) :
    syslinuxComputeMovelist fuel ifrags memmap m = .error .bail ∨
      (syslinuxComputeMovelist fuel ifrags memmap m).map Prod.fst =
        (syslinuxComputeMovelist fuel ifrags memmap []).map Prod.fst := by
  have whole : Indifferent (syslinuxComputeMovelist fuel ifrags memmap) m := by
    refine indifferentBind (planSetupIndifferent m fuel ifrags memmap) ?_
    rintro ⟨s,postcopy⟩ m1 setup
    simp only [planTurns,setup] at held
    exact indifferentBind (planIndifferent held) (fun s' m2 _ => indifferentPure _ m2)
  exact whole.result

/- The twelfth malloc, for a token of a source in the private map, is one that add_freelist
answers for; the run gives up. -/
theorem movelistSurvivesSource :
    (∀ t ∈ planTurns 7 [⟨140,300,5⟩,⟨110,100,10⟩,⟨100,110,10⟩]
        [⟨0,smtUndefined⟩,⟨138,smtFree⟩,⟨150,smtUndefined⟩,⟨0,smtEnd⟩] (List.replicate 11 true ++ [false]), TurnHeld t) ∧
    (syslinuxComputeMovelist 7 [⟨140,300,5⟩,⟨110,100,10⟩,⟨100,110,10⟩]
        [⟨0,smtUndefined⟩,⟨138,smtFree⟩,⟨150,smtUndefined⟩,⟨0,smtEnd⟩] (List.replicate 11 true ++ [false]) = .error .bail ∨
      (syslinuxComputeMovelist 7 [⟨140,300,5⟩,⟨110,100,10⟩,⟨100,110,10⟩]
        [⟨0,smtUndefined⟩,⟨138,smtFree⟩,⟨150,smtUndefined⟩,⟨0,smtEnd⟩] (List.replicate 11 true ++ [false])).map Prod.fst =
      (syslinuxComputeMovelist 7 [⟨140,300,5⟩,⟨110,100,10⟩,⟨100,110,10⟩]
        [⟨0,smtUndefined⟩,⟨138,smtFree⟩,⟨150,smtUndefined⟩,⟨0,smtEnd⟩] []).map Prod.fst) :=
  ⟨by decide,movelistSurvivesFailures 7 _ _ _ (by decide)⟩

/- The thirteenth is the start token of allocate_from: the destination of the first move
stays free, and the next eviction lands on it. -/
theorem movelistMisplansAfterFailure :
    ¬ ∀ (fuel : Nat) (ifrags : List Move) (memmap : List Zone) (m : List Bool),
      WellFormed memmap → (∀ f ∈ ifrags, Legal f) → ifrags.Pairwise SrcApart → ifrags.Pairwise DstApart →
      syslinuxComputeMovelist fuel ifrags memmap m = .error .bail ∨
        (syslinuxComputeMovelist fuel ifrags memmap m).map Prod.fst =
          (syslinuxComputeMovelist fuel ifrags memmap []).map Prod.fst := by
  intro claim
  have wrong := claim 7 [⟨140,300,5⟩,⟨110,100,10⟩,⟨100,110,10⟩]
    [⟨0,smtUndefined⟩,⟨138,smtFree⟩,⟨150,smtUndefined⟩,⟨0,smtEnd⟩] (List.replicate 12 true ++ [false])
    (by simp [WellFormed,Follows]) (by decide) (by decide) (by decide)
  have failed : syslinuxComputeMovelist 7 [⟨140,300,5⟩,⟨110,100,10⟩,⟨100,110,10⟩]
      [⟨0,smtUndefined⟩,⟨138,smtFree⟩,⟨150,smtUndefined⟩,⟨0,smtEnd⟩] (List.replicate 12 true ++ [false]) =
    .ok ([⟨140,300,5⟩,⟨138,110,10⟩,⟨110,100,10⟩,⟨100,138,10⟩],[]) := by decide
  have served : syslinuxComputeMovelist 7 [⟨140,300,5⟩,⟨110,100,10⟩,⟨100,110,10⟩]
      [⟨0,smtUndefined⟩,⟨138,smtFree⟩,⟨150,smtUndefined⟩,⟨0,smtEnd⟩] [] =
    .ok ([⟨140,300,5⟩,⟨145,110,5⟩,⟨110,100,5⟩,⟨100,145,5⟩,⟨145,115,5⟩,⟨115,105,5⟩,⟨105,145,5⟩],[]) := by
    decide
  rw [failed,served] at wrong
  rcases wrong with bailed | same
  · cases bailed
  · cases Except.ok.inj same

end Syslinux.Movebits
