import Syslinux.SpawnLoad

/-! What no part of spawn_load can make good: an old module that has left the list, and a table that
is never freed. This holds from any state, also where lists and structures no longer agree. -/
namespace Syslinux.Spawn

structure Decay (n : Nat) (w w' : World) : Prop where
  list : ∀ a < n, a ∈ w'.graph.modulesHead → a ∈ w.graph.modulesHead
  tables : w.tables.length ≤ w'.tables.length
  next : w.next ≤ w'.next

section
variable {n m : Nat} {w w' : World} {res : Int}

theorem Decay.refl (w : World) : Decay n w w := ⟨fun _ _ h => h,le_rfl,le_rfl⟩

theorem Decay.trans {w'' : World} (first : Decay n w w') (second : Decay n w' w'') : Decay n w w'' :=
  ⟨fun a old inside => first.list a old (second.list a old inside),first.tables.trans second.tables,
    first.next.trans second.next⟩

theorem elfFreeSame {flag : Bool} (ran : elfFree w m flag = some w') :
    w'.graph = w.graph ∧ w'.info = w.info ∧ w'.tables = w.tables ∧ w'.next = w.next := by
  unfold elfFree at ran
  split at ran
  · split at ran
    · obtain rfl := Option.some.inj ran
      exact ⟨rfl,rfl,rfl,rfl⟩
    · exact absurd ran (by simp)
  · obtain rfl := Option.some.inj ran
    exact ⟨rfl,rfl,rfl,rfl⟩

/- A module that is released leaves the list if at all, and structures only go. -/
theorem releaseDecay (ran : release w m = some (res,w')) :
    Decay n w w' ∧ ∀ a, w.info a = none → w'.info a = none := by
  unfold release at ran
  obtain ⟨i,_,ran⟩ := Option.bind_eq_some_iff.mp ran
  obtain ⟨⟨graph,rc⟩,unloads,ran⟩ := Option.bind_eq_some_iff.mp ran
  dsimp only at ran
  split at ran
  · obtain ⟨_,rfl⟩ := Prod.mk.inj (Option.some.inj ran)
    exact ⟨.refl w,fun _ h => h⟩
  · obtain ⟨w1,freed,ran⟩ := Option.bind_eq_some_iff.mp ran
    obtain ⟨_,rfl⟩ := Prod.mk.inj (Option.some.inj ran)
    obtain ⟨_,infos,tables,next⟩ := elfFreeSame freed
    refine ⟨⟨fun a _ inside => ?_,le_of_eq (congrArg List.length tables.symm),le_of_eq next.symm⟩,fun a none1 => ?_⟩
    · unfold unlink at unloads
      split at unloads
      · obtain ⟨rfl,_⟩ := Prod.mk.inj (Option.some.inj unloads)
        exact inside
      · rcases Module.moduleUnloadHead unloads with ⟨_,_,_,rfl⟩ | ⟨_,less⟩
        · exact inside
        · rw [show graph.modulesHead = _ from less] at inside
          exact List.mem_of_mem_erase inside
    · dsimp only
      rw [infos]
      by_cases same : a = m
      · simp [same]
      · simp [same,none1]

theorem untilDecay {begin1 : Nat} {list : List Nat} (ran : unloadUntil begin1 list w = some w') :
    Decay n w w' ∧ ∀ a, w.info a = none → w'.info a = none := by
  induction list generalizing w with
  | nil =>
    obtain rfl := Option.some.inj ran
    exact ⟨.refl w,fun _ h => h⟩
  | cons mod rest ih =>
    rw [unloadUntil] at ran
    split at ran
    · obtain rfl := Option.some.inj ran
      exact ⟨.refl w,fun _ h => h⟩
    · obtain ⟨⟨_,w1⟩,one,ran⟩ := Option.bind_eq_some_iff.mp ran
      obtain ⟨first,dead⟩ := releaseDecay one
      obtain ⟨second,stays⟩ := ih ran
      exact ⟨first.trans second,fun a h => stays a (dead a h)⟩

theorem sinceDecay {name : String} (ran : unloadModulesSince w name = some w') : Decay n w w' := by
  obtain ⟨found,_,ran⟩ := Option.bind_eq_some_iff.mp ran
  cases found with
  | none =>
    obtain rfl := Option.some.inj ran
    exact .refl w
  | some begin1 => exact (untilDecay ran).1

theorem clearLoadDecay {rc : Int} (ran : clearLoad w m rc = some (res,w')) : Decay n w w' := by
  obtain ⟨i,_,ran⟩ := Option.bind_eq_some_iff.mp ran
  obtain ⟨w1,freed,ran⟩ := Option.bind_eq_some_iff.mp ran
  obtain ⟨_,rfl⟩ := Prod.mk.inj (Option.some.inj ran)
  obtain ⟨graph,_,tables,next⟩ := elfFreeSame freed
  refine ⟨fun a _ inside => ?_,le_of_eq (congrArg List.length tables.symm),le_of_eq next.symm⟩
  rw [← graph]
  exact List.mem_of_mem_erase inside

theorem failedDecay {head : Option Nat} {rc : Int} (ran : failed w m head rc = some (res,w')) : Decay n w w' := by
  cases head with
  | none => exact clearLoadDecay ran
  | some head =>
    obtain ⟨i,_,ran⟩ := Option.bind_eq_some_iff.mp ran
    obtain ⟨w1,unloads,ran⟩ := Option.bind_eq_some_iff.mp ran
    exact (sinceDecay unloads).trans (clearLoadDecay ran)

theorem enforceDecay {ks : List Nat} (ran : enforceAll m ks w = some w') : Decay n w w' := by
  induction ks generalizing w with
  | nil =>
    obtain rfl := Option.some.inj ran
    exact .refl w
  | cons k ks ih =>
    rw [enforceAll] at ran
    split at ran
    · exact ih ran
    · split at ran
      · exact ih ran
      · obtain ⟨graph,one,ran⟩ := Option.bind_eq_some_iff.mp ran
        have head := Module.enforceHead one
        have step : Decay n w { w with graph, next := w.next + 2 } :=
          ⟨fun a _ inside => by rwa [← head],le_rfl,Nat.le_add_right _ _⟩
        exact step.trans (ih ran)

theorem tableDecay (table : Table) : Decay n w (makeTable w table) := by
  unfold makeTable
  split
  · exact ⟨fun _ _ h => h,by simp,by simp⟩
  · exact .refl w

theorem extractDecay (image : Image) : Decay n w (extractOperations image w).2 := by
  unfold extractOperations
  split
  · exact .refl w
  · exact (tableDecay _).trans (tableDecay _)

theorem loadReadAfter {image : Image} {needed : World → Option (Int × World)} (new : n ≤ m)
    (ran : loadRead image needed m w = some (res,w')) : ∃ rc w1, needed w = some (rc,w1) ∧ Decay n w1 w' := by
  obtain ⟨head,_,ran⟩ := Option.bind_eq_some_iff.mp ran
  obtain ⟨⟨rc,w1⟩,loads,ran⟩ := Option.bind_eq_some_iff.mp ran
  refine ⟨rc,w1,loads,?_⟩
  dsimp only at ran
  split at ran
  · exact failedDecay ran
  · split at ran
    · exact failedDecay ran
    · obtain ⟨w2,enforced,ran⟩ := Option.bind_eq_some_iff.mp ran
      have pushed : Decay n w1 { w1 with graph := Module.moduleLoad w1.graph m } := by
        refine ⟨fun a old inside => (List.mem_cons.mp inside).resolve_left ?_,le_rfl,le_rfl⟩
        exact Nat.ne_of_lt (lt_of_lt_of_le old new)
      have upTo := pushed.trans (enforceDecay enforced)
      have tables := extractDecay (n := n) (w := w2) image
      split at ran
      · rename_i w3 extracted
        rw [extracted] at tables
        exact (upTo.trans tables).trans (failedDecay ran)
      · rename_i w3 extracted
        rw [extracted] at tables
        obtain ⟨_,rfl⟩ := Prod.mk.inj (Option.some.inj ran)
        exact upTo.trans tables

theorem loadDecay {image : Image} {needed : World → Option (Int × World)} (new : n ≤ m)
    (keeps : ∀ w res w', needed w = some (res,w') → n ≤ w.next → Decay n w w') (from1 : n ≤ w.next)
    (ran : moduleLoad image needed m w = some (res,w')) : Decay n w w' := by
  have segments : Decay n w (setSegments w m image.name) := ⟨fun _ _ h => h,le_rfl,le_rfl⟩
  obtain ⟨found,_,ran⟩ := Option.bind_eq_some_iff.mp ran
  cases found with
  | some other =>
    obtain ⟨_,rfl⟩ := Prod.mk.inj (Option.some.inj ran)
    exact .refl w
  | none =>
    dsimp only at ran
    split at ran
    · obtain ⟨_,rfl⟩ := Prod.mk.inj (Option.some.inj ran)
      exact .refl w
    · refine Decay.trans ?_ (failedDecay ran)
      split
      · exact segments
      · exact .refl w
    · exact absurd ran (by simp)
    · obtain ⟨rc,w1,loads,decay⟩ := loadReadAfter new ran
      exact (segments.trans (keeps _ rc w1 loads from1)).trans decay

theorem namesakeDecay {name : String} (ran : unloadNamesake w name = some w') : Decay n w w' := by
  obtain ⟨cur,_,ran⟩ := Option.bind_eq_some_iff.mp ran
  obtain ⟨i,_,ran⟩ := Option.bind_eq_some_iff.mp ran
  split at ran
  · obtain ⟨r,one,rfl⟩ := Option.map_eq_some_iff.mp ran
    exact (releaseDecay one).1
  · obtain rfl := Option.some.inj ran
    exact .refl w

theorem finishDecay {image : Image} {rc : Int} (ran : finish image m (rc,w) = some (res,w')) : Decay n w w' := by
  unfold finish at ran
  dsimp only at ran
  split at ran
  · obtain ⟨r,one,same⟩ := Option.map_eq_some_iff.mp ran
    obtain ⟨_,rfl⟩ := Prod.mk.inj same
    exact (releaseDecay one).1
  · split at ran
    · obtain ⟨⟨rc1,w1⟩,one,ran⟩ := Option.bind_eq_some_iff.mp ran
      dsimp only at ran
      split at ran
      · obtain ⟨r,two,same⟩ := Option.map_eq_some_iff.mp ran
        obtain ⟨_,rfl⟩ := Prod.mk.inj same
        exact (releaseDecay one).1.trans (releaseDecay two).1
      · obtain ⟨_,rfl⟩ := Prod.mk.inj (Option.some.inj ran)
        exact (releaseDecay one).1
    · obtain ⟨_,rfl⟩ := Prod.mk.inj (Option.some.inj ran)
      exact .refl w

mutual

theorem spawnDecay (l : Load) : ∀ w res w', spawnLoad l w = some (res,w') → n ≤ w.next → Decay n w w' := by
  intro w res w' ran from1
  match l with
  | .mk image needed =>
    rw [spawnLoad] at ran
    split at ran
    · obtain ⟨_,rfl⟩ := Prod.mk.inj (Option.some.inj ran)
      exact .refl w
    · obtain ⟨w1,namesake,ran⟩ := Option.bind_eq_some_iff.mp ran
      obtain ⟨⟨rc,w2⟩,loads,ran⟩ := Option.bind_eq_some_iff.mp ran
      have alloc : Decay n w (moduleAlloc w image.name) := ⟨fun _ _ h => h,le_rfl,Nat.le_succ _⟩
      have first := alloc.trans (namesakeDecay namesake)
      have second := loadDecay from1 (neededDecay needed) (from1.trans first.next) loads
      exact (first.trans second).trans (finishDecay ran)

theorem neededDecay (ls : List Load) : ∀ w res w', loadNeeded ls w = some (res,w') → n ≤ w.next → Decay n w w' := by
  intro w res w' ran from1
  match ls with
  | [] =>
    obtain ⟨_,rfl⟩ := by simpa only [loadNeeded,Option.some.injEq,Prod.mk.injEq] using ran
    exact .refl w
  | l::rest =>
    rw [loadNeeded] at ran
    obtain ⟨⟨rc,w1⟩,one,ran⟩ := Option.bind_eq_some_iff.mp ran
    have first := spawnDecay l w rc w1 one from1
    dsimp only at ran
    split at ran
    · obtain ⟨_,rfl⟩ := Prod.mk.inj (Option.some.inj ran)
      exact first
    · exact first.trans (neededDecay rest w1 res w' ran (from1.trans first.next))

end

end

end Syslinux.Spawn
