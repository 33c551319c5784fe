import Syslinux.ModuleUnload
import Syslinux.SpawnDecay

/-! The unloading of spawn_load, which follows the memory of the modules, and the one that follows the runs of their
destructors, are of the same code: where the first has a result, the second has the same module list and the same
answer. -/
namespace Syslinux.Spawn
open Syslinux.Module (Good)

/- The same modules under the same names, and the lists that the calls keep. -/
structure Shows (u : Unload.World) (w : World) : Prop where
  graph : w.graph = u.graph
  good : Good u.graph
  names : ∀ m ∈ u.graph.modulesHead,∀ i,w.info m = some i → i.name = u.name m

/- What a call for m leaves behind. -/
structure Freed (u u' : Unload.World) (w' : World) (m : Nat) : Prop where
  shows : Shows u' w'
  names : u'.name = u.name
  others : ∀ a ∈ u.graph.modulesHead,a ≠ m → a ∈ u'.graph.modulesHead

section
variable {u : Unload.World} {w w' : World} {m : Nat} {rc : Int}

theorem releaseShown (shows : Shows u w) (here : m ∈ u.graph.modulesHead) (ran : release w m = some (rc,w')) :
    ∃ u',Unload.release u m = some (u',rc) ∧ Freed u u' w' m := by
  obtain ⟨e,found⟩ := shows.good.stored.find here
  have linked : unlink w m = Module.moduleUnload u.graph m := by
    simp only [unlink,shows.graph,found]
  simp only [release,linked,bind,Option.bind_eq_some_iff] at ran
  obtain ⟨i,info,⟨graph,rc'⟩,unloads,rest⟩ := ran
  rcases Unload.unloadOutcome shows.good here with ⟨_,refused⟩ | ⟨_,s',freed,good,list⟩
  · cases Option.some.inj (refused.symm.trans unloads)
    cases rest
    exact ⟨u,by simp [Unload.release,refused],shows,rfl,fun a inside _ => inside⟩
  · cases Option.some.inj (freed.symm.trans unloads)
    obtain ⟨w1,memory,last⟩ := Option.bind_eq_some_iff.1 rest
    cases last
    refine ⟨{ u with graph },by simp [Unload.release,freed],⟨rfl,good,fun a inside i' info' => ?_⟩,rfl,
      fun a inside other => ?_⟩
    · rw [list] at inside
      obtain ⟨other,old⟩ := shows.good.stored.headOnce.mem_erase_iff.1 inside
      have kept : w.info a = some i' := by
        rw [← info']
        simp [(elfFreeSame memory).2.1,other]
      exact shows.names a old i' kept
    · rw [list]
      exact (List.mem_erase_of_ne other).2 inside

theorem Shows.dtors (shows : Shows u w) : Shows (Unload.runDtors u m) w := by
  unfold Unload.runDtors
  split_ifs
  · exact shows
  · exact ⟨shows.graph,shows.good,shows.names⟩

theorem dtorsKeep (u : Unload.World) (m : Nat) : (Unload.runDtors u m).graph = u.graph ∧
    (Unload.runDtors u m).name = u.name := by
  unfold Unload.runDtors
  split_ifs <;> exact ⟨rfl,rfl⟩

/- The destructors that the second one runs first change no list. -/
theorem unloadShown (shows : Shows u w) (here : m ∈ u.graph.modulesHead) (ran : release w m = some (rc,w')) :
    ∃ u',Unload.moduleUnload u m = some (u',rc) ∧ Freed u u' w' m := by
  obtain ⟨graph,name⟩ := dtorsKeep u m
  obtain ⟨u',same,shown,names,others⟩ := releaseShown shows.dtors (graph.symm ▸ here) ran
  exact ⟨u',same,shown,names.trans name,fun a inside => others a (graph.symm ▸ inside)⟩

theorem findShown {name : String} {mods : List Nat} {r : Option Nat} (shows : Shows u w)
    (here : ∀ a ∈ mods,a ∈ u.graph.modulesHead) (found : findNamed w name mods = some r) :
    mods.find? (fun mod => u.name mod = name) = r := by
  induction mods with
  | nil =>
    cases found
    rfl
  | cons mod rest ih =>
    obtain ⟨i,info,next⟩ := Option.bind_eq_some_iff.1 found
    rw [List.find?_cons,← shows.names mod (here mod List.mem_cons_self) i info]
    by_cases named : i.name = name
    · rw [if_pos named] at next
      cases next
      simp [named]
    · rw [if_neg named] at next
      simp only [named,decide_false]
      exact ih (fun a inside => here a (List.mem_cons_of_mem _ inside)) next

theorem untilShown {begin1 : Nat} {mods : List Nat} (shows : Shows u w) (here : ∀ a ∈ mods,a ∈ u.graph.modulesHead)
    (once : mods.Nodup) (ran : unloadUntil begin1 mods w = some w') :
    ∃ u',Unload.unloadUntil begin1 mods u = some u' ∧ Shows u' w' := by
  induction mods generalizing u w with
  | nil =>
    cases ran
    exact ⟨u,rfl,shows⟩
  | cons mod rest ih =>
    rw [unloadUntil] at ran
    rw [Unload.unloadUntil]
    by_cases stops : mod = begin1
    · rw [if_pos stops] at ran ⊢
      cases ran
      exact ⟨u,rfl,shows⟩
    rw [if_neg stops] at ran ⊢
    obtain ⟨⟨rc,w1⟩,first,later⟩ := Option.bind_eq_some_iff.1 ran
    obtain ⟨u1,same,freed⟩ := unloadShown shows (here mod List.mem_cons_self) first
    obtain ⟨fresh,rest1⟩ := List.nodup_cons.1 once
    obtain ⟨u',last,shown⟩ := ih freed.shows
      (fun a inside => freed.others a (here a (List.mem_cons_of_mem _ inside)) (ne_of_mem_of_not_mem inside fresh))
      rest1 later
    exact ⟨u',by simp [same,last],shown⟩

theorem sinceShown {name : String} (shows : Shows u w) (ran : unloadModulesSince w name = some w') :
    ∃ u',Unload.unloadModulesSince u name = some u' ∧ Shows u' w' := by
  obtain ⟨r,found,rest⟩ := Option.bind_eq_some_iff.1 ran
  rw [shows.graph] at found rest
  rw [Unload.unloadModulesSince,findShown shows (fun _ inside => inside) found]
  cases r with
  | none =>
    cases rest
    exact ⟨u,rfl,shows⟩
  | some begin1 => exact untilShown shows (fun _ inside => inside) shows.good.stored.headOnce rest

/- spawn_load before module_load. -/
theorem namesakeShown {name : String} (shows : Shows u w) (ran : unloadNamesake w name = some w') :
    ∃ u',Unload.unloadCurrent u name = some u' ∧ Shows u' w' := by
  obtain ⟨cur,head,rest⟩ := Option.bind_eq_some_iff.1 ran
  obtain ⟨i,info,last⟩ := Option.bind_eq_some_iff.1 rest
  rw [shows.graph] at head
  have here := List.mem_of_head? head
  rw [Unload.unloadCurrent,head]
  simp only [← shows.names cur here i info,bind,Option.bind_some]
  by_cases running : i.name = name
  · rw [if_pos running] at last ⊢
    obtain ⟨⟨rc,w1⟩,first,rfl⟩ := Option.map_eq_some_iff.1 last
    obtain ⟨u',same,freed⟩ := unloadShown shows here first
    exact ⟨u',by simp [same],freed.shows⟩
  · rw [if_neg running] at last ⊢
    cases last
    exact ⟨u,rfl,shows⟩

end
end Syslinux.Spawn
