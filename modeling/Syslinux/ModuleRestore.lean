import Syslinux.ModuleGraph

/-! Unloading the newest module takes back what its load and its dependencies did to the lists:
clear_dependency undoes the last enforce_dependency, and _module_unload all of them. -/
namespace Syslinux.Module

inductive Pushed (g : State) (m : Addr) : State → Prop where
  | load (fresh : g.modules m = none) : Pushed g m (moduleLoad g m)
  | edge {g1 g2 : State} {req new1 new2 : Addr} (pushed : Pushed g m g1) (differ : req ≠ m)
      (fresh1 : g1.deps new1 = none) (fresh2 : g1.deps new2 = none) (apart : new1 ≠ new2)
      (enforced : enforceDependency g1 req m new1 new2 = some g2) : Pushed g m g2

section
variable {s s' g g' : State} {m req dep new1 new2 : Addr}

/- Where the dependency is new, its two nodes are the first on their lists. -/
theorem enforceCases (differ : req ≠ dep) (fresh1 : s.deps new1 = none) (fresh2 : s.deps new2 = none) (apart : new1 ≠ new2)
    (ran : enforceDependency s req dep new1 new2 = some s') :
    s' = s ∨ s'.modulesHead = s.modulesHead ∧ s'.deps new1 = some req ∧ (∀ n ≠ new1, n ≠ new2 → s'.deps n = s.deps n) ∧
      (∀ e, s.modules dep = some e → s'.modules dep = some { e with required := new1::e.required }) ∧
      clearDependency s' req dep = some s := by
  unfold enforceDependency at ran
  obtain ⟨r,foundReq,ran⟩ := Option.bind_eq_some_iff.mp ran
  obtain ⟨at1,searched,ran⟩ := Option.bind_eq_some_iff.mp ran
  cases at1 with
  | some node => exact Or.inl (Option.some.inj ran).symm
  | none =>
    refine Or.inr ?_
    obtain ⟨mid,first,second⟩ := Option.bind_eq_some_iff.mp ran
    obtain ⟨d,foundDep,first⟩ := Option.bind_eq_some_iff.mp first
    obtain rfl := Option.some.inj first
    obtain ⟨r',foundReq',second⟩ := Option.bind_eq_some_iff.mp second
    obtain rfl := Option.some.inj second
    have same : r' = r := by
      simpa [State.setModule,State.setDep,Function.update_of_ne differ,foundReq] using foundReq'.symm
    subst same
    have depsBack : ∀ n, Function.update (Function.update (Function.update (Function.update s.deps new1 (some req)) new2
        (some dep)) new2 none) new1 none n = s.deps n := fun n => by
      by_cases first : n = new1
      · simp [first,fresh1]
      · by_cases second : n = new2
        · simp [second,fresh2,Ne.symm apart]
        · simp [first,second]
    have modulesBack : ∀ a, Function.update (Function.update (Function.update (Function.update s.modules dep
        (some ⟨new1::d.required,d.dependants⟩)) req (some ⟨r'.required,new2::r'.dependants⟩)) req
        (some ⟨r'.required,r'.dependants⟩)) dep (some ⟨d.required,d.dependants⟩) a = s.modules a := fun a => by
      by_cases here : a = dep
      · simp [here,foundDep]
      · by_cases there : a = req
        · simp [there,differ,foundReq]
        · simp [here,there]
    refine ⟨rfl,by simp [State.setModule,State.setDep,apart],?_,?_,?_⟩
    · intro n first second
      simp [State.setModule,State.setDep,first,second]
    · intro e found
      rw [foundDep] at found
      obtain rfl := Option.some.inj found
      simp [State.setModule,State.setDep,Ne.symm differ,ElfModule.put,ElfModule.on]
    · simp only [clearDependency,clearDep,State.setModule,State.setDep,Function.update_self,ElfModule.put,ElfModule.on,
        findDep,bind,Option.bind,if_true,List.erase_cons_head,Function.update_of_ne (Ne.symm differ),
        Function.update_of_ne apart,Option.some.injEq]
      rw [funext modulesBack,funext depsBack]

theorem pushedCleared (pushed : Pushed g m g') : g'.modulesHead = m::g.modulesHead ∧
    ∃ e, g'.modules m = some e ∧ e.dependants = [] ∧ ∀ turns, e.required.length ≤ turns →
      clearRequired m turns g' e.required.head? e.required.tail.head? = some (moduleLoad g m) := by
  induction pushed with
  | load fresh =>
    refine ⟨rfl,⟨[],[]⟩,by simp [moduleLoad,State.setModule],rfl,fun turns _ => ?_⟩
    cases turns <;> rfl
  | edge pushed differ fresh1 fresh2 apart enforced ih =>
    obtain ⟨head,e,found,free,cleared⟩ := ih
    rcases enforceCases differ fresh1 fresh2 apart enforced with rfl | ⟨same,named,_,gained,back⟩
    · exact ⟨head,e,found,free,cleared⟩
    · refine ⟨same.trans head,_,gained e found,free,fun turns enough => ?_⟩
      obtain ⟨turns,rfl⟩ : ∃ t, turns = t+1 := ⟨turns-1,by rw [List.length_cons] at enough; omega⟩
      rw [List.length_cons] at enough
      have rest := cleared turns (by omega)
      cases list : e.required with
      | nil =>
        rw [list] at rest
        have done : clearRequired m turns _ none none = some (moduleLoad g m) := rest
        rw [clearRequired] at done
        simpa [clearRequired,named,back] using done
      | cons next more =>
        rw [list] at rest
        simpa [clearRequired,named,back,found,list,following] using rest

theorem pushedNodes (pushed : Pushed g m g') {n : Addr} (none1 : g'.deps n = none) : g.deps n = none := by
  induction pushed with
  | load fresh => exact none1
  | edge pushed differ fresh1 fresh2 apart enforced ih =>
    rename_i new1 new2
    rcases enforceCases differ fresh1 fresh2 apart enforced with rfl | ⟨_,_,kept,_⟩
    · exact ih none1
    · by_cases first : n = new1
      · exact ih (first ▸ fresh1)
      · by_cases second : n = new2
        · exact ih (second ▸ fresh2)
        · exact ih ((kept n first second).symm.trans none1)

theorem pushedUnload (fresh : g.modules m = none) (pushed : Pushed g m g') : moduleUnload g' m = some (g,0) := by
  obtain ⟨_,e,found,free,cleared⟩ := pushedCleared pushed
  have back : ∀ a, Function.update (Function.update g.modules m (some ⟨[],[]⟩)) m none a = g.modules a := fun a => by
    by_cases here : a = m
    · simp [here,fresh]
    · simp [here]
  simp only [moduleUnload,found,bind,Option.bind,moduleUnloadable,free,List.isEmpty_nil,Bool.not_true,Bool.false_eq_true,
    if_false,cleared _ le_rfl,moduleLoad,State.setModule,List.erase_cons_head]
  rw [funext back]

theorem clearDepHead {side : Side} {owner : Addr} (ran : clearDep s side owner m = some s') :
    s'.modulesHead = s.modulesHead := by
  obtain ⟨_,_,ran⟩ := Option.bind_eq_some_iff.mp ran
  obtain ⟨at1,_,ran⟩ := Option.bind_eq_some_iff.mp ran
  cases at1 with
  | none => exact congrArg State.modulesHead (Option.some.inj ran).symm
  | some node =>
    have head := congrArg State.modulesHead (Option.some.inj ran)
    exact head.symm

theorem clearRequiredHead {turns : Nat} {crt tmp : Option Addr} (ran : clearRequired m turns s crt tmp = some s') :
    s'.modulesHead = s.modulesHead := by
  induction turns generalizing s crt tmp with
  | zero =>
    cases crt with
    | none => exact congrArg State.modulesHead (Option.some.inj ran).symm
    | some crt => exact absurd ran (by simp [clearRequired])
  | succ turns ih =>
    cases crt with
    | none => exact congrArg State.modulesHead (Option.some.inj ran).symm
    | some crt =>
      obtain ⟨_,_,ran⟩ := Option.bind_eq_some_iff.mp ran
      obtain ⟨mid,cleared,ran⟩ := Option.bind_eq_some_iff.mp ran
      obtain ⟨half,first,second⟩ := Option.bind_eq_some_iff.mp cleared
      have head : mid.modulesHead = s.modulesHead := (clearDepHead second).trans (clearDepHead first)
      cases tmp with
      | none => exact (congrArg State.modulesHead (Option.some.inj ran).symm).trans head
      | some next =>
        obtain ⟨_,_,ran⟩ := Option.bind_eq_some_iff.mp ran
        obtain ⟨_,_,ran⟩ := Option.bind_eq_some_iff.mp ran
        exact (ih ran).trans head

theorem moduleUnloadHead {rc : Int} (ran : moduleUnload s m = some (s',rc)) :
    (∃ e, s.modules m = some e ∧ e.dependants ≠ [] ∧ s' = s) ∨ rc = 0 ∧ s'.modulesHead = s.modulesHead.erase m := by
  obtain ⟨e,found,ran⟩ := Option.bind_eq_some_iff.mp ran
  split at ran
  · rename_i needed
    refine Or.inl ⟨e,found,fun none1 => ?_,(Prod.mk.inj (Option.some.inj ran)).1.symm⟩
    simp [moduleUnloadable,none1] at needed
  · obtain ⟨mid,cleared,ran⟩ := Option.bind_eq_some_iff.mp ran
    obtain ⟨rfl,rfl⟩ := Prod.mk.inj (Option.some.inj ran)
    exact Or.inr ⟨rfl,congrArg (fun list => List.erase list m) (clearRequiredHead cleared)⟩

theorem enforceHead (ran : enforceDependency s req dep new1 new2 = some s') : s'.modulesHead = s.modulesHead := by
  obtain ⟨_,_,ran⟩ := Option.bind_eq_some_iff.mp ran
  obtain ⟨at1,_,ran⟩ := Option.bind_eq_some_iff.mp ran
  cases at1 with
  | some node => exact congrArg State.modulesHead (Option.some.inj ran).symm
  | none =>
    obtain ⟨mid,first,second⟩ := Option.bind_eq_some_iff.mp ran
    obtain ⟨_,_,first⟩ := Option.bind_eq_some_iff.mp first
    obtain ⟨_,_,second⟩ := Option.bind_eq_some_iff.mp second
    have one := congrArg State.modulesHead (Option.some.inj first)
    have two := congrArg State.modulesHead (Option.some.inj second)
    exact two.symm.trans one.symm

end
end Syslinux.Module
