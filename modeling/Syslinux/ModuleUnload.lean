import Syslinux.ModuleGraph

/-! module_unload and its callers of com32/lib/sys/module/common.c and exec.c: the destructors
run first, and _module_unload may refuse. The runs of destructors are kept in a record that the
code does not have; what they do themselves is left out. -/
namespace Syslinux.Unload
open Syslinux.Module (Addr Good listOf)
open Runs

/- The modules with their names and the tables of their destructors. A module is known by the
number of its load; ran has the number of the module for every table that was run. -/
structure World where
  graph : Module.State
  name : Addr → String
  dtors : Addr → List Addr
  serial : Addr → Nat
  loads : Nat
  ran : List Nat

/- The for loop of module_unload. -/
def runDtors (w : World) (module : Addr) : World :=
  if w.dtors module = [] then w else { w with ran := w.ran ++ [w.serial module] }

def release (w : World) (module : Addr) : Option (World × Int) := do
  let (graph,rc) ← Module.moduleUnload w.graph module
  some ({ w with graph },rc)

def moduleUnload (w : World) (module : Addr) : Option (World × Int) := release (runDtors w module) module

/- The second loop of unload_modules_since; the result of the calls is not looked at. -/
def unloadUntil (begin1 : Addr) : List Addr → World → Option World
  | [],w => some w
  | mod::rest,w =>
    if mod = begin1 then some w
    else do
      let (w,_) ← moduleUnload w mod
      unloadUntil begin1 rest w

def unloadModulesSince (w : World) (name : String) : Option World :=
  match w.graph.modulesHead.find? (fun mod => w.name mod = name) with
  | none => some w
  | some begin1 => unloadUntil begin1 w.graph.modulesHead w

/- spawn_load before module_load: module_current may be of the same name. -/
def unloadCurrent (w : World) (name : String) : Option World := do
  let curModule ← w.graph.modulesHead.head?
  if w.name curModule = name then
    let (w,_) ← moduleUnload w curModule
    some w
  else some w

/- spawn_load once main has returned. -/
def unloadExited (w : World) (module : Addr) : Option World := do
  let (w,res) ← moduleUnload w module
  if res ≠ 0 then
    let (w,_) ← release w module
    some w
  else some w

/- module_load, where it succeeds, with the address of the descriptor. -/
def loaded (w : World) (new : Addr) (name : String) (dtors : List Addr) : World :=
  { w with
    graph := Module.moduleLoad w.graph new
    name := Function.update w.name new name
    dtors := Function.update w.dtors new dtors
    serial := Function.update w.serial new w.loads
    loads := w.loads + 1 }

inductive Event where
  | load (new : Addr) (name : String) (dtors : List Addr)
  | enforce (req dep new1 new2 : Addr)
  | clear (req dep : Addr)
  | release (module : Addr)
  | unload (module : Addr)
  | since (name : String)
  | spawn (name : String)
  | exited (module : Addr)

def step (w : World) : Event → Option World
  | .load new name dtors => some (loaded w new name dtors)
  | .enforce req dep new1 new2 => (Module.enforceDependency w.graph req dep new1 new2).map fun graph => { w with graph }
  | .clear req dep => (Module.clearDependency w.graph req dep).map fun graph => { w with graph }
  | .release module => (release w module).map Prod.fst
  | .unload module => (moduleUnload w module).map Prod.fst
  | .since name => unloadModulesSince w name
  | .spawn name => unloadCurrent w name
  | .exited module => unloadExited w module

def Allowed (w : World) : Event → Prop
  | .load new _ _ => Module.Allowed w.graph (.load new)
  | .enforce req dep new1 new2 => Module.Allowed w.graph (.enforce req dep new1 new2)
  | .clear req dep => Module.Allowed w.graph (.clear req dep)
  | .release module => module ∈ w.graph.modulesHead
  | .unload module => module ∈ w.graph.modulesHead
  | .since _ => True
  | .spawn _ => w.graph.modulesHead ≠ []
  | .exited module => module ∈ w.graph.modulesHead

instance decidableAllowed (w : World) (e : Event) : Decidable (Allowed w e) := by
  cases e <;> unfold Allowed <;> infer_instance

def QuietCall (w : World) (module : Addr) : Prop :=
  listOf w.graph .dependants module ≠ [] → w.dtors module = []

def QuietUntil (begin1 : Addr) : List Addr → World → Prop
  | [],_ => True
  | mod::rest,w => mod = begin1 ∨
      QuietCall w mod ∧ ∀ w' rc, moduleUnload w mod = some (w',rc) → QuietUntil begin1 rest w'

/- So it is for each call of module_unload that the event makes. -/
def Quiet (w : World) : Event → Prop
  | .unload module => QuietCall w module
  | .since name => ∀ begin1, w.graph.modulesHead.find? (fun mod => w.name mod = name) = some begin1 →
      QuietUntil begin1 w.graph.modulesHead w
  | .spawn name => ∀ curModule, w.graph.modulesHead.head? = some curModule → w.name curModule = name →
      QuietCall w curModule
  | .exited module => QuietCall w module
  | _ => True

structure Fresh (w : World) : Prop where
  graph : Module.Fresh w.graph
  apart : ∀ a ∈ w.graph.modulesHead, ∀ b ∈ w.graph.modulesHead, w.serial a = w.serial b → a = b
  counted : ∀ a ∈ w.graph.modulesHead, w.serial a < w.loads
  none1 : w.ran = []

structure Inv (w : World) : Prop where
  good : Good w.graph
  apart : ∀ a ∈ w.graph.modulesHead, ∀ b ∈ w.graph.modulesHead, w.serial a = w.serial b → a = b
  counted : ∀ a ∈ w.graph.modulesHead, w.serial a < w.loads
  past : ∀ n ∈ w.ran, n < w.loads
  once : w.ran.Nodup
  still : ∀ a ∈ w.graph.modulesHead, w.serial a ∉ w.ran

section
variable {w w' : World} {module : Addr} {rc : Int}

theorem unloadOutcome {s : Module.State} (good : Good s) (here : module ∈ s.modulesHead) :
    (listOf s .dependants module ≠ [] ∧ Module.moduleUnload s module = some (s,-1)) ∨
    (listOf s .dependants module = [] ∧ ∃ s', Module.moduleUnload s module = some (s',0) ∧ Good s' ∧
      s'.modulesHead = s.modulesHead.erase module) := by
  obtain ⟨e,found⟩ := good.stored.find here
  have listD : listOf s .dependants module = e.dependants := Module.listOfSome found .dependants
  by_cases free : e.dependants = []
  · right
    have listR : listOf s .required module = e.required := Module.listOfSome found .required
    obtain ⟨mid,ran,good1,head1,done⟩ := Module.clearRequiredSpec good here (listD.trans free) listR le_rfl
    refine ⟨listD.trans free,_,?_,Module.goodFreed good1 done,?_⟩
    · simp only [Module.moduleUnload,found,bind,Option.bind,Module.moduleUnloadable,free,List.isEmpty_nil,ran]
      rfl
    · simp [Module.State.setModule,head1]
  · left
    refine ⟨by rw [listD]; exact free,?_⟩
    simp [Module.moduleUnload,found,Module.moduleUnloadable,free]

theorem refusedGraph {s s' : Module.State} (refused : Module.moduleUnload s module = some (s',-1)) : s' = s := by
  obtain ⟨m,_,rest⟩ := Option.bind_eq_some_iff.mp refused
  split at rest
  · cases rest
    rfl
  · obtain ⟨s1,_,last⟩ := Option.bind_eq_some_iff.mp rest
    cases last

theorem refusedSame (refused : moduleUnload w module = some (w',-1)) : w' = w ↔ w.dtors module = [] := by
  obtain ⟨⟨graph,rc⟩,unloads,last⟩ := Option.bind_eq_some_iff.mp refused
  cases last
  rw [refusedGraph unloads]
  unfold runDtors
  by_cases none1 : w.dtors module = []
  · simp [none1]
  · rw [if_neg none1]
    refine iff_of_false (fun same => ?_) none1
    have longer := congrArg (fun w : World => w.ran.length) same
    simp at longer

theorem Inv.ofFresh (fresh : Fresh w) : Inv w := by
  refine ⟨fresh.graph.good,fresh.apart,fresh.counted,?_,?_,?_⟩ <;> simp [fresh.none1]

/- What becomes of a call: the other modules stay on the list, and so does one that is refused. -/
structure Called (w w' : World) (module : Addr) (rc : Int) : Prop where
  inv : Inv w'
  stays : rc ≠ 0 → module ∈ w'.graph.modulesHead
  others : ∀ a ∈ w.graph.modulesHead, a ≠ module → a ∈ w'.graph.modulesHead

theorem Inv.part (inv : Inv w) {graph : Module.State} (good : Good graph)
    (part : ∀ a ∈ graph.modulesHead, a ∈ w.graph.modulesHead) : Inv { w with graph } :=
  ⟨good,fun a inA b inB => inv.apart a (part a inA) b (part b inB),fun a inA => inv.counted a (part a inA),inv.past,
    inv.once,fun a inA => inv.still a (part a inA)⟩

theorem releaseCalled (inv : Inv w) (here : module ∈ w.graph.modulesHead) :
    ∃ w' rc, release w module = some (w',rc) ∧ Called w w' module rc := by
  rcases unloadOutcome inv.good here with ⟨_,refused⟩ | ⟨_,s',unloads,good,list⟩
  · exact ⟨w,-1,by simp [release,refused],inv,fun _ => here,fun a inside _ => inside⟩
  · refine ⟨{ w with graph := s' },0,by simp [release,unloads],inv.part good ?_,fun failed => absurd rfl failed,
      fun a inside other => ?_⟩
    · intro a inside
      rw [list] at inside
      exact List.mem_of_mem_erase inside
    · rw [list]
      exact (List.mem_erase_of_ne other).mpr inside

theorem unloadCalled (inv : Inv w) (here : module ∈ w.graph.modulesHead) (quiet : QuietCall w module) :
    ∃ w' rc, moduleUnload w module = some (w',rc) ∧ Called w w' module rc := by
  by_cases none1 : w.dtors module = []
  · rw [moduleUnload,runDtors,if_pos none1]
    exact releaseCalled inv here
  rcases unloadOutcome inv.good here with ⟨needed,_⟩ | ⟨_,s',unloads,good,list⟩
  · exact absurd (quiet needed) none1
  have headOnce := inv.good.stored.headOnce
  have left : ∀ a ∈ s'.modulesHead, a ∈ w.graph.modulesHead ∧ a ≠ module := by
    intro a inside
    rw [list] at inside
    exact ⟨List.mem_of_mem_erase inside,(headOnce.mem_erase_iff.mp inside).1⟩
  refine ⟨{ w with graph := s', ran := w.ran ++ [w.serial module] },0,?_,⟨good,?_,?_,?_,?_,?_⟩,
    fun failed => absurd rfl failed,?_⟩
  · simp [moduleUnload,runDtors,none1,release,unloads]
  · exact fun a inA b inB => inv.apart a (left a inA).1 b (left b inB).1
  · exact fun a inA => inv.counted a (left a inA).1
  · intro n inside
    rcases List.mem_append.mp inside with early | last
    · exact inv.past n early
    · rw [List.mem_singleton.mp last]
      exact inv.counted module here
  · refine List.nodup_append.mpr ⟨inv.once,List.nodup_singleton _,?_⟩
    rintro n early _ last rfl
    rw [List.mem_singleton.mp last] at early
    exact inv.still module here early
  · intro a inA ran
    obtain ⟨old,other⟩ := left a inA
    rcases List.mem_append.mp ran with early | last
    · exact inv.still a old early
    · exact other (inv.apart a old module here (List.mem_singleton.mp last))
  · intro a inside other
    rw [list]
    exact (List.mem_erase_of_ne other).mpr inside

theorem untilKeeps {begin1 : Addr} {mods : List Addr} (inv : Inv w) (here : ∀ a ∈ mods, a ∈ w.graph.modulesHead)
    (once : mods.Nodup) (quiet : QuietUntil begin1 mods w) :
    ∃ w', unloadUntil begin1 mods w = some w' ∧ Inv w' := by
  induction mods generalizing w with
  | nil => exact ⟨w,rfl,inv⟩
  | cons mod rest ih =>
    rw [unloadUntil]
    by_cases stops : mod = begin1
    · rw [if_pos stops]
      exact ⟨w,rfl,inv⟩
    rw [if_neg stops]
    obtain ⟨quiet1,onward⟩ := quiet.resolve_left stops
    obtain ⟨w1,rc,called,inv1,-,others⟩ := unloadCalled inv (here mod List.mem_cons_self) quiet1
    obtain ⟨fresh,rest1⟩ := List.nodup_cons.mp once
    obtain ⟨w',ran,inv'⟩ := ih inv1
      (fun a inside => others a (here a (List.mem_cons_of_mem _ inside)) (ne_of_mem_of_not_mem inside fresh)) rest1
      (onward w1 rc called)
    exact ⟨w',by simp [called,ran],inv'⟩

theorem loadKeeps {new : Addr} {name : String} {dtors : List Addr} (inv : Inv w)
    (allowed : Module.Allowed w.graph (.load new)) : Inv (loaded w new name dtors) := by
  have absent : new ∉ w.graph.modulesHead := fun mem => (inv.good.stored.loaded new).mp mem allowed
  have serial : ∀ a ∈ w.graph.modulesHead, (loaded w new name dtors).serial a = w.serial a := fun a inside => by
    simp [loaded,ne_of_mem_of_not_mem inside absent]
  have newest : (loaded w new name dtors).serial new = w.loads := by simp [loaded]
  refine ⟨Module.loadSpec inv.good allowed,?_,?_,?_,inv.once,?_⟩
  · intro a inA b inB same
    rcases List.mem_cons.mp inA with rfl | oldA <;> rcases List.mem_cons.mp inB with rfl | oldB
    · rfl
    · rw [newest,serial b oldB] at same
      have counted := inv.counted b oldB
      omega
    · rw [newest,serial a oldA] at same
      have counted := inv.counted a oldA
      omega
    · rw [serial a oldA,serial b oldB] at same
      exact inv.apart a oldA b oldB same
  · intro a inA
    rcases List.mem_cons.mp inA with rfl | oldA
    · rw [newest]
      exact Nat.lt_succ_self _
    · rw [serial a oldA]
      exact Nat.lt_succ_of_lt (inv.counted a oldA)
  · exact fun n inside => Nat.lt_succ_of_lt (inv.past n inside)
  · intro a inA ran
    rcases List.mem_cons.mp inA with rfl | oldA
    · rw [newest] at ran
      exact absurd (inv.past _ ran) (lt_irrefl _)
    · rw [serial a oldA] at ran
      exact inv.still a oldA ran

theorem stepKeeps {e : Event} (inv : Inv w) (allowed : Allowed w e) (quiet : Quiet w e) :
    ∃ w', step w e = some w' ∧ Inv w' := by
  cases e with
  | load new name dtors => exact ⟨_,rfl,loadKeeps inv allowed⟩
  | enforce req dep new1 new2 =>
    obtain ⟨graph,ran,good,head⟩ := Module.enforceSpec inv.good allowed
    exact ⟨_,by rw [step,ran]; rfl,inv.part good fun a inside => head ▸ inside⟩
  | clear req dep =>
    obtain ⟨graph,ran,good,head,-⟩ := Module.clearSpec inv.good allowed.1 allowed.2
    exact ⟨_,by rw [step,ran]; rfl,inv.part good fun a inside => head ▸ inside⟩
  | release module =>
    obtain ⟨w',rc,ran,called⟩ := releaseCalled inv allowed
    exact ⟨w',by rw [step,ran]; rfl,called.inv⟩
  | unload module =>
    obtain ⟨w',rc,ran,called⟩ := unloadCalled inv allowed quiet
    exact ⟨w',by rw [step,ran]; rfl,called.inv⟩
  | since name =>
    rw [step,unloadModulesSince]
    cases found : w.graph.modulesHead.find? fun mod => w.name mod = name with
    | none => exact ⟨w,rfl,inv⟩
    | some begin1 => exact untilKeeps inv (fun _ inside => inside) inv.good.stored.headOnce (quiet begin1 found)
  | spawn name =>
    obtain ⟨curModule,current⟩ := Option.ne_none_iff_exists'.mp (mt List.head?_eq_none_iff.mp allowed)
    rw [step,unloadCurrent,current]
    by_cases running : w.name curModule = name
    · obtain ⟨w',rc,ran,called⟩ := unloadCalled inv (List.mem_of_head? current) (quiet curModule current running)
      exact ⟨w',by simp [running,ran],called.inv⟩
    · exact ⟨w,by simp [running],inv⟩
  | exited module =>
    obtain ⟨w1,rc,ran,inv1,stays,-⟩ := unloadCalled inv allowed quiet
    rw [step,unloadExited,ran]
    by_cases fine : rc = 0
    · exact ⟨w1,by simp [fine],inv1⟩
    · obtain ⟨w2,rc2,ran2,called⟩ := releaseCalled inv1 (stays fine)
      exact ⟨w2,by simp [fine,ran2],called.inv⟩

/- In a run whose refused calls have no destructors to run, every table of destructors runs once
at most; a refused call in any state leaves it as it was exactly under that condition. -/
theorem unloadsOnce (w : World) (events : List Event) (fresh : Fresh w) (allowed : Along step Allowed w events) :
    (∀ s module s', moduleUnload s module = some (s',-1) → (s' = s ↔ s.dtors module = [])) ∧
    (Along step Quiet w events → ∃ w', run step w events = some w' ∧ w'.ran.Nodup) := by
  refine ⟨fun _ _ _ => refusedSame,fun quiet => ?_⟩
  have keeps : ∀ w e, Inv w → Allowed w e ∧ Quiet w e → ∃ w', step w e = some w' ∧ Inv w' :=
    fun w e inv both => stepKeeps inv both.1 both.2
  obtain ⟨w',ran,inv⟩ := runProgress keeps (.ofFresh fresh) (alongBoth allowed quiet)
  exact ⟨w',ran,inv.once⟩

end

/- Module 2 needs module 1, which has a destructor. -/
def twoModules : World where
  graph := ⟨[1,2],fun m => if m ∈ [1,2] then some ⟨[],[]⟩ else none,fun _ => none⟩
  name m := if m = 1 then "libcom32.c32" else "menu.c32"
  dtors m := if m = 1 then [0x7000] else []
  serial m := m
  loads := 3
  ran := []

theorem twoFresh : Fresh twoModules := by
  refine ⟨⟨?_,by decide,?_⟩,by decide,by decide,rfl⟩
  · intro m
    by_cases here : m ∈ [1,2] <;> simp_all [twoModules]
  · intro side m
    by_cases here : m ∈ [1,2] <;> cases side <;> simp_all [twoModules,listOf,Module.ElfModule.on]

def refusedTwice : List Event := [.enforce 1 2 10 11,.unload 1,.unload 1]

/- Both calls for module 1 are refused, and its destructor runs each time. -/
theorem refusedRuns : (¬ ∀ s module s', moduleUnload s module = some (s',-1) → s' = s) ∧
    ¬ ∀ w events w', Fresh w → Along step Allowed w events → run step w events = some w' → w'.ran.Nodup := by
  obtain ⟨w,entered⟩ : ∃ w, step twoModules (.enforce 1 2 10 11) = some w := ⟨_,rfl⟩
  constructor
  · intro all
    obtain ⟨w',refused,ran⟩ : ∃ w', ((step twoModules (.enforce 1 2 10 11)).bind fun w => moduleUnload w 1) =
        some (w',-1) ∧ w'.ran = [1] := ⟨_,rfl,rfl⟩
    rw [entered] at refused
    have same := all w 1 w' refused
    have none1 : w.ran = [] := by
      cases entered
      rfl
    rw [same,none1] at ran
    cases ran
  · intro all
    obtain ⟨w',ran,log⟩ : ∃ w', run step twoModules refusedTwice = some w' ∧ w'.ran = [1,1] := ⟨_,rfl,rfl⟩
    have once := all twoModules refusedTwice w' twoFresh (by decide) ran
    rw [log] at once
    exact absurd once (by decide)

/- Module 2 goes first; then module 1 can go, with its destructor. -/
def inOrder : List Event := [.enforce 1 2 10 11,.unload 2,.unload 1]

theorem unloadsOnceTwo : Along step Allowed twoModules inOrder ∧ Along step Quiet twoModules inOrder ∧
    (∀ s module s', moduleUnload s module = some (s',-1) → (s' = s ↔ s.dtors module = [])) ∧
    ∃ w', run step twoModules inOrder = some w' ∧ w'.ran.Nodup := by
  have allowed : Along step Allowed twoModules inOrder := by decide
  have quiet : Along step Quiet twoModules inOrder :=
    ⟨trivial,fun needed => absurd rfl needed,fun needed => absurd rfl needed,trivial⟩
  obtain ⟨calls,runs⟩ := unloadsOnce twoModules inOrder twoFresh allowed
  exact ⟨allowed,quiet,calls,runs quiet⟩

end Syslinux.Unload
