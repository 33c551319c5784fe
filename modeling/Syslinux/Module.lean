import Syslinux.Runs

/-! The dependency lists of loaded modules: enforce_dependency, clear_dependency and
_module_unload of com32/lib/sys/module/common.c. Every dependency is stored twice, as a
struct module_dep on the required list of one module and another one on the dependants
list of the other. A list holds the addresses of its nodes from the head on; reading a node
or a module that has been freed has no result. -/
namespace Syslinux.Module

abbrev Addr := Nat

/- The two list heads of struct elf_module. -/
inductive Side where
  | required
  | dependants
  deriving DecidableEq, Repr

structure ElfModule where
  required : List Addr
  dependants : List Addr
  deriving DecidableEq, Repr

def ElfModule.on (m : ElfModule) : Side → List Addr
  | .required => m.required
  | .dependants => m.dependants

def ElfModule.put (m : ElfModule) (nodes : List Addr) : Side → ElfModule
  | .required => { m with required := nodes }
  | .dependants => { m with dependants := nodes }

/- modules_head, the elf_module structures in the heap, and the module member of each
module_dep in the heap. -/
structure State where
  modulesHead : List Addr
  modules : Addr → Option ElfModule
  deps : Addr → Option Addr

def State.setModule (s : State) (a : Addr) (m : Option ElfModule) : State :=
  { s with modules := Function.update s.modules a m }

def State.setDep (s : State) (node : Addr) (d : Option Addr) : State :=
  { s with deps := Function.update s.deps node d }

/- list_for_each_entry up to the first node that names a module. -/
def findDep (s : State) (module : Addr) : List Addr → Option (Option Addr)
  | [] => some none
  | node::rest => do
      let named ← s.deps node
      if named = module then some (some node) else findDep s module rest

/- module_dep_alloc, with the address malloc returned, and list_add. -/
def addDep (s : State) (new : Addr) (module : Addr) (side : Side) (owner : Addr) : Option State := do
  let m ← s.modules owner
  some ((s.setDep new (some module)).setModule owner (m.put (new::m.on side) side))

def enforceDependency (s : State) (req dep : Addr) (new1 new2 : Addr) : Option State := do
  let r ← s.modules req
  match ← findDep s dep r.dependants with
  | some _ => some s
  | none =>
    let s ← addDep s new1 req .required dep
    addDep s new2 dep .dependants req

/- Each half of clear_dependency: the first node that names the module is unlinked and freed. -/
def clearDep (s : State) (side : Side) (owner module : Addr) : Option State := do
  let m ← s.modules owner
  match ← findDep s module (m.on side) with
  | some node => some ((s.setModule owner (m.put ((m.on side).erase node) side)).setDep node none)
  | none => some s

def clearDependency (s : State) (req dep : Addr) : Option State := do
  let s ← clearDep s .dependants req dep
  clearDep s .required dep req

def moduleUnloadable (m : ElfModule) : Bool := m.dependants.isEmpty

/- What follows a node on a list, where the inner `none` is the head again. -/
def following (node : Addr) : List Addr → Option (Option Addr)
  | [] => none
  | x::rest => if x = node then some rest.head? else following node rest

/- list_for_each_entry_safe: the next node is looked up before the body runs, and its own
successor after it. `turns` bounds the loop; running out of them has no result. -/
def clearRequired (module : Addr) : Nat → State → Option Addr → Option Addr → Option State
  | _,s,none,_ => some s
  | 0,_,some _,_ => none
  | turns+1,s,some crt,tmp => do
      let req ← s.deps crt
      let s ← clearDependency s req module
      match tmp with
      | none => some s
      | some next =>
        let m ← s.modules module
        let after ← following next m.required
        clearRequired module turns s (some next) after

def moduleUnload (s : State) (module : Addr) : Option (State × Int) := do
  let m ← s.modules module
  if !moduleUnloadable m then some (s,-1) else
  let s ← clearRequired module m.required.length s m.required.head? m.required.tail.head?
  some ({ s with modulesHead := s.modulesHead.erase module }.setModule module none,0)

/- module_alloc, with the address malloc returned, and list_add to modules_head. -/
def moduleLoad (s : State) (new : Addr) : State :=
  { s with modulesHead := new::s.modulesHead }.setModule new (some ⟨[],[]⟩)

inductive Call where
  | enforce (req dep new1 new2 : Addr)
  | clear (req dep : Addr)
  | unload (module : Addr)
  | load (new : Addr)
  deriving DecidableEq, Repr

def step (s : State) : Call → Option State
  | .enforce req dep new1 new2 => enforceDependency s req dep new1 new2
  | .clear req dep => clearDependency s req dep
  | .unload module => (moduleUnload s module).map (·.1)
  | .load new => some (moduleLoad s new)

/- What the callers and the allocator give: calls are about loaded modules, a module does
not depend on itself (perform_relocation checks it), and malloc returns memory not in use. -/
def Allowed (s : State) : Call → Prop
  | .enforce req dep new1 new2 => req ≠ dep ∧ req ∈ s.modulesHead ∧ dep ∈ s.modulesHead ∧
      s.deps new1 = none ∧ s.deps new2 = none ∧ new1 ≠ new2
  | .clear req dep => req ∈ s.modulesHead ∧ dep ∈ s.modulesHead
  | .unload module => module ∈ s.modulesHead
  | .load new => s.modules new = none

instance decidableAllowed (s : State) (c : Call) : Decidable (Allowed s c) := by
  cases c <;> unfold Allowed <;> infer_instance

end Syslinux.Module
