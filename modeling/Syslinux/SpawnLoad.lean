import Syslinux.ModuleRestore

/-! spawn_load of com32/lib/sys/module/exec.c with module_load of elf_module.c and the unloading of
common.c. Modules are numbered in the order of their allocation, and numbers are not used again.
What a file makes module_load do, and malloc's answers, are given with the file; what constructors,
destructors and programs do themselves is left out. Reading a structure that has been freed, or
freeing a block a second time, has no result. -/
namespace Syslinux.Spawn

/- The members name and module_addr of struct elf_module, the latter by whether it is set. -/
structure Info where
  name : String
  moduleAddr : Bool

/- The module list with its dependencies, the elf_module structures in the heap, the blocks of
segments, and the tables of constructors and destructors; next is the next number. -/
@[ext]
structure World where
  next : Nat
  graph : Module.State
  info : Nat → Option Info
  segments : Nat → Bool
  tables : List Nat

/- How the reading of a file up to prepare_dynlinking ends. A file without segments or dynamic
section is not refused: dyn_table stays a null pointer. -/
inductive Start where
  | noFile
  | refused (segments : Bool)
  | unset
  | read
  deriving DecidableEq

/- The table that extract_operations makes where the file has the symbols for it. -/
inductive Table where
  | absent
  | made
  | noMemory
  deriving DecidableEq

/- What a file makes of its loading: the memory for the structure, whether all symbols are defined
or weak, where on the list the modules lie that its relocations find, and whether it has a main. -/
structure Image where
  name : String
  allocated : Bool
  start : Start
  defined : Bool
  requires : List Nat
  ctors : Table
  dtors : Table
  main : Bool

inductive Load where
  | mk (image : Image) (needed : List Load)

def Load.image : Load → Image
  | .mk image _ => image

def eexist : Int := 17

/- module_find, and the first loop of unload_modules_since. -/
def findNamed (w : World) (name : String) : List Nat → Option (Option Nat)
  | [] => some none
  | mod::rest => do
    let i ← w.info mod
    if i.name = name then some (some mod) else findNamed w name rest

def elfFree (w : World) (m : Nat) (moduleAddr : Bool) : Option World :=
  if moduleAddr then
    if w.segments m then some { w with segments := Function.update w.segments m false } else none
  else some w

/- _module_unload up to list_del_init. The dependency lists of a module stay empty until it is put on
the module list. -/
def unlink (w : World) (m : Nat) : Option (Module.State × Int) := match w.graph.modules m with
  | none => some (w.graph,0)
  | some _ => Module.moduleUnload w.graph m

/- _module_unload -/
def release (w : World) (m : Nat) : Option (Int × World) := do
  let i ← w.info m
  let (graph,rc) ← unlink w m
  if rc ≠ 0 then some (rc,w)
  else do
    let w ← elfFree w m i.moduleAddr
    some (0,{ w with graph, info := Function.update w.info m none })

/- The second loop of unload_modules_since, over module_unload. -/
def unloadUntil (begin1 : Nat) : List Nat → World → Option World
  | [],w => some w
  | mod::rest,w =>
    if mod = begin1 then some w
    else do
      let (_,w) ← release w mod
      unloadUntil begin1 rest w

def unloadModulesSince (w : World) (name : String) : Option World := do
  match ← findNamed w name w.graph.modulesHead with
  | none => some w
  | some begin1 => unloadUntil begin1 w.graph.modulesHead w

/- module_alloc, for the next number. -/
def moduleAlloc (w : World) (name : String) : World :=
  { w with next := w.next + 1, info := Function.update w.info w.next (some ⟨name,false⟩) }

/- load_segments has set module_addr. -/
def setSegments (w : World) (m : Nat) (name : String) : World :=
  { w with info := Function.update w.info m (some ⟨name,true⟩), segments := Function.update w.segments m true }

/- What perform_relocation leaves in the lists. -/
def enforceAll (m : Nat) : List Nat → World → Option World
  | [],w => some w
  | k::rest,w =>
    match w.graph.modulesHead[k]? with
    | none => enforceAll m rest w
    | some req =>
      if req = m then enforceAll m rest w
      else do
        let graph ← Module.enforceDependency w.graph req m w.next (w.next + 1)
        enforceAll m rest { w with graph, next := w.next + 2 }

def makeTable (w : World) (table : Table) : World :=
  if table = .made then { w with next := w.next + 1, tables := w.next::w.tables } else w

/- extract_operations; without memory for the second table the first is freed. -/
def extractOperations (image : Image) (w : World) : Bool × World :=
  if image.ctors = .noMemory ∨ image.dtors = .noMemory then (false,w)
  else (true,makeTable (makeTable w image.ctors) image.dtors)

/- The end of module_load behind unload_modules_since. -/
def clearLoad (w : World) (m : Nat) (res : Int) : Option (Int × World) := do
  let i ← w.info m
  let w ← elfFree w m i.moduleAddr
  some (res,{ w with
    graph := { w.graph with modulesHead := w.graph.modulesHead.erase m }
    info := Function.update w.info m (some { i with moduleAddr := false }) })

/- The label error; head is what module_current gave before the dependencies, if the load came so far. -/
def failed (w : World) (m : Nat) (head : Option Nat) (res : Int) : Option (Int × World) :=
  match head with
  | none => clearLoad w m res
  | some head => do
    let i ← w.info head
    let w ← unloadModulesSince w i.name
    clearLoad w m res

/- module_load from the dependencies on. -/
def loadRead (image : Image) (needed : World → Option (Int × World)) (m : Nat) (w : World) : Option (Int × World) := do
  let head ← w.graph.modulesHead.head?
  let (res,w) ← needed w
  if res < 0 then failed w m (some head) res
  else if image.defined = false then failed w m (some head) (-1)
  else do
    let w ← enforceAll m image.requires { w with graph := Module.moduleLoad w.graph m }
    match extractOperations image w with
    | (false,w) => failed w m (some head) (-1)
    | (true,w) => some (0,w)

def moduleLoad (image : Image) (needed : World → Option (Int × World)) (m : Nat) (w : World) : Option (Int × World) := do
  match ← findNamed w image.name w.graph.modulesHead with
  | some _ => some (eexist,w)
  | none =>
    match image.start with
    | .noFile => some (-1,w)
    | .refused segments => failed (if segments then setSegments w m image.name else w) m none (-1)
    | .unset => none
    | .read => loadRead image needed m (setSegments w m image.name)

/- spawn_load before module_load: the newest module may have the same name. -/
def unloadNamesake (w : World) (name : String) : Option World := do
  let cur ← w.graph.modulesHead.head?
  let i ← w.info cur
  if i.name = name then (release w cur).map Prod.snd else some w

/- spawn_load behind module_load. -/
def finish (image : Image) (m : Nat) : Int × World → Option (Int × World)
  | (res,w) =>
    if res ≠ 0 then (release w m).map fun (_,w) => (res,w)
    else if image.main then do
      let (res,w) ← release w m
      if res ≠ 0 then (release w m).map fun (_,w) => (res,w) else some (0,w)
    else some (0,w)

mutual

def spawnLoad : Load → World → Option (Int × World)
  | .mk image needed,w =>
    if image.allocated = false then some (-1,w)
    else do
      let w1 ← unloadNamesake (moduleAlloc w image.name) image.name
      let r ← moduleLoad image (loadNeeded needed) w.next w1
      finish image w.next r

def loadNeeded : List Load → World → Option (Int × World)
  | [],w => some (0,w)
  | l::rest,w => do
    let (res,w) ← spawnLoad l w
    if res < 0 then some (res,w) else loadNeeded rest w

end

end Syslinux.Spawn
