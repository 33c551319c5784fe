import Syslinux.Module

/-! Along every run of the calls the two copies of the dependency graph agree, every module
they name is loaded, and a module with dependants stays. -/
namespace Syslinux.Module
open Runs

def listOf (s : State) (side : Side) (m : Addr) : List Addr := match s.modules m with
  | some e => e.on side
  | none => []

def names (s : State) (side : Side) (m : Addr) : List Addr := (listOf s side m).filterMap s.deps

structure Consistent (s : State) : Prop where
  twoSided : ∀ a b, b ∈ names s .dependants a ↔ a ∈ names s .required b
  once : ∀ side m, (names s side m).Nodup
  named : ∀ side m n, n ∈ names s side m → n ∈ s.modulesHead ∧ s.modules n ≠ none
  nodes : ∀ side m node, node ∈ listOf s side m → s.deps node ≠ none

structure Stored (s : State) : Prop where
  loaded : ∀ m, m ∈ s.modulesHead ↔ s.modules m ≠ none
  headOnce : s.modulesHead.Nodup
  live : ∀ side m node, node ∈ listOf s side m → s.deps node ≠ none
  apart : ∀ side m side' m' node, node ∈ listOf s side m → node ∈ listOf s side' m' → side = side' ∧ m = m'
  once : ∀ side m, (listOf s side m).Nodup

structure Graph (s : State) : Prop where
  twoSided : ∀ a b, b ∈ names s .dependants a ↔ a ∈ names s .required b
  once : ∀ side m, (names s side m).Nodup
  loaded : ∀ side m n, n ∈ names s side m → n ∈ s.modulesHead

variable {s s' : State} {side σ : Side} {owner module m req dep new new1 new2 node : Addr} {e : ElfModule}

@[simp] theorem onPut (m : ElfModule) (nodes : List Addr) (side σ : Side) :
    (m.put nodes side).on σ = if σ = side then nodes else m.on σ := by
  cases side <;> cases σ <;> rfl

theorem Stored.find (stored : Stored s) (here : m ∈ s.modulesHead) : ∃ e, s.modules m = some e :=
  Option.ne_none_iff_exists'.mp ((stored.loaded m).mp here)

theorem listOfSome (found : s.modules m = some e) (side : Side) : listOf s side m = e.on side := by
  rw [listOf,found]

theorem listOfSet (found : s.modules owner = some e) (side : Side) (nodes : List Addr) (d : Addr → Option Addr)
    (σ : Side) (m : Addr) :
    listOf { s with deps := d, modules := Function.update s.modules owner (some (e.put nodes side)) } σ m =
      if σ = side ∧ m = owner then nodes else listOf s σ m := by
  unfold listOf
  by_cases at1 : m = owner
  · subst m
    simp [found]
  · simp [at1]

theorem loadedSet (found : s.modules owner = some e) (nodes : List Addr) (m : Addr) :
    Function.update s.modules owner (some (e.put nodes side)) m ≠ none ↔ s.modules m ≠ none := by
  by_cases at1 : m = owner
  · subst m
    simp [found]
  · simp [at1]

/- What changing one list does, for a caller: that list's names and nothing else. -/
structure Changed (s s' : State) (side : Side) (owner : Addr) (list named : List Addr) : Prop where
  stored : Stored s'
  head : s'.modulesHead = s.modulesHead
  list : listOf s' side owner = list
  names : names s' side owner = named
  otherLists : ∀ σ m, ¬(σ = side ∧ m = owner) → listOf s' σ m = listOf s σ m
  otherNames : ∀ σ m, ¬(σ = side ∧ m = owner) → Module.names s' σ m = Module.names s σ m
  otherDeps : ∀ σ m, ¬(σ = side ∧ m = owner) → ∀ node ∈ listOf s σ m, s'.deps node = s.deps node

theorem relist (stored : Stored s) (found : s.modules owner = some e) (side : Side) {nodes : List Addr}
    (d : Addr → Option Addr)
    (once : nodes.Nodup) (live : ∀ node ∈ nodes, d node ≠ none)
    (from1 : ∀ node ∈ nodes, ∀ σ m, ¬(σ = side ∧ m = owner) → node ∉ listOf s σ m)
    (others : ∀ σ m, ¬(σ = side ∧ m = owner) → ∀ node ∈ listOf s σ m, d node = s.deps node) :
    Changed s { s with deps := d, modules := Function.update s.modules owner (some (e.put nodes side)) }
      side owner nodes (nodes.filterMap d) := by
  have lists := listOfSet found side nodes d
  refine ⟨⟨?_,stored.headOnce,?_,?_,?_⟩,rfl,?_,?_,?_,?_,others⟩
  · intro m
    exact (stored.loaded m).trans (loadedSet found nodes m).symm
  · intro σ m node mem
    rw [lists] at mem
    split at mem
    · exact live node mem
    · rename_i other
      show d node ≠ none
      rw [others σ m other node mem]
      exact stored.live σ m node mem
  · intro σ m σ' m' node mem mem'
    rw [lists] at mem mem'
    split at mem <;> split at mem' <;> rename_i at1 at2
    · exact ⟨at1.1.trans at2.1.symm,at1.2.trans at2.2.symm⟩
    · exact absurd mem' (from1 node mem σ' m' at2)
    · exact absurd mem (from1 node mem' σ m at1)
    · exact stored.apart σ m σ' m' node mem mem'
  · intro σ m
    rw [lists]
    split
    · exact once
    · exact stored.once σ m
  · rw [lists,if_pos ⟨rfl,rfl⟩]
  · rw [names,lists,if_pos ⟨rfl,rfl⟩]
  · intro σ m other
    rw [lists,if_neg other]
  · intro σ m other
    rw [names,lists,if_neg other]
    exact List.filterMap_congr (others σ m other)

theorem addDepSpec (stored : Stored s) (here : owner ∈ s.modulesHead) (fresh : s.deps new = none)
    (module : Addr) (side : Side) :
    ∃ s', addDep s new module side owner = some s' ∧
      Changed s s' side owner (new::listOf s side owner) (module::names s side owner) ∧
      s'.deps = Function.update s.deps new (some module) := by
  obtain ⟨e,found⟩ := stored.find here
  have notOn : ∀ σ m, new ∉ listOf s σ m := fun σ m mem => stored.live σ m new mem fresh
  have others : ∀ σ m, ∀ node ∈ listOf s σ m, Function.update s.deps new (some module) node = s.deps node := by
    intro σ m node mem
    have : node ≠ new := fun same => notOn σ m (same ▸ mem)
    simp [this]
  have once : (new::e.on side).Nodup := by
    rw [← listOfSome found side]
    exact List.nodup_cons.mpr ⟨notOn side owner,stored.once side owner⟩
  have live : ∀ node ∈ new::e.on side, Function.update s.deps new (some module) node ≠ none := by
    intro node mem
    rcases List.mem_cons.mp mem with rfl | mem
    · simp
    · rw [← listOfSome found side] at mem
      rw [others side owner node mem]
      exact stored.live side owner node mem
  have from1 : ∀ node ∈ new::e.on side, ∀ σ m, ¬(σ = side ∧ m = owner) → node ∉ listOf s σ m := by
    intro node mem σ m other on
    rcases List.mem_cons.mp mem with rfl | mem
    · exact notOn σ m on
    · rw [← listOfSome found side] at mem
      exact other (stored.apart σ m side owner node on mem)
  have named : (new::e.on side).filterMap (Function.update s.deps new (some module)) = module::names s side owner := by
    rw [List.filterMap_cons,names,← listOfSome found side,List.filterMap_congr (others side owner)]
    simp
  have changed := relist stored found side _ once live from1 (fun σ m _ => others σ m)
  rw [named,← listOfSome found side] at changed
  exact ⟨_,by simp [addDep,found,State.setDep,State.setModule,listOfSome found],changed,rfl⟩

theorem findDepSpec {nodes : List Addr} (live : ∀ node ∈ nodes, s.deps node ≠ none) (module : Addr) :
    (findDep s module nodes = some none ∧ module ∉ nodes.filterMap s.deps) ∨
    ∃ low node high, findDep s module nodes = some (some node) ∧ nodes = low ++ node::high ∧
      s.deps node = some module ∧ module ∉ low.filterMap s.deps := by
  induction nodes with
  | nil => exact Or.inl ⟨rfl,by simp⟩
  | cons node rest ih =>
    obtain ⟨named,found⟩ := Option.ne_none_iff_exists'.mp (live node (by simp))
    by_cases same : named = module
    · subst same
      exact Or.inr ⟨[],node,rest,by simp [findDep,found],rfl,found,by simp⟩
    rcases ih (fun node mem => live node (List.mem_cons_of_mem _ mem)) with ⟨passed,absent⟩ | found2
    · refine Or.inl ⟨by simp [findDep,found,same,passed],?_⟩
      simp [found,absent,Ne.symm same]
    · obtain ⟨low,node',high,stopped,rfl,here,before⟩ := found2
      refine Or.inr ⟨node::low,node',high,by simp [findDep,found,same,stopped],rfl,here,?_⟩
      simp [found,before,Ne.symm same]

theorem clearDepSpec (stored : Stored s) (here : owner ∈ s.modulesHead) (side : Side) (module : Addr) :
    ∃ s' list, clearDep s side owner module = some s' ∧
      Changed s s' side owner list ((names s side owner).erase module) ∧
      ∀ node rest, listOf s side owner = node::rest → s.deps node = some module → list = rest := by
  obtain ⟨e,found⟩ := stored.find here
  have on := listOfSome found side
  have live := stored.live side owner
  rw [on] at live
  rcases findDepSpec live module with ⟨passed,absent⟩ | ⟨low,node,high,stopped,split,named,before⟩
  · refine ⟨s,listOf s side owner,by simp [clearDep,found,passed],?_,?_⟩
    · refine ⟨stored,rfl,rfl,?_,fun _ _ _ => rfl,fun _ _ _ => rfl,fun _ _ _ _ _ => rfl⟩
      rw [List.erase_of_not_mem]
      rw [names,on]
      exact absent
    · intro node rest eq same
      rw [← on,eq] at absent
      simp [same] at absent
  have nodup := stored.once side owner
  rw [on,split] at nodup
  obtain ⟨lowOnce,highOnce,apart⟩ := List.nodup_append.mp nodup
  have notLow : node ∉ low := fun mem => apart node mem node (by simp) rfl
  have notHigh : node ∉ high := (List.nodup_cons.mp highOnce).1
  have erased : (e.on side).erase node = low ++ high := by
    rw [split,List.erase_append_right _ notLow,List.erase_cons_head]
  have kept : ∀ n ∈ low ++ high, n ∈ e.on side ∧ n ≠ node := by
    intro n mem
    refine ⟨by rw [split]; simp only [List.mem_append,List.mem_cons] at mem ⊢; tauto,?_⟩
    rintro rfl
    exact (List.mem_append.mp mem).elim notLow notHigh
  have dropped : ∀ n, n ≠ node → Function.update s.deps node none n = s.deps n := fun n other => by simp [other]
  have fewer : (low ++ high).filterMap (Function.update s.deps node none) = (names s side owner).erase module := by
    rw [List.filterMap_congr (fun n mem => dropped n (kept n mem).2),names,on,split,List.filterMap_append,
      List.filterMap_append,List.filterMap_cons,named]
    simp only
    rw [List.erase_append_right _ before,List.erase_cons_head]
  have changed := relist stored found side (Function.update s.deps node none)
    (nodup.sublist (List.Sublist.append_left (List.sublist_cons_self _ _) _))
    (fun n mem => by rw [dropped n (kept n mem).2]; exact live n (kept n mem).1)
    (fun n mem σ m other at1 => other (stored.apart σ m side owner n at1 (by rw [on]; exact (kept n mem).1)))
    (fun σ m other n mem => dropped n (by
      rintro rfl
      exact other (stored.apart σ m side owner n mem (by rw [on,split]; simp))))
  rw [fewer] at changed
  refine ⟨_,low ++ high,by simp [clearDep,found,stopped,erased,State.setDep,State.setModule],changed,?_⟩
  intro first rest eq same
  rw [on,split] at eq
  cases low with
  | nil => exact (List.cons.inj eq).2
  | cons a low =>
    obtain ⟨rfl,_⟩ := List.cons.inj eq
    simp [same] at before

structure Good (s : State) : Prop where
  stored : Stored s
  graph : Graph s

theorem graphGain {mid : State} (graph : Graph s) (differ : req ≠ dep) (reqHere : req ∈ s.modulesHead)
    (depHere : dep ∈ s.modulesHead) (absent : dep ∉ names s .dependants req) {list1 list2 : List Addr}
    (first : Changed s mid .required dep list1 (req::names s .required dep))
    (second : Changed mid s' .dependants req list2 (dep::names mid .dependants req)) : Graph s' := by
  have dependants : ∀ m, names s' .dependants m = if m = req then dep::names s .dependants req else names s .dependants m := by
    intro m
    split
    · subst m
      rw [second.names,first.otherNames _ _ (by simp)]
    · rename_i other
      rw [second.otherNames _ _ (by simp [other]),first.otherNames _ _ (by simp)]
  have required : ∀ m, names s' .required m = if m = dep then req::names s .required dep else names s .required m := by
    intro m
    rw [second.otherNames _ _ (by simp)]
    split
    · subst m
      exact first.names
    · rename_i other
      exact first.otherNames _ _ (by simp [other])
  have absent2 : req ∉ names s .required dep := fun mem => absent ((graph.twoSided req dep).mpr mem)
  refine ⟨?_,?_,?_⟩
  · intro a b
    rw [dependants,required]
    have old := graph.twoSided a b
    by_cases atReq : a = req <;> by_cases atDep : b = dep <;> simp_all
  · intro side m
    cases side with
    | dependants =>
      rw [dependants]
      split
      · exact List.nodup_cons.mpr ⟨absent,graph.once _ _⟩
      · exact graph.once _ _
    | required =>
      rw [required]
      split
      · exact List.nodup_cons.mpr ⟨absent2,graph.once _ _⟩
      · exact graph.once _ _
  · intro side m n mem
    rw [second.head,first.head]
    cases side with
    | dependants =>
      rw [dependants] at mem
      split at mem
      · rcases List.mem_cons.mp mem with rfl | mem
        · exact depHere
        · exact graph.loaded _ _ n mem
      · exact graph.loaded _ _ n mem
    | required =>
      rw [required] at mem
      split at mem
      · rcases List.mem_cons.mp mem with rfl | mem
        · exact reqHere
        · exact graph.loaded _ _ n mem
      · exact graph.loaded _ _ n mem

theorem enforceSpec (good : Good s) (allowed : Allowed s (.enforce req dep new1 new2)) :
    ∃ s', enforceDependency s req dep new1 new2 = some s' ∧ Good s' ∧ s'.modulesHead = s.modulesHead := by
  obtain ⟨differ,reqHere,depHere,fresh1,fresh2,freshApart⟩ := allowed
  obtain ⟨e,found⟩ := good.stored.find reqHere
  have live := good.stored.live .dependants req
  rw [listOfSome found] at live
  rcases findDepSpec live dep with ⟨passed,absent⟩ | ⟨_,_,_,stopped,_⟩
  · obtain ⟨mid,add1,first,deps1⟩ := addDepSpec good.stored depHere fresh1 req .required
    have fresh2' : mid.deps new2 = none := by simp [deps1,Ne.symm freshApart,fresh2]
    obtain ⟨s',add2,second,_⟩ := addDepSpec first.stored (by rw [first.head]; exact reqHere) fresh2' dep .dependants
    have absent' : dep ∉ names s .dependants req := by
      rw [names,listOfSome found]
      exact absent
    refine ⟨s',?_,⟨second.stored,graphGain good.graph differ reqHere depHere absent' first second⟩,
      second.head.trans first.head⟩
    simp only [ElfModule.on] at passed
    simp [enforceDependency,found,passed,add1,add2]
  · simp only [ElfModule.on] at stopped
    exact ⟨s,by simp [enforceDependency,found,stopped],good,rfl⟩

theorem graphLose {mid : State} (graph : Graph s) {list1 list2 : List Addr}
    (first : Changed s mid .dependants req list1 ((names s .dependants req).erase dep))
    (second : Changed mid s' .required dep list2 ((names mid .required dep).erase req)) : Graph s' := by
  have dependants : ∀ m, names s' .dependants m = if m = req then (names s .dependants req).erase dep
      else names s .dependants m := by
    intro m
    rw [second.otherNames _ _ (by simp)]
    split
    · subst m
      exact first.names
    · rename_i other
      exact first.otherNames _ _ (by simp [other])
  have required : ∀ m, names s' .required m = if m = dep then (names s .required dep).erase req
      else names s .required m := by
    intro m
    split
    · subst m
      rw [second.names,first.otherNames _ _ (by simp)]
    · rename_i other
      rw [second.otherNames _ _ (by simp [other]),first.otherNames _ _ (by simp)]
  refine ⟨?_,?_,?_⟩
  · intro a b
    rw [dependants,required]
    have old := graph.twoSided a b
    by_cases atReq : a = req <;> by_cases atDep : b = dep <;> simp_all [(graph.once _ _).mem_erase_iff]
  · intro side m
    cases side with
    | dependants =>
      rw [dependants]
      split
      · exact (graph.once _ _).erase _
      · exact graph.once _ _
    | required =>
      rw [required]
      split
      · exact (graph.once _ _).erase _
      · exact graph.once _ _
  · intro side m n mem
    rw [second.head,first.head]
    cases side with
    | dependants =>
      rw [dependants] at mem
      split at mem
      · exact graph.loaded _ _ n (List.mem_of_mem_erase mem)
      · exact graph.loaded _ _ n mem
    | required =>
      rw [required] at mem
      split at mem
      · exact graph.loaded _ _ n (List.mem_of_mem_erase mem)
      · exact graph.loaded _ _ n mem

theorem clearSpec (good : Good s) (reqHere : req ∈ s.modulesHead) (depHere : dep ∈ s.modulesHead) :
    ∃ s', clearDependency s req dep = some s' ∧ Good s' ∧ s'.modulesHead = s.modulesHead ∧
      (∀ m, m ≠ req → listOf s' .dependants m = listOf s .dependants m) ∧
      ∀ node rest, listOf s .required dep = node::rest → s.deps node = some req → listOf s' .required dep = rest := by
  obtain ⟨mid,list1,clear1,first,_⟩ := clearDepSpec good.stored reqHere .dependants dep
  obtain ⟨s',list2,clear2,second,cut⟩ := clearDepSpec first.stored (by rw [first.head]; exact depHere) .required req
  refine ⟨s',by simp [clearDependency,clear1,clear2],⟨second.stored,graphLose good.graph first second⟩,
    second.head.trans first.head,?_,?_⟩
  · intro m other
    rw [second.otherLists _ _ (by simp),first.otherLists _ _ (by simp [other])]
  · intro node rest eq named
    rw [second.list]
    have eq' : listOf mid .required dep = node::rest := by rw [first.otherLists _ _ (by simp),eq]
    refine cut node rest eq' ?_
    rw [first.otherDeps .required dep (by simp) node (by rw [eq]; simp)]
    exact named

/- Each turn finds the first node of the list as its own first node with the name, so the
node looked up beforehand stays and is the first one next. -/
theorem clearRequiredSpec {nodes : List Addr} {turns : Nat} (good : Good s) (here : module ∈ s.modulesHead)
    (free : listOf s .dependants module = []) (list : listOf s .required module = nodes)
    (enough : nodes.length ≤ turns) :
    ∃ s', clearRequired module turns s nodes.head? nodes.tail.head? = some s' ∧ Good s' ∧
      s'.modulesHead = s.modulesHead ∧ ∀ side, listOf s' side module = [] := by
  induction nodes generalizing s turns with
  | nil =>
    refine ⟨s,by simp [clearRequired],good,rfl,?_⟩
    intro side
    cases side
    · exact list
    · exact free
  | cons crt rest ih =>
    obtain ⟨turns,rfl⟩ : ∃ t, turns = t+1 := ⟨turns-1,by rw [List.length_cons] at enough; omega⟩
    rw [List.length_cons] at enough
    obtain ⟨req,named⟩ := Option.ne_none_iff_exists'.mp (good.stored.live .required module crt (by rw [list]; simp))
    have reqNamed : req ∈ names s .required module := by
      rw [names,list,List.filterMap_cons,named]
      simp
    have differ : module ≠ req := by
      rintro rfl
      have := (good.graph.twoSided module module).mpr reqNamed
      simp [names,free] at this
    obtain ⟨mid,cleared,good1,head1,free1,list1⟩ := clearSpec good (good.graph.loaded _ _ _ reqNamed) here
    have listMid := list1 crt rest list named
    have freeMid := (free1 module differ).trans free
    have hereMid : module ∈ mid.modulesHead := by rw [head1]; exact here
    obtain ⟨s',ran,good2,head2,done⟩ := ih good1 hereMid freeMid listMid (by omega : rest.length ≤ turns)
    refine ⟨s',?_,good2,head2.trans head1,done⟩
    cases rest with
    | nil =>
      simp only [List.head?_nil,clearRequired] at ran
      simpa [clearRequired,named,cleared] using ran
    | cons next rest =>
      obtain ⟨e,found⟩ := good1.stored.find hereMid
      rw [listOfSome found,ElfModule.on] at listMid
      simpa [clearRequired,named,cleared,found,listMid,following] using ran

theorem goodSame (good : Good s) (deps : s'.deps = s.deps) (lists : ∀ side m, listOf s' side m = listOf s side m)
    (loaded : ∀ m, m ∈ s'.modulesHead ↔ s'.modules m ≠ none) (headOnce : s'.modulesHead.Nodup)
    (stays : ∀ side m n, n ∈ names s side m → n ∈ s'.modulesHead) : Good s' := by
  have named : ∀ side m, names s' side m = names s side m := fun side m => by rw [names,names,lists,deps]
  refine ⟨⟨loaded,headOnce,?_,?_,?_⟩,⟨?_,?_,?_⟩⟩
  · intro side m node mem
    rw [lists] at mem
    rw [deps]
    exact good.stored.live side m node mem
  · intro side m side' m' node mem mem'
    rw [lists] at mem mem'
    exact good.stored.apart side m side' m' node mem mem'
  · intro side m
    rw [lists]
    exact good.stored.once side m
  · intro a b
    rw [named,named]
    exact good.graph.twoSided a b
  · intro side m
    rw [named]
    exact good.graph.once side m
  · intro side m n mem
    rw [named] at mem
    exact stays side m n mem

theorem goodFreed (good : Good s) (done : ∀ side, listOf s side module = []) :
    Good ({ s with modulesHead := s.modulesHead.erase module }.setModule module none) := by
  have gone : ∀ side m, module ∉ names s side m := by
    intro side m mem
    have back : m ∈ names s .required module ∨ m ∈ names s .dependants module := by
      cases side with
      | required => exact Or.inr ((good.graph.twoSided module m).mpr mem)
      | dependants => exact Or.inl ((good.graph.twoSided m module).mp mem)
    simp [names,done] at back
  have headOnce := good.stored.headOnce
  refine goodSame good rfl ?_ ?_ (headOnce.erase _) ?_
  · intro side m
    by_cases same : m = module
    · subst m
      rw [done]
      simp [listOf,State.setModule]
    · simp [listOf,State.setModule,same]
  · intro m
    by_cases same : m = module
    · subst m
      simp [State.setModule,headOnce.mem_erase_iff]
    · simp [State.setModule,headOnce.mem_erase_iff,same,good.stored.loaded]
  · intro side m n mem
    refine headOnce.mem_erase_iff.mpr ⟨?_,good.graph.loaded side m n mem⟩
    rintro rfl
    exact gone side m mem

theorem unloadSpec (good : Good s) (here : module ∈ s.modulesHead) :
    ∃ s' r, moduleUnload s module = some (s',r) ∧ Good s' ∧
      ∀ m ∈ s.modulesHead, m ∈ s'.modulesHead ∨ listOf s .dependants m = [] := by
  obtain ⟨e,found⟩ := good.stored.find here
  by_cases free : e.dependants = []
  case neg =>
    refine ⟨s,-1,?_,good,fun m mem => Or.inl mem⟩
    simp [moduleUnload,found,moduleUnloadable,free]
  have listD : listOf s .dependants module = [] := by rw [listOfSome found]; exact free
  have listR : listOf s .required module = e.required := by rw [listOfSome found]; rfl
  obtain ⟨mid,ran,good1,head1,done⟩ := clearRequiredSpec good here listD listR le_rfl
  refine ⟨{ mid with modulesHead := mid.modulesHead.erase module }.setModule module none,0,?_,goodFreed good1 done,?_⟩
  · simp only [moduleUnload,found,bind,Option.bind,moduleUnloadable,free,List.isEmpty_nil,ran]
    rfl
  · intro m mem
    by_cases same : m = module
    · exact Or.inr (same ▸ listD)
    · refine Or.inl ?_
      simp only [State.setModule]
      rw [head1]
      exact (List.mem_erase_of_ne same).mpr mem

theorem loadSpec (good : Good s) (fresh : s.modules new = none) : Good (moduleLoad s new) := by
  have absent : new ∉ s.modulesHead := fun mem => (good.stored.loaded new).mp mem fresh
  refine goodSame good rfl ?_ ?_ (List.nodup_cons.mpr ⟨absent,good.stored.headOnce⟩) ?_
  · intro side m
    by_cases same : m = new
    · subst m
      cases side <;> simp [listOf,moduleLoad,State.setModule,fresh,ElfModule.on]
    · simp [listOf,moduleLoad,State.setModule,same]
  · intro m
    by_cases same : m = new
    · subst m
      simp [moduleLoad,State.setModule]
    · simp [moduleLoad,State.setModule,same,good.stored.loaded]
  · intro side m n mem
    exact List.mem_cons_of_mem new (good.graph.loaded side m n mem)

theorem stepKeeps {c : Call} (good : Good s) (allowed : Allowed s c) :
    ∃ s', step s c = some s' ∧ Good s' ∧ ∀ m ∈ s.modulesHead, m ∈ s'.modulesHead ∨ listOf s .dependants m = [] := by
  cases c with
  | enforce req dep new1 new2 =>
    obtain ⟨s',ran,good1,head⟩ := enforceSpec good allowed
    exact ⟨s',ran,good1,fun m mem => Or.inl (head ▸ mem)⟩
  | clear req dep =>
    obtain ⟨s',ran,good1,head,_⟩ := clearSpec good allowed.1 allowed.2
    exact ⟨s',ran,good1,fun m mem => Or.inl (head ▸ mem)⟩
  | unload module =>
    obtain ⟨s',r,ran,good1,stays⟩ := unloadSpec good allowed
    exact ⟨s',by rw [step,ran]; rfl,good1,stays⟩
  | load new => exact ⟨_,rfl,loadSpec good allowed,fun m mem => Or.inl (List.mem_cons_of_mem new mem)⟩

theorem Good.consistent (good : Good s) : Consistent s :=
  ⟨good.graph.twoSided,good.graph.once,
    fun side m n mem => ⟨good.graph.loaded side m n mem,(good.stored.loaded n).mp (good.graph.loaded side m n mem)⟩,
    good.stored.live⟩

/- Modules just loaded: every one on modules_head once, with empty lists. -/
structure Fresh (s : State) : Prop where
  loaded : ∀ m, m ∈ s.modulesHead ↔ s.modules m ≠ none
  headOnce : s.modulesHead.Nodup
  empty : ∀ side m, listOf s side m = []

theorem Fresh.good (fresh : Fresh s) : Good s := by
  refine ⟨⟨fresh.loaded,fresh.headOnce,?_,?_,?_⟩,⟨?_,?_,?_⟩⟩ <;> intros <;> simp_all [names,fresh.empty]

theorem dependencyGraph (fresh : Fresh s) (calls : List Call) (allowed : Along step Allowed s calls) :
    ∃ s', run step s calls = some s' ∧ Consistent s' ∧
      ∀ c, Allowed s' c → ∃ next, step s' c = some next ∧
        ∀ m ∈ s'.modulesHead, listOf s' .dependants m ≠ [] → m ∈ next.modulesHead ∧ next.modules m ≠ none := by
  have keeps : ∀ s c, Good s → Allowed s c → ∃ s', step s c = some s' ∧ Good s' := by
    intro s c good here
    obtain ⟨s',stepped,good',_⟩ := stepKeeps good here
    exact ⟨s',stepped,good'⟩
  obtain ⟨s',ran,good⟩ := runProgress keeps fresh.good allowed
  refine ⟨s',ran,good.consistent,?_⟩
  intro c allowedHere
  obtain ⟨next,stepped,goodNext,stays⟩ := stepKeeps good allowedHere
  refine ⟨next,stepped,?_⟩
  intro m mem needed
  have still := (stays m mem).resolve_right needed
  exact ⟨still,(goodNext.stored.loaded m).mp still⟩

def threeModules : State :=
  ⟨[1,2,3],fun m => if m ∈ [1,2,3] then some ⟨[],[]⟩ else none,fun _ => none⟩

/- Modules 2 and 3 need module 1, which stays until both are unloaded. -/
theorem dependencyGraphThree :
    Along step Allowed threeModules [.enforce 1 2 10 11,.enforce 1 3 12 13,.unload 1,.unload 2] ∧
    ∃ s', run step threeModules [.enforce 1 2 10 11,.enforce 1 3 12 13,.unload 1,.unload 2] = some s' ∧
      Consistent s' ∧ ∀ c, Allowed s' c → ∃ next, step s' c = some next ∧
        ∀ m ∈ s'.modulesHead, listOf s' .dependants m ≠ [] → m ∈ next.modulesHead ∧ next.modules m ≠ none := by
  have fresh : Fresh threeModules := by
    refine ⟨?_,by decide,?_⟩
    · intro m
      by_cases here : m ∈ [1,2,3] <;> simp_all [threeModules]
    · intro side m
      by_cases here : m ∈ [1,2,3] <;> cases side <;> simp_all [listOf,threeModules,ElfModule.on]
  have allowed : Along step Allowed threeModules [.enforce 1 2 10 11,.enforce 1 3 12 13,.unload 1,.unload 2] := by
    decide
  exact ⟨allowed,dependencyGraph fresh _ allowed⟩

end Syslinux.Module
