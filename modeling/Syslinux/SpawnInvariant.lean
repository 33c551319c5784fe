import Syslinux.SpawnDecay

/-! What holds between the steps of a spawn_load: the modules of before are untouched, what lies above
them on the list has its structures, and so has each module that is being loaded. Releasing the newest
module keeps this, and so unload_modules_since does. -/
namespace Syslinux.Spawn
open Syslinux.Module (Good Pushed)

/- The modules pushed onto the list of g0, numbered from n on. -/
inductive Above (g0 : Module.State) (n : Nat) : Module.State → Prop where
  | base : Above g0 n g0
  | push {g g' : Module.State} {m : Nat} (above : Above g0 n g) (newer : n ≤ m) (fresh : g.modules m = none)
      (good : Good g') (pushed : Pushed g m g') : Above g0 n g'

/- Loaded modules with their structures, numbered below next. There is always one, and nothing depends
on the newest. -/
structure Settled (b : World) : Prop where
  good : Good b.graph
  some1 : b.graph.modulesHead ≠ []
  ids : ∀ a ∈ b.graph.modulesHead, a < b.next
  info : ∀ a ∈ b.graph.modulesHead, b.info a ≠ none
  last : ∀ cur e, b.graph.modulesHead.head? = some cur → b.graph.modules cur = some e → e.dependants = []
  free : ∀ a, b.next ≤ a → b.info a = none ∧ b.segments a = false ∧ b.graph.deps a = none

/- The world in the course of a call that began in b, while the modules of P are being loaded. -/
structure Inv (b : World) (P : Nat → Option Info) (w : World) : Prop where
  above : Above b.graph b.next w.graph
  next : b.next ≤ w.next
  old : ∀ a < b.next, w.info a = b.info a ∧ w.segments a = b.segments a
  listed : ∀ a ∈ w.graph.modulesHead, b.next ≤ a → ∃ name, w.info a = some ⟨name,true⟩ ∧ w.segments a = true
  pending : ∀ a i, P a = some i → b.next ≤ a ∧ a < w.next ∧ a ∉ w.graph.modulesHead ∧ w.info a = some i ∧
    w.segments a = i.moduleAddr
  dead : ∀ a, b.next ≤ a → a ∉ w.graph.modulesHead → P a = none → w.info a = none ∧ w.segments a = false
  ids : ∀ a ∈ w.graph.modulesHead, a < w.next
  nodes : ∀ n, w.next ≤ n → w.graph.deps n = none

def nameOf (w : World) (a : Nat) : Option String := (w.info a).map Info.name

def Plain (h : Nat) (w : World) : Prop :=
  ∀ pre post, w.graph.modulesHead = pre ++ h::post → ∀ k ∈ pre, nameOf w k ≠ nameOf w h

structure Later (n : Nat) (w w' : World) : Prop where
  next : w.next ≤ w'.next
  grown : ∀ a ∈ w'.graph.modulesHead, a ∈ w.graph.modulesHead ∨ n ≤ a
  names : ∀ a < n, a ∈ w'.graph.modulesHead → nameOf w' a = nameOf w a
  plain : ∀ h < n, Plain h w → Plain h w'

section
variable {b w w' : World} {P : Nat → Option Info} {g0 g : Module.State} {n cur h : Nat}

theorem Later.refl (w : World) : Later n w w := ⟨le_rfl,fun _ h => Or.inl h,fun _ _ _ => rfl,fun _ _ plain => plain⟩

theorem Later.trans {w'' : World} (first : Later n w w') (second : Later n w' w'') : Later n w w'' where
  next := first.next.trans second.next
  grown a inside := by
    rcases second.grown a inside with before | new
    · exact first.grown a before
    · exact Or.inr new
  names a old inside := by
    have before := (second.grown a inside).resolve_right (Nat.not_le.mpr old)
    rw [second.names a old inside,first.names a old before]
  plain h old plain := second.plain h old (first.plain h old plain)

theorem Later.mono {n' : Nat} (later : Later n w w') (less : n' ≤ n) : Later n' w w' where
  next := later.next
  grown a inside := (later.grown a inside).imp_right less.trans
  names a old := later.names a (lt_of_lt_of_le old less)
  plain h old := later.plain h (lt_of_lt_of_le old less)

theorem Above.good (start : Good g0) (above : Above g0 n g) : Good g := by
  cases above with
  | base => exact start
  | push _ _ _ good _ => exact good

theorem Above.list (above : Above g0 n g) : ∃ new, g.modulesHead = new ++ g0.modulesHead ∧ ∀ a ∈ new, n ≤ a := by
  induction above with
  | base => exact ⟨[],rfl,by simp⟩
  | push above newer fresh good pushed ih =>
    obtain ⟨new,list,all⟩ := ih
    refine ⟨_::new,by rw [(Module.pushedCleared pushed).1,list,List.cons_append],fun a inside => ?_⟩
    rcases List.mem_cons.mp inside with rfl | inside
    · exact newer
    · exact all a inside

theorem Above.newest (above : Above g0 n g) (ids : ∀ a ∈ g0.modulesHead, a < n) (newest : g.modulesHead.head? = some cur)
    (new : n ≤ cur) : ∃ g1, Above g0 n g1 ∧ Module.moduleUnload g cur = some (g1,0) ∧ g.modulesHead = cur::g1.modulesHead ∧
      ∀ k, g.deps k = none → g1.deps k = none := by
  cases above with
  | base => exact absurd (ids cur (List.mem_of_head? newest)) (Nat.not_lt.mpr new)
  | push above newer fresh good pushed =>
    have list := (Module.pushedCleared pushed).1
    rw [list,List.head?_cons,Option.some.injEq] at newest
    subst newest
    exact ⟨_,above,Module.pushedUnload fresh pushed,list,fun _ => Module.pushedNodes pushed⟩

theorem Above.bottom (above : Above g0 n g) (newest : g.modulesHead.head? = some cur) (old : cur < n) : g = g0 := by
  cases above with
  | base => rfl
  | push above newer fresh good pushed =>
    rw [(Module.pushedCleared pushed).1,List.head?_cons,Option.some.injEq] at newest
    subst newest
    exact absurd old (Nat.not_lt.mpr newer)

theorem Inv.good (settled : Settled b) (inv : Inv b P w) : Good w.graph := inv.above.good settled.good

theorem Inv.info (settled : Settled b) (inv : Inv b P w) {a : Nat} (inside : a ∈ w.graph.modulesHead) :
    ∃ i, w.info a = some i := by
  by_cases old : a < b.next
  · obtain ⟨new,list,all⟩ := inv.above.list
    rw [list] at inside
    rcases List.mem_append.mp inside with fresh | before
    · exact absurd (all a fresh) (by omega)
    · rw [(inv.old a old).1]
      exact Option.ne_none_iff_exists'.mp (settled.info a before)
  · obtain ⟨name,found,_⟩ := inv.listed a inside (by omega)
    exact ⟨_,found⟩

theorem Settled.inv (settled : Settled b) : Inv b (fun _ => none) b where
  above := .base
  next := le_rfl
  old _ _ := ⟨rfl,rfl⟩
  listed a inside new := absurd (settled.ids a inside) (Nat.not_lt.mpr new)
  pending := by simp
  dead a new _ _ := ⟨(settled.free a new).1,(settled.free a new).2.1⟩
  ids := settled.ids
  nodes a new := (settled.free a new).2.2

theorem Inv.some1 (settled : Settled b) (inv : Inv b P w) : ∃ cur, w.graph.modulesHead.head? = some cur := by
  obtain ⟨new,list,_⟩ := inv.above.list
  cases shape : w.graph.modulesHead with
  | cons cur rest => exact ⟨cur,rfl⟩
  | nil =>
    rw [list] at shape
    exact absurd (List.append_eq_nil_iff.mp shape).2 settled.some1

theorem releaseNewest (settled : Settled b) (inv : Inv b P w) (newest : w.graph.modulesHead.head? = some cur)
    (new : b.next ≤ cur) :
    ∃ w', release w cur = some (0,w') ∧ Inv b P w' ∧ w.graph.modulesHead = cur::w'.graph.modulesHead ∧
      Later n w w' ∧ w'.tables = w.tables ∧ w'.info cur = none ∧ ∀ a ≠ cur, w'.info a = w.info a := by
  obtain ⟨g1,above,unloads,list,nodes⟩ := inv.above.newest settled.ids newest new
  have here := List.mem_of_head? newest
  obtain ⟨name,found,segments⟩ := inv.listed cur here new
  obtain ⟨lists,loaded⟩ := Option.ne_none_iff_exists'.mp (((inv.good settled).stored.loaded cur).mp here)
  have once := (inv.good settled).stored.headOnce
  rw [list] at once
  have gone : cur ∉ g1.modulesHead := (List.nodup_cons.mp once).1
  have part : ∀ a ∈ g1.modulesHead, a ∈ w.graph.modulesHead ∧ a ≠ cur := fun a inside =>
    ⟨list ▸ List.mem_cons_of_mem _ inside,ne_of_mem_of_not_mem inside gone⟩
  have infos : ∀ a ≠ cur, Function.update w.info cur none a = w.info a := fun a other => by simp [other]
  have segs : ∀ a ≠ cur, Function.update w.segments cur false a = w.segments a := fun a other => by simp [other]
  refine ⟨⟨w.next,g1,Function.update w.info cur none,Function.update w.segments cur false,w.tables⟩,?_,?_,list,?_,rfl,
    by simp,infos⟩
  · simp [release,unlink,found,loaded,unloads,elfFree,segments]
  · constructor
    · exact above
    · exact inv.next
    · intro a old
      have other : a ≠ cur := by omega
      exact ⟨(infos a other).trans (inv.old a old).1,(segs a other).trans (inv.old a old).2⟩
    · intro a inside newer
      obtain ⟨before,other⟩ := part a inside
      obtain ⟨name',found',segments'⟩ := inv.listed a before newer
      exact ⟨name',(infos a other).trans found',(segs a other).trans segments'⟩
    · intro a i pending
      obtain ⟨from1,below,absent,found',segments'⟩ := inv.pending a i pending
      have other : a ≠ cur := fun same => absent (same ▸ here)
      exact ⟨from1,below,fun inside => absent (part a inside).1,(infos a other).trans found',(segs a other).trans segments'⟩
    · intro a newer absent none1
      by_cases same : a = cur
      · subst same
        exact ⟨by simp,by simp⟩
      · have absent' : a ∉ w.graph.modulesHead := by
          rw [list]
          exact fun inside => (List.mem_cons.mp inside).elim same absent
        exact ⟨(infos a same).trans (inv.dead a newer absent' none1).1,
          (segs a same).trans (inv.dead a newer absent' none1).2⟩
    · exact fun a inside => inv.ids a (part a inside).1
    · exact fun k free => nodes k (inv.nodes k free)
  · have names : ∀ a ≠ cur, nameOf
        ⟨w.next,g1,Function.update w.info cur none,Function.update w.segments cur false,w.tables⟩ a = nameOf w a :=
      fun a other => congrArg (Option.map Info.name) (infos a other)
    refine ⟨le_rfl,fun a inside => Or.inl (part a inside).1,fun a _ inside => names a (part a inside).2,
      fun h _ plain pre post shape k inside => ?_⟩
    have both : ∀ a ∈ pre ++ h::post, a ≠ cur := fun a member => (part a (shape ▸ member)).2
    rw [names k (both k (List.mem_append_left _ inside)),names h (both h (by simp))]
    exact plain (cur::pre) post (by rw [list,shape,List.cons_append]) k (List.mem_cons_of_mem _ inside)

theorem findNamedSpec {list : List Nat} (name : String) (infos : ∀ a ∈ list, ∃ i, w.info a = some i) :
    (findNamed w name list = some none ∧ ∀ a ∈ list, nameOf w a ≠ some name) ∨
    ∃ pre mod post, list = pre ++ mod::post ∧ findNamed w name list = some (some mod) ∧ nameOf w mod = some name ∧
      ∀ a ∈ pre, nameOf w a ≠ some name := by
  induction list with
  | nil => exact Or.inl ⟨rfl,by simp⟩
  | cons a rest ih =>
    obtain ⟨i,found⟩ := infos a List.mem_cons_self
    have named : nameOf w a = some i.name := by rw [nameOf,found,Option.map_some]
    by_cases same : i.name = name
    · exact Or.inr ⟨[],a,rest,rfl,by simp [findNamed,found,same],by rw [named,same],by simp⟩
    · have other : nameOf w a ≠ some name := by simp [named,same]
      rcases ih (fun a h => infos a (List.mem_cons_of_mem _ h)) with ⟨passed,all⟩ | ⟨pre,mod,post,rfl,stopped,here,before⟩
      · refine Or.inl ⟨by simp [findNamed,found,same,passed],fun k inside => ?_⟩
        rcases List.mem_cons.mp inside with rfl | inside
        · exact other
        · exact all k inside
      · refine Or.inr ⟨a::pre,mod,post,rfl,by simp [findNamed,found,same,stopped],here,fun k inside => ?_⟩
        rcases List.mem_cons.mp inside with rfl | inside
        · exact other
        · exact before k inside

theorem findNamedFirst {name : String} {pre post : List Nat} (infos : ∀ a ∈ pre ++ h::post, ∃ i, w.info a = some i)
    (others : ∀ a ∈ pre, nameOf w a ≠ some name) (named : nameOf w h = some name) :
    findNamed w name (pre ++ h::post) = some (some h) := by
  induction pre with
  | nil =>
    obtain ⟨i,found⟩ := infos h (by simp)
    rw [nameOf,found,Option.map_some,Option.some.injEq] at named
    simp [findNamed,found,named]
  | cons a pre ih =>
    obtain ⟨i,found⟩ := infos a (by simp)
    have other := others a List.mem_cons_self
    rw [nameOf,found,Option.map_some,Ne,Option.some.injEq] at other
    have rest := ih (fun k inside => infos k (List.mem_cons_of_mem _ inside)) fun k inside =>
      others k (List.mem_cons_of_mem _ inside)
    simp [findNamed,found,other,rest]

theorem unloadUntilSpec (settled : Settled b) {pre post : List Nat} (inv : Inv b P w)
    (shape : w.graph.modulesHead = pre ++ h::post) (new : ∀ k ∈ pre, b.next ≤ k) :
    ∃ w', unloadUntil h w.graph.modulesHead w = some w' ∧ Inv b P w' ∧ w'.graph.modulesHead = h::post ∧ Later n w w' ∧
      w'.tables = w.tables ∧ (∀ k ∈ pre, w'.info k = none) ∧ ∀ a ∉ pre, w'.info a = w.info a := by
  induction pre generalizing w with
  | nil =>
    refine ⟨w,?_,inv,shape,.refl w,rfl,by simp,fun _ _ => rfl⟩
    rw [shape,List.nil_append,unloadUntil,if_pos rfl]
  | cons k pre ih =>
    have newest : w.graph.modulesHead.head? = some k := by rw [shape]; rfl
    obtain ⟨w1,ran,inv1,list,later1,tables1,gone,infos1⟩ := releaseNewest settled inv newest (new k List.mem_cons_self)
    have once := (inv.good settled).stored.headOnce
    rw [shape,List.cons_append] at once list
    obtain ⟨apart,_⟩ := List.nodup_cons.mp once
    have shape1 : w1.graph.modulesHead = pre ++ h::post := (List.cons.inj list).2.symm
    obtain ⟨w2,rest,inv2,list2,later2,tables2,dead,infos2⟩ := ih inv1 shape1 fun a inside =>
      new a (List.mem_cons_of_mem _ inside)
    refine ⟨w2,?_,inv2,list2,later1.trans later2,tables2.trans tables1,fun a inside => ?_,fun a outside => ?_⟩
    · have other : k ≠ h := fun same => apart (by simp [same])
      rw [shape1] at rest
      rw [shape,List.cons_append,unloadUntil,if_neg other]
      simp [ran,rest]
    · rcases List.mem_cons.mp inside with rfl | inside
      · rw [infos2 a (fun h => apart (List.mem_append_left _ h)),gone]
      · exact dead a inside
    · rw [List.mem_cons,not_or] at outside
      rw [infos2 a outside.2,infos1 a outside.1]

theorem Inv.preNew (settled : Settled b) (inv : Inv b P w) {pre post : List Nat}
    (shape : w.graph.modulesHead = pre ++ h::post) (which : b.next ≤ h ∨ b.graph.modulesHead.head? = some h) :
    ∀ k ∈ pre, b.next ≤ k := by
  obtain ⟨new,list,all⟩ := inv.above.list
  rw [list] at shape
  rcases List.append_eq_append_iff.mp shape with ⟨c,split,base⟩ | ⟨c,split,_⟩
  · rcases which with newer | newest
    · exact absurd (settled.ids h (by rw [base]; simp)) (Nat.not_lt.mpr newer)
    · cases c with
      | nil => rwa [split,List.append_nil]
      | cons x c =>
        have once := settled.good.stored.headOnce
        rw [base] at once newest
        rw [List.cons_append,List.head?_cons,Option.some.injEq] at newest
        subst newest
        rw [List.cons_append] at once
        exact absurd (by simp) (List.nodup_cons.mp once).1
  · exact fun k inside => all k (by rw [split]; exact List.mem_append_left _ inside)

theorem unloadSinceSpec (settled : Settled b) {i : Info} (inv : Inv b P w) (here : h ∈ w.graph.modulesHead)
    (plain : Plain h w) (found : w.info h = some i) (which : b.next ≤ h ∨ b.graph.modulesHead.head? = some h) :
    ∃ w', unloadModulesSince w i.name = some w' ∧ Inv b P w' ∧ w'.graph.modulesHead.head? = some h ∧ Later n w w' ∧
      w'.tables = w.tables := by
  obtain ⟨pre,post,shape⟩ := List.append_of_mem here
  have named : nameOf w h = some i.name := by rw [nameOf,found,Option.map_some]
  obtain ⟨w',ran,inv',list,later,tables,_⟩ := unloadUntilSpec settled inv shape (inv.preNew settled shape which)
  refine ⟨w',?_,inv',by rw [list]; rfl,later,tables⟩
  have first : findNamed w i.name w.graph.modulesHead = some (some h) := by
    rw [shape]
    exact findNamedFirst (fun a inside => inv.info settled (shape ▸ inside))
      (fun a inside => named ▸ plain pre post shape a inside) named
  simp [unloadModulesSince,first,ran]

theorem laterSame (next : w.next ≤ w'.next) (list : w'.graph.modulesHead = w.graph.modulesHead)
    (names : ∀ a ∈ w.graph.modulesHead, nameOf w' a = nameOf w a) : Later n w w' where
  next
  grown a inside := Or.inl (list ▸ inside)
  names a _ inside := names a (list ▸ inside)
  plain h _ plain pre post shape k inside := by
    rw [list] at shape
    rw [names k (by rw [shape]; exact List.mem_append_left _ inside),names h (by rw [shape]; simp)]
    exact plain pre post shape k inside

theorem enforceAllSpec {m : Nat} (ks : List Nat) (good : Good w.graph) (pushed : Pushed g m w.graph)
    (nodes : ∀ k, w.next ≤ k → w.graph.deps k = none) :
    ∃ w', enforceAll m ks w = some w' ∧ Good w'.graph ∧ Pushed g m w'.graph ∧ (∀ k, w'.next ≤ k → w'.graph.deps k = none) ∧
      w.next ≤ w'.next ∧ w'.info = w.info ∧ w'.segments = w.segments ∧ w'.tables = w.tables := by
  induction ks generalizing w with
  | nil => exact ⟨w,rfl,good,pushed,nodes,le_rfl,rfl,rfl,rfl⟩
  | cons k ks ih =>
    rw [enforceAll]
    split
    · exact ih good pushed nodes
    · rename_i req found
      by_cases same : req = m
      · rw [if_pos same]
        exact ih good pushed nodes
      · rw [if_neg same]
        have here : m ∈ w.graph.modulesHead := by
          rw [(Module.pushedCleared pushed).1]
          exact List.mem_cons_self
        have free1 := nodes w.next le_rfl
        have free2 := nodes (w.next + 1) (by omega)
        have apart : w.next ≠ w.next + 1 := by omega
        obtain ⟨graph,ran,good1,_⟩ := Module.enforceSpec good ⟨same,List.mem_of_getElem? found,here,free1,free2,apart⟩
        have later : ∀ k, w.next + 2 ≤ k → graph.deps k = none := fun k above => by
          rcases Module.enforceCases same free1 free2 apart ran with rfl | ⟨_,_,kept,_⟩
          · exact nodes k (by omega)
          · rw [kept k (Nat.ne_of_gt (by omega)) (Nat.ne_of_gt (by omega))]
            exact nodes k (by omega)
        obtain ⟨w',rest,good2,pushed2,nodes2,next,infos,segments,tables⟩ :=
          ih (w := { w with graph, next := w.next + 2 }) good1 (.edge pushed same free1 free2 apart ran) later
        refine ⟨w',by simp [ran,rest],good2,pushed2,nodes2,?_,infos,segments,tables⟩
        have step : w.next + 2 ≤ w'.next := next
        omega

/- A module that is not on the list gets a structure or loses it, and its segments with it. -/
theorem Inv.touched {m next : Nat} {j : Option Info} {set : Bool} (inv : Inv b P w) (new : b.next ≤ m)
    (absent : m ∉ w.graph.modulesHead) (later : w.next ≤ next) (below : m < next)
    (fits : set = (j.map Info.moduleAddr).getD false) :
    Inv b (Function.update P m j) { w with
      next, info := Function.update w.info m j, segments := Function.update w.segments m set } := by
  have infos : ∀ a ≠ m, Function.update w.info m j a = w.info a := fun a other => by simp [other]
  have segs : ∀ a ≠ m, Function.update w.segments m set a = w.segments a := fun a other => by simp [other]
  constructor
  · exact inv.above
  · exact inv.next.trans later
  · intro a old
    have other : a ≠ m := by omega
    exact ⟨(infos a other).trans (inv.old a old).1,(segs a other).trans (inv.old a old).2⟩
  · intro a inside newer
    have other : a ≠ m := ne_of_mem_of_not_mem inside absent
    obtain ⟨name,found,segments⟩ := inv.listed a inside newer
    exact ⟨name,(infos a other).trans found,(segs a other).trans segments⟩
  · intro a i is
    by_cases same : a = m
    · subst same
      rw [Function.update_self] at is
      subst is
      exact ⟨new,below,absent,by simp,by simp [fits]⟩
    · rw [Function.update_of_ne same] at is
      obtain ⟨from1,below1,absent1,found,segments⟩ := inv.pending a i is
      exact ⟨from1,lt_of_lt_of_le below1 later,absent1,(infos a same).trans found,(segs a same).trans segments⟩
  · intro a newer outside none1
    by_cases same : a = m
    · subst same
      rw [Function.update_self] at none1
      subst none1
      exact ⟨by simp,by simp [fits]⟩
    · rw [Function.update_of_ne same] at none1
      obtain ⟨gone,freed⟩ := inv.dead a newer outside none1
      exact ⟨(infos a same).trans gone,(segs a same).trans freed⟩
  · exact fun a inside => lt_of_lt_of_le (inv.ids a inside) later
  · exact fun k free => inv.nodes k (later.trans free)

theorem Inv.changed {m : Nat} {i j : Info} (inv : Inv b P w) (pending : P m = some i) :
    Inv b (Function.update P m (some j)) { w with
      info := Function.update w.info m (some j), segments := Function.update w.segments m j.moduleAddr } := by
  obtain ⟨new,below,absent,_,_⟩ := inv.pending m i pending
  exact inv.touched new absent le_rfl below rfl

theorem Inv.changedLater {m : Nat} {i j : Info} (inv : Inv b P w) (pending : P m = some i) :
    Later n w { w with
      info := Function.update w.info m (some j), segments := Function.update w.segments m j.moduleAddr } := by
  obtain ⟨_,_,absent,_,_⟩ := inv.pending m i pending
  refine laterSame le_rfl rfl fun a inside => ?_
  have other : a ≠ m := ne_of_mem_of_not_mem inside absent
  simp [nameOf,other]

theorem clearLoadSpec {m : Nat} {i : Info} (res : Int) (inv : Inv b P w) (pending : P m = some i) :
    ∃ w', clearLoad w m res = some (res,w') ∧ Inv b (Function.update P m (some { i with moduleAddr := false })) w' ∧
      Later n w w' ∧ w'.graph = w.graph ∧ w'.tables = w.tables := by
  obtain ⟨_,_,absent,found,segments⟩ := inv.pending m i pending
  have erased : w.graph.modulesHead.erase m = w.graph.modulesHead := List.erase_of_not_mem absent
  refine ⟨_,?_,inv.changed pending,inv.changedLater pending,rfl,rfl⟩
  cases flag : i.moduleAddr with
  | true =>
    rw [flag] at segments
    simp [clearLoad,found,elfFree,flag,segments,erased]
  | false =>
    rw [flag] at segments
    have same : Function.update w.segments m false = w.segments := by rw [← segments,Function.update_eq_self]
    simp [clearLoad,found,elfFree,flag,erased,same]

theorem Inv.which (inv : Inv b P w) (newest : w.graph.modulesHead.head? = some h) :
    b.next ≤ h ∨ b.graph.modulesHead.head? = some h := by
  by_cases old : h < b.next
  · rw [← inv.above.bottom newest old]
    exact Or.inr newest
  · exact Or.inl (by omega)

theorem failedSpec (settled : Settled b) {m : Nat} {i : Info} (res : Int) (inv : Inv b P w) (pending : P m = some i)
    (here : h ∈ w.graph.modulesHead) (plain : Plain h w) (which : b.next ≤ h ∨ b.graph.modulesHead.head? = some h) :
    ∃ w', failed w m (some h) res = some (res,w') ∧ Inv b (Function.update P m (some { i with moduleAddr := false })) w' ∧
      Later n w w' ∧ w'.graph.modulesHead.head? = some h ∧ w'.tables = w.tables := by
  obtain ⟨ih,found⟩ := inv.info settled here
  obtain ⟨w1,unloads,inv1,newest,later1,tables1⟩ := unloadSinceSpec settled inv here plain found which
  obtain ⟨w2,clears,inv2,later2,graph2,tables2⟩ := clearLoadSpec res inv1 pending
  exact ⟨w2,by simp [failed,found,unloads,clears],inv2,later1.trans later2,by rw [graph2,newest],tables2.trans tables1⟩

theorem plainNewest (newest : w.graph.modulesHead.head? = some h) (once : w.graph.modulesHead.Nodup) : Plain h w := by
  intro pre post shape k inside
  cases pre with
  | nil => exact absurd inside List.not_mem_nil
  | cons x pre =>
    rw [shape] at newest once
    rw [List.cons_append,List.head?_cons,Option.some.injEq] at newest
    subst newest
    rw [List.cons_append] at once
    exact absurd (by simp) (List.nodup_cons.mp once).1

/- list_add and the relocations put a pending module on the list, above all the others. -/
theorem listedSpec {m : Nat} {name : String} (ks : List Nat) (settled : Settled b) (inv : Inv b P w)
    (pending : P m = some ⟨name,true⟩) :
    ∃ w', enforceAll m ks { w with graph := Module.moduleLoad w.graph m } = some w' ∧ Inv b (Function.update P m none) w' ∧
      w'.graph.modulesHead = m::w.graph.modulesHead ∧ w'.info = w.info ∧ w.next ≤ w'.next ∧ w'.tables = w.tables := by
  obtain ⟨new,below,absent,found,segments⟩ := inv.pending m _ pending
  have fresh : w.graph.modules m = none := by
    by_contra some1
    exact absent (((inv.good settled).stored.loaded m).mpr some1)
  obtain ⟨w',enforced,good,pushed,nodes,next,infos,segs,tables⟩ :=
    enforceAllSpec (w := { w with graph := Module.moduleLoad w.graph m }) (m := m) ks
      (Module.loadSpec (inv.good settled) fresh) (.load fresh) inv.nodes
  have list := (Module.pushedCleared pushed).1
  refine ⟨w',enforced,?_,list,infos,next,tables⟩
  have infos : w'.info = w.info := infos
  have segs : w'.segments = w.segments := segs
  have next : w.next ≤ w'.next := next
  constructor
  · exact inv.above.push new fresh good pushed
  · exact inv.next.trans next
  · rw [infos,segs]
    exact inv.old
  · intro a inside newer
    rw [infos,segs]
    rw [list] at inside
    rcases List.mem_cons.mp inside with rfl | inside
    · exact ⟨name,found,segments⟩
    · exact inv.listed a inside newer
  · intro a i is
    have other : a ≠ m := by
      rintro rfl
      simp at is
    rw [Function.update_of_ne other] at is
    obtain ⟨from1,below',absent',found',segments'⟩ := inv.pending a i is
    rw [infos,segs,list]
    exact ⟨from1,lt_of_lt_of_le below' next,fun inside => (List.mem_cons.mp inside).elim other absent',found',segments'⟩
  · intro a newer outside none1
    rw [list,List.mem_cons,not_or] at outside
    rw [Function.update_of_ne outside.1] at none1
    rw [infos,segs]
    exact inv.dead a newer outside.2 none1
  · intro a inside
    rw [list] at inside
    rcases List.mem_cons.mp inside with rfl | inside
    · exact lt_of_lt_of_le below next
    · exact lt_of_lt_of_le (inv.ids a inside) next
  · exact nodes

theorem Inv.more (inv : Inv b P w) (graph : w'.graph = w.graph) (infos : w'.info = w.info)
    (segments : w'.segments = w.segments) (next : w.next ≤ w'.next) : Inv b P w' where
  above := graph ▸ inv.above
  next := inv.next.trans next
  old := by rw [infos,segments]; exact inv.old
  listed := by rw [graph,infos,segments]; exact inv.listed
  pending a i is := by
    obtain ⟨from1,below,rest⟩ := inv.pending a i is
    rw [graph,infos,segments]
    exact ⟨from1,lt_of_lt_of_le below next,rest⟩
  dead := by rw [graph,infos,segments]; exact inv.dead
  ids a inside := lt_of_lt_of_le (inv.ids a (graph ▸ inside)) next
  nodes k free := by rw [graph]; exact inv.nodes k (next.trans free)

end

end Syslinux.Spawn
