import Syslinux.SpawnClean

/-! A spawn_load that fails takes back what it and its dependencies did if and only if its run is clean:
the two ends of spawn_load, and the induction over the dependencies. -/
namespace Syslinux.Spawn

section
variable {b w w' : World} {P : Nat → Option Info}

theorem Inv.fresh (inv : Inv b P w) : P w.next = none := by
  cases pending : P w.next with
  | none => rfl
  | some i => exact absurd (inv.pending w.next i pending).2.1 (lt_irrefl _)

theorem moduleAllocSpec (name : String) (inv : Inv b P w) :
    Inv b (Function.update P w.next (some ⟨name,false⟩)) (moduleAlloc w name) := by
  have unlisted : w.next ∉ w.graph.modulesHead := fun inside => lt_irrefl _ (inv.ids w.next inside)
  have unset := (inv.dead w.next inv.next unlisted inv.fresh).2
  have same : Function.update w.segments w.next false = w.segments := by rw [← unset,Function.update_eq_self]
  have touched := inv.touched (j := some ⟨name,false⟩) inv.next unlisted (Nat.le_succ _) (Nat.lt_succ_self _) rfl
  rwa [show (Option.map Info.moduleAddr (some ⟨name,false⟩)).getD false = false from rfl,same] at touched

theorem moduleAllocLater (name : String) (inv : Inv b P w) : Later w.next w (moduleAlloc w name) := by
  refine laterSame (Nat.le_succ _) rfl fun a inside => ?_
  have other : a ≠ w.next := Nat.ne_of_lt (inv.ids a inside)
  simp [nameOf,moduleAlloc,other]

/- A module that never came onto the list goes without a trace. -/
theorem releasePending {m n : Nat} {name : String} (settled : Settled b) (inv : Inv b P w)
    (pending : P m = some ⟨name,false⟩) :
    ∃ w', release w m = some (0,w') ∧ Inv b (Function.update P m none) w' ∧ Later n w w' ∧
      w'.graph = w.graph ∧ w'.tables = w.tables := by
  obtain ⟨new,below,absent,found,segments⟩ := inv.pending m _ pending
  have unloaded : w.graph.modules m = none := by
    by_contra some1
    exact absent (((inv.good settled).stored.loaded m).mpr some1)
  have same : Function.update w.segments m false = w.segments := by
    rw [show false = w.segments m from segments.symm,Function.update_eq_self]
  have touched := inv.touched (j := none) new absent le_rfl below rfl
  rw [show (Option.map Info.moduleAddr none).getD false = false from rfl,same] at touched
  refine ⟨_,by simp [release,unlink,unloaded,found,elfFree],touched,?_,rfl,rfl⟩
  refine laterSame le_rfl rfl fun a inside => ?_
  have other : a ≠ m := ne_of_mem_of_not_mem inside absent
  simp [nameOf,other]

theorem namesakeClean {n : Nat} {name : String} (settled : Settled b) (inv : Inv b P w)
    (clean : ∀ cur i, w.graph.modulesHead.head? = some cur → w.info cur = some i → i.name = name → b.next ≤ cur) :
    ∃ w', unloadNamesake w name = some w' ∧ Inv b P w' ∧ Later n w w' ∧ w'.tables = w.tables := by
  obtain ⟨cur,newest⟩ := inv.some1 settled
  obtain ⟨i,found⟩ := inv.info settled (List.mem_of_head? newest)
  by_cases same : i.name = name
  · obtain ⟨w',released,inv',_,later,tables,_⟩ := releaseNewest settled inv newest (clean cur i newest found same)
    exact ⟨w',by simp [unloadNamesake,newest,found,same,released],inv',later,tables⟩
  · exact ⟨w,by simp [unloadNamesake,newest,found,same],inv,.refl w,rfl⟩

theorem namesakeBad {cur : Nat} {i : Info} {name : String} (settled : Settled b) (inv : Inv b P w)
    (newest : w.graph.modulesHead.head? = some cur) (found : w.info cur = some i) (same : i.name = name)
    (old : cur < b.next) (ran : unloadNamesake w name = some w') : Damaged b w' := by
  have graph := inv.above.bottom newest old
  have here := List.mem_of_head? newest
  have good := inv.good settled
  obtain ⟨e,loaded⟩ := Option.ne_none_iff_exists'.mp ((good.stored.loaded cur).mp here)
  have free : e.dependants = [] := settled.last cur e (graph ▸ newest) (graph ▸ loaded)
  rw [unloadNamesake,newest,Option.bind_eq_bind,Option.bind_some,found,Option.bind_eq_bind,Option.bind_some,
    if_pos same] at ran
  obtain ⟨⟨rc,_⟩,released,rfl⟩ := Option.map_eq_some_iff.mp ran
  rw [release,found,Option.bind_eq_bind,Option.bind_some] at released
  obtain ⟨⟨g1,rc1⟩,unloads,released⟩ := Option.bind_eq_some_iff.mp released
  rw [unlink,loaded] at unloads
  rcases Module.moduleUnloadHead unloads with ⟨e',loaded',needs,_⟩ | ⟨rfl,less⟩
  · obtain rfl := Option.some.inj (loaded.symm.trans loaded')
    exact absurd free needs
  · obtain ⟨w1,_,done⟩ := Option.bind_eq_some_iff.mp released
    obtain ⟨_,rfl⟩ := Prod.mk.inj (Option.some.inj done)
    refine Or.inl ⟨cur,graph ▸ here,fun inside => ?_⟩
    rw [show g1.modulesHead = _ from less] at inside
    exact absurd rfl ((good.stored.headOnce.mem_erase_iff).mp inside).1

theorem finishClean {image : Image} {m : Nat} {res : Int} (settled : Settled b) (fresh : P m = none) (new : b.next ≤ m)
    (ends : Ends b (Function.update P m (some ⟨image.name,false⟩)) image m w res w') :
    ∃ w2, finish image m (res,w') = some (res,w2) ∧ Inv b P w2 ∧ Later m w w2 ∧
      (res ≠ 0 → w2.graph.modulesHead.head? = w.graph.modulesHead.head? ∧ w2.tables = w.tables) ∧
      (res = 0 → (image.makes → w.tables.length < w2.tables.length) ∧ (¬ image.makes → w2.tables = w.tables)) := by
  obtain ⟨later,refused,loaded⟩ := ends
  have back : Function.update (Function.update P m (some ⟨image.name,false⟩)) m none = P := by
    rw [Function.update_idem,← fresh,Function.update_eq_self]
  rw [Function.update_idem] at refused
  by_cases zero : res = 0
  · obtain ⟨inv',newest,made,unmade⟩ := loaded zero
    rw [back] at inv'
    by_cases main : image.main
    · obtain ⟨w2,released,inv2,_,more,tables,_⟩ := releaseNewest settled inv' newest new
      refine ⟨w2,by simp [finish,zero,main,released],inv2,later.trans more,fun no => absurd zero no,fun _ => ?_⟩
      rw [tables]
      exact ⟨made,unmade⟩
    · exact ⟨w',by simp [finish,zero,main],inv',later,fun no => absurd zero no,fun _ => ⟨made,unmade⟩⟩
  · obtain ⟨inv',newest,tables⟩ := refused zero
    obtain ⟨w2,released,inv2,more,graph2,tables2⟩ := releasePending settled inv' (Function.update_self m _ P)
    rw [back] at inv2
    exact ⟨w2,by simp [finish,zero,released],inv2,later.trans more,fun _ => ⟨by rw [graph2,newest],tables2.trans tables⟩,
      fun yes => absurd yes zero⟩

theorem allocInfo {cur : Nat} {i : Info} (name : String) (inv : Inv b P w) (newest : w.graph.modulesHead.head? = some cur) :
    (moduleAlloc w name).info cur = some i ↔ w.info cur = some i := by
  have other : cur ≠ w.next := Nat.ne_of_lt (inv.ids cur (List.mem_of_head? newest))
  simp [moduleAlloc,other]

section
variable {image : Image} {needed : List Load}

theorem spawnRuns (settled : Settled b) (inv : Inv b P w) (allocated : image.allocated = true)
    (good : ∀ P w, Inv b P w → NeededClean b.next needed w → Goes b P w (loadNeeded needed w))
    (clean : SpawnClean b.next (.mk image needed) w) :
    ∃ w1 res w', unloadNamesake (moduleAlloc w image.name) image.name = some w1 ∧
      spawnLoad (.mk image needed) w = some (res,w') ∧ Inv b P w' ∧ Later w.next w w' ∧
      (res ≠ 0 → w'.graph.modulesHead.head? = w1.graph.modulesHead.head? ∧ w'.tables = w.tables) ∧
      (res = 0 → (image.makes → w.tables.length < w'.tables.length) ∧ (¬ image.makes → w'.tables = w.tables)) := by
  rw [SpawnClean] at clean
  obtain ⟨apart,load⟩ := clean allocated
  have inv0 := moduleAllocSpec image.name inv
  obtain ⟨w1,namesake,inv1,later1,tables1⟩ := namesakeClean (n := w.next) settled inv0 fun cur i newest found same =>
    apart cur i newest ((allocInfo image.name inv newest).mp found) same
  obtain ⟨res,w2,loads,ends⟩ := loadClean settled inv1 (Function.update_self w.next _ P) good (load w1 namesake)
  obtain ⟨w',finishes,inv',later2,refused,loaded⟩ := finishClean settled inv.fresh inv.next ends
  rw [tables1] at refused loaded
  refine ⟨w1,res,w',namesake,?_,inv',((moduleAllocLater image.name inv).trans later1).trans later2,refused,loaded⟩
  simp [spawnLoad,allocated,namesake,loads,finishes]

theorem spawnSpoils (settled : Settled b) (inv : Inv b P w) (tables : b.tables.length ≤ w.tables.length)
    (good : ∀ P w, Inv b P w → NeededClean b.next needed w → Goes b P w (loadNeeded needed w))
    (bad : ∀ P w, Inv b P w → b.tables.length ≤ w.tables.length → ¬ NeededClean b.next needed w →
      Spoils b (loadNeeded needed w))
    (unclean : ¬ SpawnClean b.next (.mk image needed) w) : Spoils b (spawnLoad (.mk image needed) w) := by
  rw [SpawnClean] at unclean
  push Not at unclean
  obtain ⟨allocated,unclean⟩ := unclean
  have inv0 := moduleAllocSpec image.name inv
  intro res w' ran
  rw [spawnLoad,allocated,if_neg (by decide)] at ran
  obtain ⟨w1,namesake,ran⟩ := Option.bind_eq_some_iff.mp ran
  obtain ⟨⟨rc,w2⟩,loads,finishes⟩ := Option.bind_eq_some_iff.mp ran
  by_cases apart : ∀ cur i, w.graph.modulesHead.head? = some cur → w.info cur = some i → i.name = image.name → b.next ≤ cur
  · obtain ⟨w1',namesake',unclean⟩ := unclean apart
    obtain rfl := Option.some.inj (namesake.symm.trans namesake')
    obtain ⟨_,namesake',inv1,_,tables1⟩ := namesakeClean (n := w.next) settled inv0 fun cur i newest found same =>
      apart cur i newest ((allocInfo image.name inv newest).mp found) same
    obtain rfl := Option.some.inj (namesake.symm.trans namesake')
    have enough : b.tables.length ≤ w1.tables.length := by rw [tables1]; exact tables
    have spoils := loadBad settled inv1 (Function.update_self w.next _ P) good bad enough unclean
    exact (spoils rc w2 loads).later settled (finishDecay finishes)
  · push Not at apart
    obtain ⟨cur,i,newest,found,same,old⟩ := apart
    have damaged := namesakeBad settled inv0 newest ((allocInfo image.name inv newest).mpr found) same old namesake
    have next := inv.next.trans (Nat.le_succ _ |>.trans (namesakeDecay (n := b.next) namesake).next)
    have decay := loadDecay inv.next (neededDecay needed) next loads
    exact (damaged.later settled decay).later settled (finishDecay finishes)

end

mutual

theorem spawnGoes (settled : Settled b) (l : Load) (P : Nat → Option Info) (w : World) (inv : Inv b P w)
    (clean : SpawnClean b.next l w) : ∃ res w', spawnLoad l w = some (res,w') ∧ Inv b P w' ∧ Later w.next w w' ∧
      (¬ (res = 0 ∧ l.image.makes) → w'.tables = w.tables) ∧
      (res = 0 → l.image.makes → w.tables.length < w'.tables.length) := by
  match l with
  | .mk image needed =>
    by_cases allocated : image.allocated = true
    · obtain ⟨_,res,w',_,ran,inv',later,refused,loaded⟩ :=
        spawnRuns settled inv allocated (neededGoes settled needed) clean
      refine ⟨res,w',ran,inv',later,fun not => ?_,fun zero => (loaded zero).1⟩
      by_cases zero : res = 0
      · exact (loaded zero).2 fun makes => not ⟨zero,makes⟩
      · exact (refused zero).2
    · exact ⟨-1,w,by simp [spawnLoad,allocated],inv,.refl w,fun _ => rfl,fun zero => absurd zero (by decide)⟩

theorem neededGoes (settled : Settled b) (ls : List Load) (P : Nat → Option Info) (w : World) (inv : Inv b P w)
    (clean : NeededClean b.next ls w) : Goes b P w (loadNeeded ls w) := by
  match ls with
  | [] => exact ⟨0,w,by rw [loadNeeded],inv,.refl w,rfl⟩
  | l::rest =>
    rw [NeededClean] at clean
    obtain ⟨first,clean⟩ := clean
    obtain ⟨res,w1,ran,inv1,later1,tables1,_⟩ := spawnGoes settled l P w inv first
    obtain ⟨unmade,others⟩ := clean res w1 ran
    have same : w1.tables = w.tables := tables1 fun ⟨zero,makes⟩ => makes.elim (unmade zero).1 (unmade zero).2
    by_cases negative : res < 0
    · exact ⟨res,w1,by simp [loadNeeded,ran,negative],inv1,later1,same⟩
    · obtain ⟨res2,w2,ran2,inv2,later2,tables2⟩ := neededGoes settled rest P w1 inv1 (others (by omega))
      exact ⟨res2,w2,by simp [loadNeeded,ran,negative,ran2],inv2,later1.trans (later2.mono later1.next),tables2.trans same⟩

end

theorem neededSpoils (settled : Settled b) (ls : List Load) (P : Nat → Option Info) (w : World) (inv : Inv b P w)
    (tables : b.tables.length ≤ w.tables.length) (unclean : ¬ NeededClean b.next ls w) : Spoils b (loadNeeded ls w) := by
  match ls with
  | [] => exact absurd trivial (by rwa [NeededClean] at unclean)
  | .mk image needed::rest =>
    intro res w' ran
    rw [loadNeeded] at ran
    obtain ⟨⟨rc,w1⟩,one,ran⟩ := Option.bind_eq_some_iff.mp ran
    -- what the first dependency has damaged stays so
    have stays : Damaged b w1 → Damaged b w' := fun damaged => by
      dsimp only at ran
      split at ran
      · obtain ⟨_,rfl⟩ := Prod.mk.inj (Option.some.inj ran)
        exact damaged
      · have next := inv.next.trans (spawnDecay (n := b.next) _ w rc w1 one inv.next).next
        exact damaged.later settled (neededDecay rest w1 res w' ran next)
    by_cases first : SpawnClean b.next (.mk image needed) w
    · obtain ⟨_,_,ran1,inv1,_,kept,made⟩ := spawnGoes settled _ P w inv first
      obtain ⟨rfl,rfl⟩ := Prod.mk.inj (Option.some.inj (one.symm.trans ran1))
      by_cases makes : rc = 0 ∧ image.makes
      · exact stays (Or.inr (lt_of_le_of_lt tables (made makes.1 makes.2)))
      · have enough (others : 0 ≤ rc → NeededClean b.next rest w1) : NeededClean b.next (.mk image needed::rest) w := by
          rw [NeededClean]
          refine ⟨first,fun res w' ran' => ?_⟩
          obtain ⟨rfl,rfl⟩ := Prod.mk.inj (Option.some.inj (one.symm.trans ran'))
          exact ⟨fun zero => not_or.mp fun made => makes ⟨zero,made⟩,others⟩
        by_cases negative : rc < 0
        · exact absurd (enough fun nonneg => absurd negative (by omega)) unclean
        · simp only [if_neg negative] at ran
          have same := kept makes
          exact neededSpoils settled rest P w1 inv1 (by rw [same]; exact tables)
            (fun others => unclean (enough fun _ => others)) res w' ran
    · exact stays (spawnSpoils settled inv tables (neededGoes settled needed) (neededSpoils settled needed) first rc w1 one)

/- The newest module is an old one only where nothing has been added. -/
theorem Inv.same (settled : Settled b) (inv : Inv b (fun _ => none) w) (tables : w.tables = b.tables)
    (newest : w.graph.modulesHead.head? = b.graph.modulesHead.head?) : w = { b with next := w.next } := by
  obtain ⟨cur,here⟩ := settled.inv.some1 settled
  have graph : w.graph = b.graph := inv.above.bottom (newest.trans here) (settled.ids cur (List.mem_of_head? here))
  have all : ∀ a, w.info a = b.info a ∧ w.segments a = b.segments a := fun a => by
    by_cases old : a < b.next
    · exact inv.old a old
    · have unlisted : a ∉ w.graph.modulesHead := fun inside => old (settled.ids a (graph ▸ inside))
      obtain ⟨gone,freed⟩ := inv.dead a (by omega) unlisted rfl
      obtain ⟨none1,unset,_⟩ := settled.free a (by omega)
      exact ⟨gone.trans none1.symm,freed.trans unset.symm⟩
  exact World.ext rfl graph (funext fun a => (all a).1) (funext fun a => (all a).2) tables

theorem finishFails {image : Image} {m : Nat} {rc res : Int} (nonzero : rc ≠ 0)
    (ran : finish image m (rc,w) = some (res,w')) :
    res = rc := by
  unfold finish at ran
  dsimp only at ran
  rw [if_pos nonzero] at ran
  obtain ⟨_,_,same⟩ := Option.map_eq_some_iff.mp ran
  exact (Prod.mk.inj same).1.symm

section
variable {image : Image} {needed : List Load}

/- Where module_load does not return 0, spawn_load fails with the world as it was, if it is clean. -/
theorem restored {b : World} (settled : Settled b) (clean : SpawnClean b.next (.mk image needed) b)
    (fails : image.allocated = true → ∀ w1 w2, unloadNamesake (moduleAlloc b image.name) image.name = some w1 →
      moduleLoad image (loadNeeded needed) b.next w1 ≠ some (0,w2)) :
    ∃ res w', spawnLoad (.mk image needed) b = some (res,w') ∧ res ≠ 0 ∧ w' = { b with next := w'.next } := by
  by_cases allocated : image.allocated = true
  · obtain ⟨w1,res,w',namesake,ran,inv,_,refused,_⟩ := spawnRuns settled settled.inv allocated
      (neededGoes settled needed) clean
    have failed : res ≠ 0 := by
      have unfolded := ran
      rw [spawnLoad,allocated,if_neg (by decide),namesake,Option.bind_eq_bind,Option.bind_some] at unfolded
      obtain ⟨⟨rc,w2⟩,loads,finishes⟩ := Option.bind_eq_some_iff.mp unfolded
      have nonzero : rc ≠ 0 := fun zero => fails allocated w1 w2 namesake (zero ▸ loads)
      rwa [finishFails nonzero finishes]
    obtain ⟨newest,tables⟩ := refused failed
    -- the newest module is from before the call, so a clean load does not unload it
    rw [SpawnClean] at clean
    obtain ⟨cur,here⟩ := settled.inv.some1 settled
    obtain ⟨i,found⟩ := settled.inv.info settled (List.mem_of_head? here)
    have other : i.name ≠ image.name := fun same =>
      absurd ((clean allocated).1 cur i here found same) (Nat.not_le.mpr (settled.ids cur (List.mem_of_head? here)))
    have kept : w1 = moduleAlloc b image.name := by
      have found' := (allocInfo image.name settled.inv here).mpr found
      have newest' : (moduleAlloc b image.name).graph.modulesHead.head? = some cur := here
      simpa [unloadNamesake,newest',found',other] using namesake.symm
    exact ⟨res,w',ran,failed,inv.same settled tables (by rw [newest,kept]; rfl)⟩
  · exact ⟨-1,b,by simp [spawnLoad,allocated],by decide,rfl⟩

theorem undoneIff (settled : Settled w)
    (fails : image.allocated = true → ∀ w1 w2, unloadNamesake (moduleAlloc w image.name) image.name = some w1 →
      moduleLoad image (loadNeeded needed) w.next w1 ≠ some (0,w2)) :
    (∃ res w', spawnLoad (.mk image needed) w = some (res,w') ∧ res ≠ 0 ∧ w' = { w with next := w'.next }) ↔
      SpawnClean w.next (.mk image needed) w := by
  constructor
  · rintro ⟨res,w',ran,_,same⟩
    by_contra unclean
    have damaged := spawnSpoils settled settled.inv le_rfl (neededGoes settled needed)
      (neededSpoils settled needed) unclean res w' ran
    rw [same] at damaged
    rcases damaged with ⟨a,inside,gone⟩ | more
    · exact gone inside
    · exact lt_irrefl _ more
  · exact fun clean => restored settled clean fails

end

end

/- core_module alone. -/
def coreOnly : World := ⟨1,Module.moduleLoad ⟨[],fun _ => none,fun _ => none⟩ 0,
  Function.update (fun _ => none) 0 (some ⟨"(core)",false⟩),fun _ => false,[]⟩

theorem coreSettled : Settled coreOnly where
  good := Module.loadSpec ⟨⟨by simp,by simp,by simp [Module.listOf],by simp [Module.listOf],by simp [Module.listOf]⟩,
    ⟨by simp [Module.names],by simp [Module.names],by simp [Module.names]⟩⟩ rfl
  some1 := List.cons_ne_nil _ _
  ids := by simp [coreOnly,Module.moduleLoad,Module.State.setModule]
  info := by simp [coreOnly,Module.moduleLoad,Module.State.setModule]
  last cur e newest found := by
    obtain rfl := Option.some.inj newest
    obtain rfl := Option.some.inj found
    rfl
  free a above := by
    have other : a ≠ 0 := Nat.ne_of_gt above
    exact ⟨by simp [coreOnly,other],rfl,rfl⟩

def library (ctors : Table) : Load := .mk ⟨"lib.c32",true,.read,true,[1],ctors,.absent,false⟩ []

def menu : Image := ⟨"menu.c32",true,.read,false,[1],.absent,.absent,true⟩

theorem menuFails {ctors : Table} {w1 w2 : World} (defined : ctors ≠ .noMemory)
    (namesake : unloadNamesake (moduleAlloc coreOnly menu.name) menu.name = some w1) :
    moduleLoad menu (loadNeeded [library ctors]) coreOnly.next w1 ≠ some (0,w2) := by
  obtain rfl := Option.some.inj namesake
  intro ran
  have failed : (moduleLoad menu (loadNeeded [library ctors]) coreOnly.next (moduleAlloc coreOnly menu.name)).map Prod.fst =
      some (-1) := by
    cases ctors with
    | absent => rfl
    | made => rfl
    | noMemory => exact absurd rfl defined
  rw [ran] at failed
  exact absurd failed (by simp)

theorem menuClean : SpawnClean 1 (.mk menu [library .absent]) coreOnly := by
  have core : ∀ (w : World) (cur : Nat) (i : Info) (name : String), w.graph.modulesHead.head? = some 0 →
      nameOf w 0 = some "(core)" → name ≠ "(core)" → w.graph.modulesHead.head? = some cur → w.info cur = some i →
      i.name = name → 1 ≤ cur := by
    rintro w cur i _ first named other newest found rfl
    obtain rfl := Option.some.inj (newest.symm.trans first)
    rw [nameOf,found] at named
    exact absurd (Option.some.inj named) other
  refine fun _ => ⟨fun cur i => core _ cur i _ rfl rfl (by decide),fun w1 namesake _ => ?_⟩
  obtain rfl := Option.some.inj namesake
  refine ⟨by decide,fun _ => ⟨⟨fun _ => ⟨fun cur i => core _ cur i _ rfl rfl (by decide),fun w2 namesake _ => ?_⟩,?_⟩,?_⟩⟩
  · obtain rfl := Option.some.inj namesake
    refine ⟨by decide,fun _ => ⟨trivial,fun head res w' newest ran => ?_⟩⟩
    obtain rfl := Option.some.inj newest
    obtain ⟨rfl,rfl⟩ := Prod.mk.inj (Option.some.inj ran)
    exact ⟨fun _ => by decide,fun _ => by decide⟩
  · exact fun _ _ _ => ⟨fun _ => by decide,fun _ => trivial⟩
  · intro head res w' newest ran
    obtain rfl := Option.some.inj newest
    obtain ⟨rfl,rfl⟩ := Prod.mk.inj (Option.some.inj ran)
    exact ⟨fun _ => by decide,fun _ => by decide⟩

theorem menuUndone : ∃ res w', spawnLoad (.mk menu [library .absent]) coreOnly = some (res,w') ∧ res ≠ 0 ∧
    w' = { coreOnly with next := w'.next } :=
  (undoneIff coreSettled fun _ _ _ => menuFails (by decide)).mpr menuClean

/- The table that the library has made for its constructors is never freed. -/
theorem tableStays : Settled coreOnly ∧
    (∀ w1 w2, unloadNamesake (moduleAlloc coreOnly menu.name) menu.name = some w1 →
      moduleLoad menu (loadNeeded [library .made]) coreOnly.next w1 ≠ some (0,w2)) ∧
    ∃ w', spawnLoad (.mk menu [library .made]) coreOnly = some (-1,w') ∧ coreOnly.tables = [] ∧ w'.tables = [5] := by
  have result : (spawnLoad (.mk menu [library .made]) coreOnly).map (fun r => (r.1,r.2.tables)) = some (-1,[5]) := rfl
  obtain ⟨⟨_,w'⟩,ran,same⟩ := Option.map_eq_some_iff.mp result
  obtain ⟨rfl,tables⟩ := Prod.mk.inj same
  exact ⟨coreSettled,fun _ _ => menuFails (by decide),w',ran,rfl,tables⟩

end Syslinux.Spawn
