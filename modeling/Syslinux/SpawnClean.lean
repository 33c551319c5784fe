import Syslinux.SpawnInvariant

/-! Where module_load leaves everything as it was or the module on the list, and where it does not. The
condition is about each turn of the run: what a load finds when it begins, when it fails, and when it
makes its tables. Outside it a freed structure is read, or something is lost for good. -/
namespace Syslinux.Spawn

section
variable (b : Nat)

/- A load from where the namesake has been looked for: dyn_table is set, the module that was the
newest before the dependencies is still there if it comes to the label error, and extract_operations
has its memory. -/
def LoadClean (image : Image) (needed : World → Option (Int × World)) (neededClean : World → Prop) (m : Nat)
    (w : World) : Prop :=
  findNamed w image.name w.graph.modulesHead = some none →
    image.start ≠ .unset ∧
    (image.start = .read →
      neededClean (setSegments w m image.name) ∧
      ∀ head res w', w.graph.modulesHead.head? = some head → needed (setSegments w m image.name) = some (res,w') →
        (res < 0 ∨ image.defined = false → head ∈ w'.graph.modulesHead) ∧
        (0 ≤ res → image.defined = true → image.ctors ≠ .noMemory ∧ image.dtors ≠ .noMemory))

mutual

/- spawn_load does not meet a namesake from before b as the newest module. -/
def SpawnClean : Load → World → Prop
  | .mk image needed,w => image.allocated = true →
      (∀ cur i, w.graph.modulesHead.head? = some cur → w.info cur = some i → i.name = image.name → b ≤ cur) ∧
      ∀ w', unloadNamesake (moduleAlloc w image.name) image.name = some w' →
        LoadClean image (loadNeeded needed) (NeededClean needed) w.next w'

def NeededClean : List Load → World → Prop
  | [],_ => True
  | l::rest,w => SpawnClean l w ∧ ∀ res w', spawnLoad l w = some (res,w') →
      (res = 0 → l.image.ctors ≠ .made ∧ l.image.dtors ≠ .made) ∧ (0 ≤ res → NeededClean rest w')

end

end

def Goes (b : World) (P : Nat → Option Info) (w : World) (r : Option (Int × World)) : Prop :=
  ∃ res w', r = some (res,w') ∧ Inv b P w' ∧ Later w.next w w' ∧ w'.tables = w.tables

def Image.makes (image : Image) : Prop := image.ctors = .made ∨ image.dtors = .made

/- How a load ends: the module is not on the list and its segments are gone, or it is the newest. -/
structure Ends (b : World) (P : Nat → Option Info) (image : Image) (m : Nat) (w : World) (res : Int) (w' : World) :
    Prop where
  later : Later m w w'
  refused : res ≠ 0 → Inv b (Function.update P m (some ⟨image.name,false⟩)) w' ∧
    w'.graph.modulesHead.head? = w.graph.modulesHead.head? ∧ w'.tables = w.tables
  loaded : res = 0 → Inv b (Function.update P m none) w' ∧ w'.graph.modulesHead.head? = some m ∧
    (image.makes → w.tables.length < w'.tables.length) ∧ (¬ image.makes → w'.tables = w.tables)

section
variable {b w w' : World} {P : Nat → Option Info} {h : Nat}

theorem extractSpec {image : Image} (ctors : image.ctors ≠ .noMemory) (dtors : image.dtors ≠ .noMemory) :
    ∃ w', extractOperations image w = (true,w') ∧ w'.graph = w.graph ∧ w'.info = w.info ∧ w'.segments = w.segments ∧
      w.next ≤ w'.next ∧ (image.makes → w.tables.length < w'.tables.length) ∧ (¬ image.makes → w'.tables = w.tables) := by
  refine ⟨_,by rw [extractOperations,if_neg (by simp [ctors,dtors])],?_⟩
  unfold Image.makes makeTable
  by_cases first : image.ctors = .made <;> by_cases second : image.dtors = .made <;> simp [first,second]
  omega

theorem loadReadClean (settled : Settled b) {image : Image} {needed : World → Option (Int × World)} {m : Nat}
    (inv : Inv b P w) (pending : P m = some ⟨image.name,true⟩)
    (unnamed : ∀ a ∈ w.graph.modulesHead, nameOf w a ≠ some image.name) (goes : Goes b P w (needed w))
    (clean : ∀ head res w', w.graph.modulesHead.head? = some head → needed w = some (res,w') →
      (res < 0 ∨ image.defined = false → head ∈ w'.graph.modulesHead) ∧
      (0 ≤ res → image.defined = true → image.ctors ≠ .noMemory ∧ image.dtors ≠ .noMemory)) :
    ∃ res w', loadRead image needed m w = some (res,w') ∧ Ends b P image m w res w' := by
  obtain ⟨head,newest⟩ := inv.some1 settled
  obtain ⟨res,w2,ran,inv2,later2,tables2⟩ := goes
  obtain ⟨stays,memory⟩ := clean head res w2 newest ran
  have below : m < w.next := (inv.pending m _ pending).2.1
  have headOld := inv.ids head (List.mem_of_head? newest)
  have plain := later2.plain head headOld (plainNewest newest (inv.good settled).stored.headOnce)
  have later : Later m w w2 := later2.mono (by omega)
  have fails : ∀ res' : Int, res' ≠ 0 → head ∈ w2.graph.modulesHead →
      ∃ w', failed w2 m (some head) res' = some (res',w') ∧ Ends b P image m w res' w' := fun res' nonzero here => by
    obtain ⟨w',ended,inv',more,newest',tables'⟩ := failedSpec settled res' inv2 pending here plain (inv.which newest)
    exact ⟨w',ended,later.trans more,fun _ => ⟨inv',newest'.trans newest.symm,tables'.trans tables2⟩,
      fun zero => absurd zero nonzero⟩
  by_cases bad : res < 0
  · obtain ⟨w',ended,ends⟩ := fails res (by omega) (stays (Or.inl bad))
    exact ⟨res,w',by simp [loadRead,newest,ran,bad,ended],ends⟩
  · by_cases undefined : image.defined = false
    · obtain ⟨w',ended,ends⟩ := fails (-1) (by omega) (stays (Or.inr undefined))
      exact ⟨-1,w',by simp [loadRead,newest,ran,bad,undefined,ended],ends⟩
    · obtain ⟨ctors,dtors⟩ := memory (by omega) (by simpa using undefined)
      obtain ⟨w3,enforced,inv3,list3,infos3,next3,tables3⟩ := listedSpec image.requires settled inv2 pending
      obtain ⟨w4,extracted,graph4,infos4,segments4,next4,made,unmade⟩ := extractSpec (w := w3) ctors dtors
      have inv4 := inv3.more graph4 infos4 segments4 next4
      have more : w2.next ≤ w4.next := next3.trans next4
      have list4 : w4.graph.modulesHead = m::w2.graph.modulesHead := by rw [graph4,list3]
      have names4 : ∀ a, nameOf w4 a = nameOf w2 a := fun a => by rw [nameOf,nameOf,infos4.trans infos3]
      have named : nameOf w2 m = some image.name := by
        rw [nameOf,(inv2.pending m _ pending).2.2.2.1]
        rfl
      refine ⟨0,w4,by simp [loadRead,newest,ran,bad,undefined,enforced,extracted],⟨?_,?_,?_,?_⟩,
        fun nonzero => absurd rfl nonzero,fun _ => ⟨inv4,by rw [list4]; rfl,fun makes => ?_,fun keeps => ?_⟩⟩
      · exact later.next.trans more
      · intro a inside
        rw [list4] at inside
        rcases List.mem_cons.mp inside with rfl | inside
        · exact Or.inr le_rfl
        · exact later.grown a inside
      · intro a old inside
        rw [list4] at inside
        have other : a ≠ m := by omega
        rw [names4]
        exact later.names a old ((List.mem_cons.mp inside).resolve_left other)
      · intro h old plain pre post shape k inside
        rw [list4] at shape
        cases pre with
        | nil => exact absurd inside List.not_mem_nil
        | cons x pre =>
          rw [List.cons_append,List.cons.injEq] at shape
          obtain ⟨rfl,rest⟩ := shape
          rw [names4,names4]
          rcases List.mem_cons.mp inside with rfl | inside
          · have here : h ∈ w2.graph.modulesHead := by rw [rest]; simp
            have before := (later.grown h here).resolve_right (by omega)
            rw [named,later.names h old here]
            exact (unnamed h before).symm
          · exact later.plain h old plain pre post rest k inside
      · exact lt_of_eq_of_lt (congrArg List.length (tables3.trans tables2).symm) (made makes)
      · rw [unmade keeps,tables3,tables2]

def Damaged (b w : World) : Prop :=
  (∃ a ∈ b.graph.modulesHead, a ∉ w.graph.modulesHead) ∨ b.tables.length < w.tables.length

theorem Damaged.later (settled : Settled b) (damaged : Damaged b w) (decay : Decay b.next w w') : Damaged b w' := by
  rcases damaged with ⟨a,inside,gone⟩ | more
  · exact Or.inl ⟨a,inside,fun back => gone (decay.list a (settled.ids a inside) back)⟩
  · exact Or.inr (lt_of_lt_of_le more decay.tables)

def Spoils (b : World) (r : Option (Int × World)) : Prop := ∀ res w', r = some (res,w') → Damaged b w'

theorem headGone (inv : Inv b P w) (newest : w.graph.modulesHead.head? = some h) (inv' : Inv b P w')
    (gone : h ∉ w'.graph.modulesHead) : w'.info h = none := by
  have here := List.mem_of_head? newest
  refine (inv'.dead h ?_ gone ?_).1
  · by_contra old
    obtain ⟨new,list,_⟩ := inv'.above.list
    have same := inv.above.bottom newest (by omega)
    exact gone (by rw [list]; exact List.mem_append_right _ (same ▸ here))
  · cases pending : P h with
    | none => rfl
    | some i => exact absurd here (inv.pending h i pending).2.2.1

/- unload_modules_since takes the module itself for one of its dependencies, and frees it. -/
theorem selfFreed (settled : Settled b) {m : Nat} {rest : List Nat} {rc : Int} (inv : Inv b P w)
    (list : w.graph.modulesHead = m::rest) (new : b.next ≤ m) (here : h ∈ rest) (other : nameOf w m ≠ nameOf w h) :
    failed w m (some h) rc = none := by
  have infos : ∀ a ∈ m::rest, ∃ i, w.info a = some i := fun a inside => inv.info settled (list ▸ inside)
  obtain ⟨i,found⟩ := infos m List.mem_cons_self
  obtain ⟨j,foundHead⟩ := infos h (List.mem_cons_of_mem _ here)
  have differ : i.name ≠ j.name := by simpa [nameOf,found,foundHead] using other
  have once := (inv.good settled).stored.headOnce
  rw [list] at once
  have stops : ∃ mod, mod ≠ m ∧ findNamed w j.name (m::rest) = some (some mod) := by
    rcases findNamedSpec j.name fun a inside => infos a (List.mem_cons_of_mem m inside) with
      ⟨_,none1⟩ | ⟨pre,mod,post,split,stopped,_,_⟩
    · exact absurd (by rw [nameOf,foundHead,Option.map_some]) (none1 h here)
    · refine ⟨mod,?_,by simp [findNamed,found,differ,stopped]⟩
      rintro rfl
      exact (List.nodup_cons.mp once).1 (by rw [split]; simp)
  obtain ⟨mod,another,stopped⟩ := stops
  obtain ⟨w1,released,_,_,_,_,gone,_⟩ := releaseNewest (n := 0) settled inv (by rw [list]; rfl) new
  simp only [failed,foundHead,unloadModulesSince,list,stopped,unloadUntil,if_neg another.symm,released,bind,Option.bind]
  cases ran : unloadUntil mod rest w1 with
  | none => rfl
  | some w2 => simp [clearLoad,(untilDecay (n := 0) ran).2 m gone]

/- Both lead to a freed structure: the newest module of before has gone, or the module itself, which
unload_modules_since takes for one of its dependencies. -/
theorem loadReadBad (settled : Settled b) {image : Image} {needed : World → Option (Int × World)} {m : Nat}
    (inv : Inv b P w) (pending : P m = some ⟨image.name,true⟩)
    (unnamed : ∀ a ∈ w.graph.modulesHead, nameOf w a ≠ some image.name) (goes : Goes b P w (needed w))
    (bad : ¬ ∀ head res w', w.graph.modulesHead.head? = some head → needed w = some (res,w') →
      (res < 0 ∨ image.defined = false → head ∈ w'.graph.modulesHead) ∧
      (0 ≤ res → image.defined = true → image.ctors ≠ .noMemory ∧ image.dtors ≠ .noMemory)) :
    loadRead image needed m w = none := by
  obtain ⟨res,w2,ran,inv2,later2,tables2⟩ := goes
  push Not at bad
  obtain ⟨head,res',w2',newest,ran',bad⟩ := bad
  obtain ⟨rfl,rfl⟩ := Prod.mk.inj (Option.some.inj (ran.symm.trans ran'))
  have dead := fun gone => headGone inv newest inv2 (h := head) gone
  have failsDead : ∀ (w' : World) (rc : Int), w'.info head = none → failed w' m (some head) rc = none :=
    fun w' rc gone => by simp [failed,gone]
  by_cases wrong : res < 0 ∨ image.defined = false
  · have gone : head ∉ w2.graph.modulesHead := fun here => by
      obtain ⟨nonneg,defined,_⟩ := bad fun _ => here
      rcases wrong with negative | undefined
      · omega
      · simp [undefined] at defined
    by_cases negative : res < 0
    · simp [loadRead,newest,ran,negative,failsDead w2 _ (dead gone)]
    · simp [loadRead,newest,ran,negative,wrong.resolve_left negative,failsDead w2 _ (dead gone)]
  · obtain ⟨_,_,memory⟩ := bad fun now => absurd now wrong
    rw [not_or] at wrong
    obtain ⟨w3,enforced,inv3,list3,infos3,next3,tables3⟩ := listedSpec image.requires settled inv2 pending
    have extracted : extractOperations image w3 = (false,w3) := by
      refine if_pos ?_
      by_contra fine
      rw [not_or] at fine
      exact fine.2 (memory fine.1)
    have fails : failed w3 m (some head) (-1) = none := by
      by_cases here : head ∈ w2.graph.modulesHead
      · refine selfFreed settled inv3 list3 (inv.pending m _ pending).1 here ?_
        have before := List.mem_of_head? newest
        have names3 : ∀ a, nameOf w3 a = nameOf w2 a := fun a => by rw [nameOf,nameOf,infos3]
        rw [names3,names3,later2.names head (inv.ids head before) here,nameOf,(inv2.pending m _ pending).2.2.2.1]
        exact (unnamed head before).symm
      · exact failsDead w3 _ (by rw [infos3]; exact dead here)
    simp [loadRead,newest,ran,wrong,enforced,extracted,fails]

theorem Ends.before {m : Nat} {i j : Info} {image : Image} {res : Int} (inv : Inv b P w) (pending : P m = some i)
    (ends : Ends b (Function.update P m (some j)) image m { w with
      info := Function.update w.info m (some j), segments := Function.update w.segments m j.moduleAddr } res w') :
    Ends b P image m w res w' := by
  obtain ⟨later,refused,loaded⟩ := ends
  rw [Function.update_idem] at refused loaded
  exact ⟨(inv.changedLater pending).trans later,refused,loaded⟩

theorem clearEnds {m : Nat} {i : Info} (image : Image) (res : Int) (inv : Inv b P w) (pending : P m = some i)
    (named : i.name = image.name) (nonzero : res ≠ 0) :
    ∃ w', failed w m none res = some (res,w') ∧ Ends b P image m w res w' := by
  obtain ⟨w',ran,inv',later,graph,tables⟩ := clearLoadSpec (n := m) res inv pending
  exact ⟨w',ran,later,fun _ => ⟨named ▸ inv',by rw [graph],tables⟩,fun zero => absurd zero nonzero⟩

section
variable {image : Image} {needed : World → Option (Int × World)} {neededClean : World → Prop} {m : Nat}

theorem setSegmentsInv (inv : Inv b P w) (pending : P m = some ⟨image.name,false⟩) :
    Inv b (Function.update P m (some ⟨image.name,true⟩)) (setSegments w m image.name) := inv.changed pending

theorem setSegmentsNames (inv : Inv b P w) (pending : P m = some ⟨image.name,false⟩)
    (unnamed : ∀ a ∈ w.graph.modulesHead, nameOf w a ≠ some image.name) :
    ∀ a ∈ (setSegments w m image.name).graph.modulesHead, nameOf (setSegments w m image.name) a ≠ some image.name := by
  intro a inside
  have other : a ≠ m := ne_of_mem_of_not_mem inside (inv.pending m _ pending).2.2.1
  have same : nameOf (setSegments w m image.name) a = nameOf w a := by simp [nameOf,setSegments,other]
  rw [same]
  exact unnamed a inside

theorem loadClean (settled : Settled b) (inv : Inv b P w) (pending : P m = some ⟨image.name,false⟩)
    (good : ∀ P w, Inv b P w → neededClean w → Goes b P w (needed w))
    (clean : LoadClean image needed neededClean m w) :
    ∃ res w', moduleLoad image needed m w = some (res,w') ∧ Ends b P image m w res w' := by
  have stays : ∀ res : Int, res ≠ 0 → Ends b P image m w res w := fun res nonzero =>
    ⟨.refl w,fun _ => ⟨by rwa [← pending,Function.update_eq_self],rfl,rfl⟩,fun zero => absurd zero nonzero⟩
  have infos : ∀ a ∈ w.graph.modulesHead, ∃ i, w.info a = some i := fun a inside => inv.info settled inside
  rcases findNamedSpec image.name infos with ⟨passed,unnamed⟩ | ⟨_,_,_,_,stopped,_,_⟩
  · obtain ⟨set,reads⟩ := clean passed
    have inv1 := setSegmentsInv inv pending
    have pending1 : Function.update P m (some ⟨image.name,true⟩) m = some ⟨image.name,true⟩ := by simp
    cases start : image.start with
    | noFile => exact ⟨-1,w,by simp [moduleLoad,passed,start],stays _ (by omega)⟩
    | refused segments =>
      cases segments with
      | false =>
        obtain ⟨w',ran,ends⟩ := clearEnds image (-1) inv pending rfl (by omega)
        exact ⟨-1,w',by simpa [moduleLoad,passed,start] using ran,ends⟩
      | true =>
        obtain ⟨w',ran,ends⟩ := clearEnds image (-1) inv1 pending1 rfl (by omega)
        exact ⟨-1,w',by simp [moduleLoad,passed,start,ran],ends.before inv pending⟩
    | unset => exact absurd start set
    | read =>
      obtain ⟨below,clean⟩ := reads start
      have unnamed1 := setSegmentsNames inv pending unnamed
      obtain ⟨res,w',ran,ends⟩ := loadReadClean settled inv1 pending1 unnamed1 (good _ _ inv1 below) clean
      exact ⟨res,w',by simp [moduleLoad,passed,start,ran],ends.before inv pending⟩
  · exact ⟨eexist,w,by simp [moduleLoad,stopped],stays _ (by decide)⟩

theorem loadBad (settled : Settled b) (inv : Inv b P w) (pending : P m = some ⟨image.name,false⟩)
    (good : ∀ P w, Inv b P w → neededClean w → Goes b P w (needed w))
    (bad : ∀ P w, Inv b P w → b.tables.length ≤ w.tables.length → ¬ neededClean w → Spoils b (needed w))
    (tables : b.tables.length ≤ w.tables.length) (unclean : ¬ LoadClean image needed neededClean m w) :
    Spoils b (moduleLoad image needed m w) := by
  unfold LoadClean at unclean
  push Not at unclean
  obtain ⟨passed,wrong⟩ := unclean
  have inv1 := setSegmentsInv inv pending
  have pending1 : Function.update P m (some ⟨image.name,true⟩) m = some ⟨image.name,true⟩ := by simp
  have new := (inv.pending m _ pending).1
  by_cases unset : image.start = .unset
  · have stuck : moduleLoad image needed m w = none := by simp [moduleLoad,passed,unset]
    rw [stuck]
    exact fun _ _ ran => absurd ran (by simp)
  · obtain ⟨read,wrong⟩ := wrong unset
    have runs : moduleLoad image needed m w = loadRead image needed m (setSegments w m image.name) := by
      simp [moduleLoad,passed,read]
    rw [runs]
    by_cases below : neededClean (setSegments w m image.name)
    · have unnamed : ∀ a ∈ w.graph.modulesHead, nameOf w a ≠ some image.name := fun a inside => by
        have infos : ∀ a ∈ w.graph.modulesHead, ∃ i, w.info a = some i := fun a inside => inv.info settled inside
        rcases findNamedSpec image.name infos with ⟨_,unnamed⟩ | ⟨_,_,_,_,stopped,_⟩
        · exact unnamed a inside
        · exact absurd (passed.symm.trans stopped) (by simp)
      have stuck := loadReadBad settled inv1 pending1 (setSegmentsNames inv pending unnamed) (good _ _ inv1 below)
        (by push Not; exact wrong below)
      intro _ _ ran
      exact absurd (ran.symm.trans stuck) (by simp)
    · intro res w' ran
      obtain ⟨rc,w1,loads,decay⟩ := loadReadAfter new ran
      exact (bad _ _ inv1 tables below rc w1 loads).later settled decay

end

end

end Syslinux.Spawn
