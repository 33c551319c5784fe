import Syslinux.ReadconfigRefs

/-! com32/elflink/ldlinux/readconfig.c: the counts of the strings agree with the fields and variables that hold them
between any two assignments of parse_configs, but for what four of its commands do. -/
namespace Syslinux.Readconfig
open Refstr

/- The variables that hold nothing when they are assigned to for the first time: fields of what is not there yet, of
the label before there is one, and the local variables. -/
def Vacant (depth : Nat) (d : Data) : Slot → Prop
  | .ld _ => d.ld.label = none
  | .ontimeout => d.ontimeout = none
  | .entry e _ => d.allEntries.length ≤ e
  | .menu m _ => d.menus.length ≤ m
  | .temp _ => True
  | .file k => k < depth
  | _ => False

def vacant (depth : Nat) (d : Data) : Set Slot := {s | Vacant depth d s}

/- What the commands leave as it is, all but label, separator and ontimeout. -/
structure SameShape (d d' : Data) : Prop where
  entries : d'.allEntries.length = d.allEntries.length
  menus : d'.menus.map Menu.parentEntry = d.menus.map Menu.parentEntry
  label : d'.ld.label = none ↔ d.ld.label = none
  ontimeout : d'.ontimeout = d.ontimeout

structure Placed (s : State) : Prop where
  current : s.tree.current < s.data.menus.length
  parents : s.tree.parents.length = s.data.menus.length
  below : ∀ m p, s.tree.parent m = some p → p < s.data.menus.length
  entry : ∀ e, some e ∈ s.data.menus.map Menu.parentEntry → e < s.data.allEntries.length

section
variable {env : Env} {d d' d'' : Data} {t : Tree} {m e depth : Nat} {s s' : State} {slot : Slot}

theorem memVacant : slot ∈ vacant depth d ↔ Vacant depth d slot := Iff.rfl

theorem SameShape.lengths (same : SameShape d d') : d'.menus.length = d.menus.length := by
  simpa using congrArg List.length same.menus

theorem sameVacant (same : SameShape d d') : vacant depth d' = vacant depth d := by
  ext slot
  cases slot <;> simp only [memVacant,Vacant,same.entries,same.lengths,same.label,same.ontimeout]

theorem sameRefl (d : Data) : SameShape d d := ⟨rfl,rfl,Iff.rfl,rfl⟩

theorem SameShape.trans (same : SameShape d d') (same' : SameShape d' d'') : SameShape d d'' :=
  ⟨same'.entries.trans same.entries,same'.menus.trans same.menus,same'.label.trans same.label,
    same'.ontimeout.trans same.ontimeout⟩

theorem sameIte {p : Prop} [Decidable p] (same : SameShape d d') (other : SameShape d d'') :
    SameShape d (if p then d' else d'') := by
  split
  · exact same
  · exact other

theorem sameSetMenu {f : Menu → Menu} (kept : ∀ menu, (f menu).parentEntry = menu.parentEntry) :
    SameShape d (setMenu d m f) := by
  refine ⟨rfl,?_,Iff.rfl,rfl⟩
  apply List.ext_getElem (by simp [setMenu])
  intro i less less'
  simp only [setMenu,List.getElem_map,List.getElem_modify]
  split
  · exact kept _
  · rfl

theorem sameSetEntry (f : Entry → Entry) : SameShape d (setEntry d e f) :=
  ⟨by simp [setEntry],rfl,Iff.rfl,rfl⟩

theorem sameHotkey : SameShape d (considerForHotkey d m e) := by
  unfold considerForHotkey
  split
  · dsimp only
    split
    · exact (sameSetEntry _).trans (sameSetMenu fun _ => rfl)
    · exact sameRefl d
  · exact sameRefl d

theorem sameInLabel {f : Labeldata → Labeldata} (kept : ∀ ld, (f ld).label = ld.label) (other : SameShape d d') :
    SameShape d (inLabel d f d') := by
  unfold inLabel
  split
  · exact other
  · exact ⟨rfl,rfl,by simp [setLd,kept],rfl⟩

def Reshapes : Command → Prop
  | .label _ => True
  | .menuSeparator => True
  | .ontimeout _ => True
  | _ => False

theorem executeShape (c : Command) (plain : ¬ Reshapes c) : SameShape d (execute env t m d c) := by
  cases c with
  | label _ => exact absurd trivial plain
  | menuSeparator => exact absurd trivial plain
  | ontimeout _ => exact absurd trivial plain
  | menuLabel arg =>
    refine sameInLabel (fun _ => rfl) ?_
    split
    · exact sameRefl d
    · exact ((sameSetEntry _).trans sameHotkey).trans (sameSetMenu fun menu => by split <;> rfl)
  | menuTitle arg =>
    have titled : SameShape d (setMenu d m fun menu => { menu with title := arg }) := sameSetMenu fun _ => rfl
    simp only [execute]
    split
    · exact titled
    · exact titled.trans (sameSetEntry _)
  | menuDefault =>
    refine sameInLabel (fun _ => rfl) ?_
    split
    · exact sameRefl d
    · exact sameSetMenu fun _ => rfl
  | menuPasswd arg =>
    refine sameInLabel (fun _ => rfl) ?_
    split
    · exact sameRefl d
    · exact sameSetEntry _
  | menuSave =>
    have saving : SameShape d { d with menusave := true } := ⟨rfl,rfl,Iff.rfl,rfl⟩
    exact saving.trans (sameInLabel (fun _ => rfl) (sameSetMenu fun _ => rfl))
  | menuNosave => exact sameInLabel (fun _ => rfl) (sameSetMenu fun _ => rfl)
  | menuOnerror arg => exact (sameSetMenu (f := fun menu => { menu with onerror := some arg }) fun _ => rfl).trans ⟨rfl,rfl,Iff.rfl,rfl⟩
  | onerror arg => exact (sameSetMenu (f := fun menu => { menu with onerror := some arg }) fun _ => rfl).trans ⟨rfl,rfl,Iff.rfl,rfl⟩
  | menuMaster arg =>
    simp only [execute]
    split
    · exact sameRefl d
    · exact sameSetMenu fun _ => rfl
  | menuBackground arg => exact sameSetMenu fun _ => rfl
  | menuMessage msgnr arg => exact sameSetMenu fun _ => rfl
  | menuColor arg => exact sameSetMenu fun menu => by split <;> rfl
  | menuMsgcolor arg => exact sameSetMenu fun _ => rfl
  | menuParameter mp arg => exact sameSetMenu fun _ => rfl
  | fkey fkeyno arg => exact sameSetMenu fun _ => rfl
  | menuQuit => exact sameInLabel (fun _ => rfl) (sameRefl d)
  | menuGoto arg => exact sameInLabel (fun _ => rfl) (sameRefl d)
  | menuExit arg =>
    simp only [execute]
    split
    · exact sameRefl d
    · exact sameIte (sameInLabel (fun _ => rfl) (sameRefl d)) (sameInLabel (fun _ => rfl) (sameRefl d))
  | append arg => exact sameInLabel (fun _ => rfl) ⟨rfl,rfl,Iff.rfl,rfl⟩
  | initrd arg => exact sameInLabel (fun _ => rfl) (sameRefl d)
  | kernel type arg => exact sameInLabel (fun _ => rfl) (sameRefl d)
  | sysappend arg => exact sameInLabel (fun _ => rfl) ⟨rfl,rfl,Iff.rfl,rfl⟩
  | default arg => exact sameIte ⟨rfl,rfl,Iff.rfl,rfl⟩ ⟨rfl,rfl,Iff.rfl,rfl⟩
  | serial arg => exact sameIte ⟨rfl,rfl,Iff.rfl,rfl⟩ ⟨rfl,rfl,Iff.rfl,rfl⟩
  | sendcookies arg => exact sameIte ⟨rfl,rfl,Iff.rfl,rfl⟩ (sameRefl d)
  | _ => exact ⟨rfl,rfl,Iff.rfl,rfl⟩

theorem recordNone (none' : d.ld.label = none) : record env m d = d := by
  simp only [record,none',if_true]

theorem recordShape (some' : d.ld.label ≠ none) : (record env m d).allEntries.length = d.allEntries.length + 1 ∧
    (record env m d).menus.map Menu.parentEntry = d.menus.map Menu.parentEntry ∧ (record env m d).ld.label = none ∧
    (record env m d).ontimeout = d.ontimeout := by
  have added (m : Nat) (fill : Entry → Entry) :
      SameShape { d with allEntries := d.allEntries ++ [fill (emptyEntry m (nentries d m))] } (newEntry d m fill) :=
    sameSetMenu fun _ => rfl
  have hotkey (m : Nat) (fill : Entry → Entry) : SameShape { d with allEntries := d.allEntries ++ [fill (emptyEntry m (nentries d m))] }
      (if d.ld.menulabel = none then newEntry d m fill else considerForHotkey (newEntry d m fill) m d.allEntries.length) :=
    sameIte (added m fill) ((added m fill).trans sameHotkey)
  have shape (m m' : Nat) (fill : Entry → Entry) (p : Prop) [Decidable p] :
      SameShape { d with allEntries := d.allEntries ++ [fill (emptyEntry m (nentries d m))] }
        (if p then setMenu (if d.ld.menulabel = none then newEntry d m fill
            else considerForHotkey (newEntry d m fill) m d.allEntries.length) m'
            (fun menu => { menu with defentry := menu.entries.length - 1 })
          else if d.ld.menulabel = none then newEntry d m fill
            else considerForHotkey (newEntry d m fill) m d.allEntries.length) :=
    sameIte ((hotkey m fill).trans (sameSetMenu fun _ => rfl)) (hotkey m fill)
  unfold record
  rw [if_neg some']
  dsimp only
  refine ⟨?_,?_,rfl,?_⟩
  · exact (shape _ _ _ _).entries.trans (by simp)
  · exact (shape _ _ _ _).menus
  · exact (shape _ _ _ _).ontimeout

theorem recordVacant (some' : d.ld.label ≠ none) :
    vacant depth (record env m d) ⊆ (vacant depth d \ {s | ∃ field, s = .entry d.allEntries.length field}) ∪
      {s | ∃ field, s = .ld field} := by
  obtain ⟨entries,menus,label,ontimeout⟩ := @recordShape env d m some'
  have lengths : (record env m d).menus.length = d.menus.length := by simpa using congrArg List.length menus
  intro slot inside
  cases slot with
  | ld field => exact .inr ⟨field,rfl⟩
  | entry e field =>
    have behind : (record env m d).allEntries.length ≤ e := inside
    refine .inl ⟨show d.allEntries.length ≤ e by omega,?_⟩
    rintro ⟨field',same⟩
    injection same with at'
    omega
  | menu m' field =>
    have behind : (record env m d).menus.length ≤ m' := inside
    exact .inl ⟨show d.menus.length ≤ m' by omega,fun ⟨_,same⟩ => nomatch same⟩
  | ontimeout => exact .inl ⟨ontimeout.symm.trans inside,fun ⟨_,same⟩ => nomatch same⟩
  | temp l => exact .inl ⟨trivial,fun ⟨_,same⟩ => nomatch same⟩
  | file k => exact .inl ⟨inside,fun ⟨_,same⟩ => nomatch same⟩
  | _ => exact inside.elim

theorem commandFills {E : Set Slot} {e : Nat} (line : .entry e .cmdline ∈ E) :
    Keeps E (match recordAction d.ld with
      | .cmd => [[.alloc (.entry e .cmdline)]]
      | .gotoUnres => [[.get (.entry e .cmdline) (.ld .kernel)]]
      | .exitUnres => [[.get (.entry e .cmdline) (.ld .kernel)]]
      | _ => []) (E \ {.entry e .cmdline}) := by
  split
  · exact (assignsAlloc line).keeps
  · exact (assignsGet line).keeps
  · exact (assignsGet line).keeps
  · exact (keepsNil E).weaken Set.sdiff_subset

/- The fields of the new entry are filled, and those of the label are given back. -/
theorem recordFills {E : Set Slot} (some' : d.ld.label ≠ none) (new : ∀ field, .entry d.allEntries.length field ∈ E)
    (dn : .temp .dn ∈ E) :
    Keeps E (recordRefs d) ((E \ {s | ∃ field, s = .entry d.allEntries.length field}) ∪ {s | ∃ field, s = .ld field}) := by
  let e := d.allEntries.length
  let E1 : Set Slot := ((E \ {.entry e .displayname}) \ {.entry e .label}) \ {.entry e .passwd}
  have first : Keeps E [[.get (.entry e .displayname) (.ld (if d.ld.menulabel = none then .label else .menulabel))],
      [.get (.entry e .label) (.ld .label)],[.get (.entry e .passwd) (.ld .passwd)]] E1 :=
    (assignsGet (new .displayname)).cons ((assignsGet (E := E \ {_}) ⟨new .label,by simp⟩).cons
      (assignsGet (E := (E \ {_}) \ {_}) ⟨⟨new .passwd,by simp⟩,by simp⟩).keeps)
  have shown : .entry e .displayname ∉ E1 := fun mem => mem.1.1.2 rfl
  have indent : Keeps E1 (if d.ld.menuindent = 0 then []
      else [[.alloc (.temp .dn)],[.put (.entry e .displayname),.move (.entry e .displayname) (.temp .dn)]]) E1 := by
    split
    · exact keepsNil E1
    · exact keepsTake shown ⟨⟨⟨dn,by simp⟩,by simp⟩,by simp⟩
  have separator : Keeps E1 (if d.ld.menuseparator then
      [[.put (.entry e .displayname),.get (.entry e .displayname) .emptyString]] else []) E1 := by
    split
    · exact keepsShare shown (by simp)
    · exact keepsNil E1
  have disabled : Keeps E1 (if d.ld.menuseparator || d.ld.menudisabled then
      [[.put (.entry e .label),.null (.entry e .label)],[.put (.entry e .passwd),.null (.entry e .passwd)]] else []) E1 := by
    split
    · exact (keepsForget _).append (keepsForget _)
    · exact keepsNil E1
  have line : .entry e .cmdline ∈ E1 := ⟨⟨⟨new _,by simp⟩,by simp⟩,by simp⟩
  have command := commandFills (d := d) line
  have cleared : Keeps (E1 \ {.entry e .cmdline}) [clearLabelRefs] _ :=
    (assignsClear (by decide)).keeps
  have all := ((((first.append indent).append separator).append disabled).append command).append cleared
  simp only [recordRefs,if_neg some']
  refine all.weaken fun slot => ?_
  rintro (⟨inside,other⟩ | ⟨field,rfl⟩)
  · have differs (field : EntryField) : slot ≠ .entry e field := fun same => other ⟨field,same⟩
    exact .inl ⟨⟨⟨⟨inside,differs _⟩,differs _⟩,differs _⟩,differs _⟩
  · exact .inr (by cases field <;> simp)

theorem recordBalanced (env : Env) (m depth : Nat) (d : Data) :
    Keeps (vacant depth d) (recordRefs d) (vacant depth (record env m d)) := by
  by_cases none' : d.ld.label = none
  · rw [recordNone none',recordRefs,if_pos none']
    exact keepsNil _
  · have new (field : EntryField) : .entry d.allEntries.length field ∈ vacant depth d := le_refl d.allEntries.length
    have dn : .temp .dn ∈ vacant depth d := True.intro
    exact (recordFills none' new dn).weaken (recordVacant none')

theorem numberedOnce (n : Nat) {f : Nat → MenuField} (injective : Function.Injective f) : ((List.range n).map f).Nodup :=
  List.nodup_range.map injective

theorem inheritedOnce : inherited.Nodup := by
  have message := numberedOnce 5 (f := .message) fun _ _ => MenuField.message.inj
  have ansi := numberedOnce 274 (f := .ansi) fun _ _ => MenuField.ansi.inj
  have textname := numberedOnce 12 (f := .textname) fun _ _ => MenuField.textname.inj
  have background := numberedOnce 12 (f := .fkeyBackground) fun _ _ => MenuField.fkeyBackground.inj
  have own : [MenuField.ontimeout,.onerror,.masterPasswd,.background].Nodup := by decide
  refine (((message.append own ?_).append ansi ?_).append textname ?_).append background ?_
  all_goals
    intro f mem mem'
    cases f <;> simp at mem mem'

theorem topOnce : topFields.Nodup := by
  have ansi := numberedOnce 274 (f := .ansi) fun _ _ => MenuField.ansi.inj
  refine List.Nodup.append (by decide) ansi fun f mem mem' => ?_
  cases f <;> simp at mem mem'

theorem fieldsFill {E : Set Slot} {fields : List MenuField} {f : MenuField → List (Stmt Slot)} (once : fields.Nodup)
    (new : ∀ field ∈ fields, .menu m field ∈ E)
    (one : ∀ field, ∀ E : Set Slot, .menu m field ∈ E → Assigns E (f field) (E \ {.menu m field})) :
    Keeps E (fields.map f) (E \ {s | ∃ field, s = .menu m field}) :=
  (Keeps.fills (once.map (f := fun field => Slot.menu m field) fun _ _ same => by injection same) new
    (fun field _ => one field)).weaken fun slot mem => ⟨mem.1,fun inside => by
      obtain ⟨field,_,rfl⟩ := List.mem_map.mp inside
      exact mem.2 ⟨field,rfl⟩⟩

theorem beginVacant (tag : Text) (s : State) : vacant depth (beginSubmenu tag s).data ⊆
    (vacant depth s.data \ {slot | slot = .entry s.data.allEntries.length .displayname}) \
      {slot | ∃ field, slot = .menu s.data.menus.length field} := by
  have entries : (beginSubmenu tag s).data.allEntries.length = s.data.allEntries.length + 1 := by
    simp [beginSubmenu,newEntry,setMenu]
  have menus : (beginSubmenu tag s).data.menus.length = s.data.menus.length + 1 := by
    simp [beginSubmenu,newEntry,setMenu]
  intro slot inside
  cases slot with
  | entry e field =>
    have behind : (beginSubmenu tag s).data.allEntries.length ≤ e := inside
    refine ⟨⟨show s.data.allEntries.length ≤ e by omega,fun same => ?_⟩,fun ⟨_,same⟩ => nomatch same⟩
    injection same with at'
    omega
  | menu m field =>
    have behind : (beginSubmenu tag s).data.menus.length ≤ m := inside
    refine ⟨⟨show s.data.menus.length ≤ m by omega,fun same => nomatch same⟩,fun ⟨_,same⟩ => ?_⟩
    injection same with at'
    omega
  | ld field => exact ⟨⟨inside,fun same => nomatch same⟩,fun ⟨_,same⟩ => nomatch same⟩
  | ontimeout => exact ⟨⟨inside,fun same => nomatch same⟩,fun ⟨_,same⟩ => nomatch same⟩
  | temp l => exact ⟨⟨trivial,fun same => nomatch same⟩,fun ⟨_,same⟩ => nomatch same⟩
  | file k => exact ⟨⟨inside,fun same => nomatch same⟩,fun ⟨_,same⟩ => nomatch same⟩
  | _ => exact inside.elim

theorem beginBalanced (tag : Text) (depth : Nat) (s : State) :
    Keeps (vacant depth s.data) (beginRefs tag s.tree.current s.data) (vacant depth (beginSubmenu tag s).data) := by
  let e := s.data.allEntries.length
  let m := s.data.menus.length
  let E : Set Slot := vacant depth s.data \ {slot | slot = .entry e .displayname}
  have shown : Keeps (vacant depth s.data) (if tag = [] then [] else [[.alloc (.entry e .displayname)]]) E := by
    split
    · exact (keepsNil _).weaken Set.sdiff_subset
    · have vacancy : .entry e .displayname ∈ vacant depth s.data := le_refl e
      exact (assignsAlloc vacancy).keeps
  have new (field : MenuField) : .menu m field ∈ E := ⟨le_refl m,fun same => nomatch same⟩
  have own : Keeps E [[.get (.menu m .label) (.entry e .displayname)],[.get (.menu m .title) .emptyString]]
      ((E \ {.menu m .label}) \ {.menu m .title}) :=
    (assignsGet (new .label)).cons (assignsGet (E := E \ {_}) ⟨new .title,by simp⟩).keeps
  have taken : Keeps ((E \ {.menu m .label}) \ {.menu m .title})
      (inherited.map fun f => [.get (.menu m f) (.menu s.tree.current f)]) _ :=
    fieldsFill inheritedOnce (fun field mem => ⟨⟨new field,fun same => by
      injection same with _ same
      subst same
      exact absurd mem (by simp [inherited])⟩,fun same => by
      injection same with _ same
      subst same
      exact absurd mem (by simp [inherited])⟩) (fun field E inside => assignsGet inside)
  refine ((shown.append own).append taken).weaken fun slot inside => ?_
  obtain ⟨old,other⟩ := beginVacant tag s inside
  exact ⟨⟨⟨old,fun same => other ⟨_,same⟩⟩,fun same => other ⟨_,same⟩⟩,other⟩

theorem replaceKeeps {E : Set Slot} (filled : slot ∉ E) : Keeps E (replace slot) E := keepsReplace filled

theorem keepsIte {E : Set Slot} {p : Prop} [Decidable p] {bs cs : Program Slot} (first : p → Keeps E bs E) (second : ¬ p → Keeps E cs E) :
    Keeps E (if p then bs else cs) E := by
  split
  · exact first ‹_›
  · exact second ‹_›

theorem takeKeeps (filled : slot ∉ vacant depth d) : Keeps (vacant depth d) ([[.alloc (.temp .a)]] ++ takeA slot) (vacant depth d) :=
  keepsTake filled True.intro

theorem pathKeeps (arg comp : Text) : Keeps (vacant depth d) (pathRefs arg comp) (vacant depth d) := by
  have str : Keeps (vacant depth d) (temporary (.temp .str)) (vacant depth d) := keepsTemporary True.intro
  induction arg generalizing comp with
  | nil => exact keepsIte (fun _ => keepsNil _) (fun _ => str)
  | cons c p ih =>
    exact keepsIte (fun _ => str.append (keepsIte (fun _ => keepsNil _) (fun _ => ih []))) (fun _ => ih (comp ++ [c]))

theorem filenameKeeps {arg : Text} (empty : kernelNameOf arg = []) :
    Keeps (vacant depth d) (filenameRefs arg) (vacant depth d) := by
  have still : Assigns (vacant depth d \ {.temp .filename})
      [.advance (.temp .filename) (kernelNameOf arg).length,.put (.temp .filename),.null (.temp .filename)]
      (insert (.temp .filename) (vacant depth d \ {.temp .filename})) := fun r sound => by
    rw [empty,List.length_nil,advanceNone]
    exact putNull (.temp .filename) r sound
  have free : .temp .filename ∈ vacant depth d := True.intro
  exact ((assignsAlloc free).cons still.keeps).weaken fun slot mem => by
    by_cases same : slot = .temp .filename
    · exact .inl same
    · exact .inr ⟨mem,same⟩

theorem labelFilled (some' : d.ld.label ≠ none) (field : LabelField) : .ld field ∉ vacant depth d := some'

theorem menuFilled (placed : m < d.menus.length) (field : MenuField) : .menu m field ∉ vacant depth d := fun inside => by
  have behind : d.menus.length ≤ m := inside
  omega

theorem entryFilled (placed : Placed ⟨t,d⟩) (parent : parentEntry d m = some e) (field : EntryField) :
    .entry e field ∉ vacant depth d := fun inside => by
  obtain ⟨menu,at',own⟩ := Option.bind_eq_some_iff.mp parent
  have behind : d.allEntries.length ≤ e := inside
  have before := placed.entry e (List.mem_map.mpr ⟨menu,List.mem_of_getElem? at',own⟩)
  exact absurd before (by simpa using behind)

/- All but the commands that give a label, a separator or ontimeout. -/
theorem executeKeeps' (placed : Placed ⟨t,d⟩) (at' : m < d.menus.length) (c : Command) (plain : ¬ Reshapes c)
    (allowed : Allowed (.execute t m d c)) :
    Keeps (vacant depth d) (executeRefs env t m d c) (vacant depth d) := by
  have onerror : Keeps (vacant depth d) (onerrorRefs m) (vacant depth d) :=
    (replaceKeeps (menuFilled at' _)).append (replaceKeeps fun inside => inside)
  cases c with
  | label _ => exact absurd trivial plain
  | menuSeparator => exact absurd trivial plain
  | ontimeout _ => exact absurd trivial plain
  | menuLabel arg =>
    refine keepsIte (fun _ => ?_) (fun some' => replaceKeeps (labelFilled some' _))
    unfold menuLabelRefs
    split
    · exact keepsNil _
    rename_i e parent
    refine (replaceKeeps (entryFilled placed parent _)).append (keepsIte (fun _ => ?_) (fun _ => keepsNil _))
    exact keepsIte (fun _ => replaceKeeps (menuFilled at' _)) (fun _ => keepsShare (menuFilled at' _) (by simp))
  | menuTitle arg =>
    refine (replaceKeeps (menuFilled at' _)).append ?_
    split
    · exact keepsNil _
    rename_i e parent
    exact keepsIte (fun _ => keepsShare (entryFilled placed parent _) (by simp)) (fun _ => keepsNil _)
  | menuPasswd arg =>
    refine keepsIte (fun _ => ?_) (fun some' => replaceKeeps (labelFilled some' _))
    cases parent : parentEntry d m with
    | none => exact keepsNil _
    | some e => exact replaceKeeps (entryFilled placed parent _)
  | menuOnerror arg => exact onerror
  | onerror arg => exact onerror
  | menuMaster arg => exact keepsIte (fun _ => replaceKeeps (menuFilled at' _)) (fun _ => keepsNil _)
  | menuBackground arg => exact replaceKeeps (menuFilled at' _)
  | menuMessage msgnr arg => exact replaceKeeps (menuFilled at' _)
  | menuColor arg =>
    simp only [executeRefs]
    cases d.menus[m]? with
    | none => exact keepsNil _
    | some menu =>
      simp only [Option.elim_some,colorRefs]
      split
      · exact keepsNil _
      · exact keepsIte (fun _ => keepsNil _) (fun _ => replaceKeeps (menuFilled at' _))
  | menuGoto arg => exact keepsIte (fun _ => keepsNil _) (fun some' => replaceKeeps (labelFilled some' _))
  | menuExit arg =>
    exact keepsIte (fun _ => keepsNil _) (fun some' => replaceKeeps (labelFilled (fun none' => some' (.inl none')) _))
  | fkey fkeyno arg =>
    let background : Slot := .menu m (.fkeyBackground fkeyno)
    have filled : background ∉ vacant depth d := menuFilled at' _
    have text : .menu m (.textname fkeyno) ∉ insert background (vacant depth d) := by
      rintro (same | inside)
      · exact absurd same (by simp [background])
      · exact menuFilled at' _ inside
    have last : Keeps (insert background (vacant depth d))
        (if afterWord arg = [] then [] else [[.alloc background]]) (vacant depth d) := by
      split
      · exact (keepsNil _).weaken (Set.subset_insert _ _)
      · exact (assignsAlloc (Set.mem_insert _ _)).keeps.weaken fun slot mem => ⟨.inr mem,fun same => filled (same ▸ mem)⟩
    exact (((keepsForget _).append (putNull background).keeps).append (keepsReplace text)).append last
  | append arg => 
    simp only [executeRefs]
    split
    · exact takeKeeps fun inside => inside
    · exact takeKeeps (labelFilled ‹_› _)
  | initrd arg =>
    have some' : d.ld.label ≠ none := of_decide_eq_true allowed
    simp only [executeRefs,if_neg some']
    exact takeKeeps (labelFilled some' _)
  | kernel type arg => exact keepsIte (fun _ => keepsNil _) (fun some' => replaceKeeps (labelFilled some' _))
  | default arg =>
    have global : .globaldefault ∉ vacant depth d := fun inside => inside
    have command : .defaultCmd ∉ vacant depth d := fun inside => inside
    exact (replaceKeeps global).append (keepsIte (fun _ => replaceKeeps command) (fun _ => keepsNil _))
  | ui arg => exact replaceKeeps fun inside => inside
  | display arg => exact filenameKeeps (of_decide_eq_true allowed)
  | font arg => exact filenameKeeps (of_decide_eq_true allowed)
  | kbdmap arg => exact keepsTemporary True.intro
  | path arg => exact pathKeeps arg []
  | _ => exact keepsNil _

theorem separatorKeeps' :
    Keeps (vacant depth d) (executeRefs env t m d .menuSeparator) (vacant depth (execute env t m d .menuSeparator)) := by
  have cleared : (record env m d).ld.label = none := by
    by_cases none' : d.ld.label = none
    · rw [recordNone none',none']
    · exact (recordShape none').2.2.1
  have label : .ld .label ∈ vacant depth (record env m d) := cleared
  have named : Keeps (vacant depth (record env m d)) [[.get (.ld .label) .emptyString]]
      (vacant depth (setLd (record env m d) fun ld => { ld with label := some [],menuseparator := true })) :=
    (assignsGet label).keeps.weaken fun slot inside => by
      cases slot with
      | ld field => exact nomatch (show some ([] : Text) = none from inside)
      | _ => exact ⟨inside,fun same => nomatch same⟩
  exact ((recordBalanced env m depth d).append named).append (recordBalanced env m depth _)

theorem labelKeeps' (arg : Text) :
    Keeps (vacant depth d) (executeRefs env t m d (.label arg)) (vacant depth (execute env t m d (.label arg))) := by
  have cleared : (record env m d).ld.label = none := by
    by_cases none' : d.ld.label = none
    · rw [recordNone none',none']
    · exact (recordShape none').2.2.1
  let E := (vacant depth (record env m d) \ {.ld .label}) \ {.ld .kernel}
  have free (field : LabelField) : .ld field ∈ vacant depth (record env m d) := cleared
  have null (field : LabelField) (label : field ≠ .label) (kernel : field ≠ .kernel) : Assigns E [.null (.ld field)] E :=
    assignsNull ⟨⟨free field,by simpa using label⟩,by simpa using kernel⟩
  have named : Keeps (vacant depth (record env m d)) [[.alloc (.ld .label)],[.alloc (.ld .kernel)],[.null (.ld .passwd)],
      [.null (.ld .append)],[.null (.ld .initrd)],[.null (.ld .menulabel)]] E :=
    (assignsAlloc (free .label)).cons ((assignsAlloc (E := vacant depth (record env m d) \ {_}) ⟨free .kernel,by simp⟩).cons
      ((null .passwd (by simp) (by simp)).cons ((null .append (by simp) (by simp)).cons ((null .initrd (by simp) (by simp)).cons
        (null .menulabel (by simp) (by simp)).keeps))))
  refine ((recordBalanced env m depth d).append named).weaken fun slot inside => ?_
  cases slot with
  | ld field => exact nomatch (show some (word arg) = none from inside)
  | _ => exact ⟨⟨inside,fun same => nomatch same⟩,fun same => nomatch same⟩

theorem ontimeoutKeeps (arg : Text) (none' : d.ontimeout = none) :
    Keeps (vacant depth d) (executeRefs env t m d (.ontimeout arg)) (vacant depth (execute env t m d (.ontimeout arg))) := by
  have free : Slot.ontimeout ∈ vacant depth d := none'
  refine (assignsAlloc free).keeps.weaken fun slot inside => ?_
  cases slot with
  | ontimeout => exact nomatch (show some arg = none from inside)
  | _ => exact ⟨inside,fun same => nomatch same⟩

theorem executeBalanced (placed : Placed ⟨t,d⟩) (at' : m < d.menus.length) (c : Command) (allowed : Allowed (.execute t m d c)) :
    Keeps (vacant depth d) (executeRefs env t m d c) (vacant depth (execute env t m d c)) := by
  by_cases plain : Reshapes c
  · cases c with
    | label arg => exact labelKeeps' arg
    | menuSeparator => exact separatorKeeps'
    | ontimeout arg => exact ontimeoutKeeps arg (of_decide_eq_true allowed)
    | _ => exact plain.elim
  · rw [sameVacant (executeShape c plain)]
    exact executeKeeps' placed at' c plain allowed

structure Grows (d d' : Data) : Prop where
  menus : d'.menus.map Menu.parentEntry = d.menus.map Menu.parentEntry
  entries : d.allEntries.length ≤ d'.allEntries.length

theorem Grows.lengths (grows : Grows d d') : d'.menus.length = d.menus.length := by
  simpa using congrArg List.length grows.menus

theorem recordGrows : Grows d (record env m d) := by
  by_cases none' : d.ld.label = none
  · rw [recordNone none']
    exact ⟨rfl,le_rfl⟩
  · obtain ⟨entries,menus,_⟩ := @recordShape env d m none'
    exact ⟨menus,by omega⟩

theorem executeGrows (c : Command) : Grows d (execute env t m d c) := by
  by_cases plain : Reshapes c
  · cases c with
    | label arg => exact ⟨(@recordGrows env d m).menus,recordGrows.entries⟩
    | menuSeparator =>
      have first : Grows d (record env m d) := recordGrows
      have second := @recordGrows env (setLd (record env m d) fun ld => { ld with label := some [],menuseparator := true }) m
      exact ⟨second.menus.trans first.menus,first.entries.trans second.entries⟩
    | ontimeout arg => exact ⟨rfl,le_rfl⟩
    | _ => exact plain.elim
  · have same := @executeShape env d t m c plain
    exact ⟨same.menus,same.entries.ge⟩

theorem Placed.grow (placed : Placed s) (grows : Grows s.data d') : Placed { s with data := d' } where
  current := grows.lengths ▸ placed.current
  parents := placed.parents.trans grows.lengths.symm
  below m p parent := grows.lengths ▸ placed.below m p parent
  entry e inside := (placed.entry e (grows.menus ▸ inside)).trans_le grows.entries

def Reaches (s s' : State) : Prop := Placed s' ∧ s.data.menus.length ≤ s'.data.menus.length

theorem reachRecord (placed : Placed s) : Reaches s (recordIn env m s) :=
  ⟨placed.grow recordGrows,recordGrows.lengths.ge⟩

theorem reachBegin (placed : Placed s) (tag : Text) : Reaches s (beginSubmenu tag s) := by
  have entries : (beginSubmenu tag s).data.allEntries.length = s.data.allEntries.length + 1 := by
    simp [beginSubmenu,newEntry,setMenu]
  have menus : (beginSubmenu tag s).data.menus.map Menu.parentEntry =
      s.data.menus.map Menu.parentEntry ++ [some s.data.allEntries.length] := by
    have same : SameShape { s.data with allEntries := (newEntry s.data s.tree.current fun me => { me with
        displayname := if tag = [] then none else some tag,isLabel := true,action := .submenu
        submenu := some s.tree.parents.length }).allEntries } (newEntry s.data s.tree.current fun me => { me with
        displayname := if tag = [] then none else some tag,isLabel := true,action := .submenu
        submenu := some s.tree.parents.length }) := sameSetMenu fun _ => rfl
    simp only [beginSubmenu,List.map_append,same.menus]
    rfl
  have lengths : (beginSubmenu tag s).data.menus.length = s.data.menus.length + 1 := by
    simpa using congrArg List.length menus
  have parents := placed.parents
  refine ⟨⟨?_,?_,fun m p parent => ?_,fun e inside => ?_⟩,by omega⟩
  · rw [lengths]
    exact (show s.tree.parents.length < _ by omega)
  · rw [lengths]
    simp [beginSubmenu,Tree.push,parents]
  · rw [lengths]
    have known : ((s.tree.parents ++ [some s.tree.current])[m]?).join = some p := parent
    rcases Nat.lt_trichotomy m s.tree.parents.length with less | rfl | more
    · rw [List.getElem?_append_left less] at known
      exact (placed.below m p known).trans (Nat.lt_succ_self _)
    · have current := placed.current
      have own : some s.tree.current = some p := by simpa using known
      cases own
      omega
    · simp [List.getElem?_eq_none (show (s.tree.parents ++ [some s.tree.current]).length ≤ m by simp; omega)] at known
  · rw [entries]
    rw [menus,List.mem_append,List.mem_singleton] at inside
    rcases inside with old | own
    · exact (placed.entry e old).trans (Nat.lt_succ_self _)
    · cases own
      omega

theorem reachEnd (placed : Placed s) : Reaches s (endSubmenu s) := by
  refine ⟨⟨?_,placed.parents,placed.below,placed.entry⟩,le_rfl⟩
  show (s.tree.parent s.tree.current).getD s.tree.current < s.data.menus.length
  cases parent : s.tree.parent s.tree.current with
  | none => exact placed.current
  | some p => exact placed.below _ p parent

theorem Reaches.trans {s'' : State} (first : Reaches s s') (second : Reaches s' s'') : Reaches s s'' :=
  ⟨second.1,first.2.trans second.2⟩

theorem reachSelf (placed : Placed s) : Reaches s s := ⟨placed,le_rfl⟩

def after (depth : Nat) (o : Option State) : Set Slot := o.elim ∅ fun s => vacant depth s.data

def Handles (env : Env) (E : Set Slot) (steps : List Step) (E' : Set Slot) : Prop :=
  (∀ step ∈ steps, Allowed step) → Keeps E (steps.flatMap (stepRefs env)) E'

theorem Handles.append {E E' E'' : Set Slot} {first second : List Step} (a : Handles env E first E')
    (b : Handles env E' second E'') : Handles env E (first ++ second) E'' := fun allowed => by
  obtain ⟨before,behind⟩ := List.forall_mem_append.mp allowed
  rw [List.flatMap_append]
  exact (a before).append (b behind)

theorem handlesNil (E : Set Slot) : Handles env E [] E := fun _ => keepsNil E

theorem handlesOne {E E' : Set Slot} {step : Step} (keeps : Allowed step → Keeps E (stepRefs env step) E') :
    Handles env E [step] E' := fun allowed => by
  simpa using keeps (allowed step (by simp))

theorem handlesOpen (env : Env) (depth : Nat) (d : Data) : Handles env (vacant (depth + 1) d) [.openFile depth] (vacant depth d) :=
  handlesOne fun _ => (assignsAlloc (show Slot.file depth ∈ vacant (depth + 1) d from Nat.lt_succ_self depth)).keeps.weaken
    fun slot inside => by
      cases slot with
      | file k =>
        have less : k < depth := inside
        exact ⟨Nat.lt_succ_of_lt less,fun same => by injection same with at'; omega⟩
      | _ => exact ⟨inside,fun same => nomatch same⟩

theorem handlesClose (env : Env) (depth : Nat) (d : Data) : Handles env (vacant depth d) [.closeFile depth] (vacant (depth + 1) d) :=
  handlesOne fun _ => (putNull (Slot.file depth)).keeps.weaken fun slot inside => by
    cases slot with
    | file k =>
      have less : k < depth + 1 := inside
      by_cases same : k = depth
      · exact .inl (congrArg Slot.file same)
      · exact .inr (show k < depth by omega)
    | _ => exact .inr inside

theorem readCloses {E : Set Slot} {steps : List Step} {o : Option State} (read : Handles env E steps (after depth o)) :
    Handles env E (steps ++ if o = none then [] else [.closeFile depth]) (after (depth + 1) o) := by
  cases o with
  | none => exact read.append (handlesNil ∅)
  | some s1 => exact read.append (handlesClose env depth s1.data)

theorem handlesRecord (env : Env) (m depth : Nat) (s : State) :
    Handles env (vacant depth s.data) (recordSteps s) (vacant depth (recordIn env m s).data) :=
  handlesOne fun _ => recordBalanced env m depth s.data

theorem handlesBegin (env : Env) (tag : Text) (depth : Nat) (s : State) :
    Handles env (vacant depth s.data) (beginSteps tag s) (vacant depth (beginSubmenu tag s).data) :=
  handlesOne fun _ => beginBalanced tag depth s

/- What is nested reaches a state that is sound when each of the files does. -/
structure Balances (env : Env) (nested : Text → State → Option State) (nestedSteps : Text → State → List Step) (depth : Nat) :
    Prop where
  reaches : ∀ file s s', Placed s → nested file s = some s' → Reaches s s'
  handles : ∀ file s, Placed s → Handles env (vacant depth s.data) (nestedSteps file s) (after depth (nested file s))

variable {nested : Text → State → Option State} {nestedSteps : Text → State → List Step}

theorem includeReaches (inner : Balances env nested nestedSteps depth) (placed : Placed s) {arg : Text}
    (done : doInclude env nested arg s = some s') : Reaches s s' := by
  unfold doInclude at done
  split at done
  · cases done
    exact reachSelf placed
  · exact inner.reaches _ _ _ placed done

theorem includeMenuReaches (inner : Balances env nested nestedSteps depth) (placed : Placed s) {arg : Text}
    (done : doIncludeMenu env nested arg m s = some s') : Reaches s s' := by
  unfold doIncludeMenu at done
  dsimp only at done
  split at done
  · cases done
    exact reachSelf placed
  split at done
  · exact inner.reaches _ _ _ placed done
  · simp only [bind,Option.bind_eq_some_iff,Option.some.injEq] at done
    obtain ⟨s1,parsed,rfl⟩ := done
    have recorded : Reaches s (recordIn env m s) := reachRecord placed
    have begun := recorded.trans (reachBegin recorded.1 (skipspace (afterWord arg)))
    have read := begun.trans (inner.reaches _ _ _ begun.1 parsed)
    exact (read.trans (reachRecord read.1)).trans (reachEnd (reachRecord read.1).1)

theorem includeHandles (inner : Balances env nested nestedSteps depth) (placed : Placed s) (arg : Text) :
    Handles env (vacant (depth + 1) s.data) (includeSteps env nested nestedSteps depth arg s)
      (after (depth + 1) (doInclude env nested arg s)) := by
  unfold includeSteps doInclude
  refine (handlesOpen env depth s.data).append ?_
  cases env.files (word arg) with
  | none => exact handlesClose env depth s.data
  | some file =>
    dsimp only
    exact readCloses (inner.handles file s placed)

theorem includeMenuHandles (inner : Balances env nested nestedSteps depth) (placed : Placed s) (arg : Text) :
    Handles env (vacant (depth + 1) s.data) (includeMenuSteps env nested nestedSteps depth arg m s)
      (after (depth + 1) (doIncludeMenu env nested arg m s)) := by
  unfold includeMenuSteps doIncludeMenu
  refine (handlesOpen env depth s.data).append ?_
  cases env.files (word arg) with
  | none => exact handlesClose env depth s.data
  | some file =>
    dsimp only
    split
    · exact readCloses (inner.handles file s placed)
    · have recorded : Reaches s (recordIn env m s) := reachRecord placed
      have begun := recorded.trans (reachBegin recorded.1 (skipspace (afterWord arg)))
      have read := ((handlesRecord env m depth s).append (handlesBegin env (skipspace (afterWord arg)) depth _)).append
        (inner.handles file _ begun.1)
      cases parsed : nested file (beginSubmenu (skipspace (afterWord arg)) (recordIn env m s)) with
      | none =>
        rw [parsed] at read
        simpa [after] using read
      | some s1 =>
        rw [parsed] at read
        have closed := ((handlesRecord env (beginSubmenu (skipspace (afterWord arg)) (recordIn env m s)).tree.current depth s1).append
          (handlesClose env depth _))
        exact read.append closed

theorem performReaches (inner : Balances env nested nestedSteps depth) (placed : Placed s) (at' : m < s.data.menus.length)
    {c : Command} {r : Nat × Option Bool × State} (done : perform env nested m s c = some r) :
    Reaches s r.2.2 ∧ r.1 < r.2.2.data.menus.length := by
  have plain (c : Command) : Reaches s (m,(none : Option Bool),{ s with data := execute env s.tree m s.data c }).2.2 ∧
      m < (m,(none : Option Bool),{ s with data := execute env s.tree m s.data c }).2.2.data.menus.length := by
    have grows := @executeGrows env s.data s.tree m c
    exact ⟨⟨placed.grow grows,grows.lengths.ge⟩,at'.trans_le grows.lengths.ge⟩
  have kept {s' : State} (reach : Reaches s s') : Reaches s s' ∧ m < s'.data.menus.length := ⟨reach,at'.trans_le reach.2⟩
  have recorded : Reaches s (recordIn env m s) := reachRecord placed
  cases c with
  | menuBegin arg =>
    cases done
    have begun := recorded.trans (reachBegin recorded.1 arg)
    exact ⟨begun,begun.1.current⟩
  | menuEnd =>
    cases done
    have ended := recorded.trans (reachEnd recorded.1)
    exact ⟨ended,ended.1.current⟩
  | menuInclude arg =>
    obtain ⟨s',included,rfl⟩ := Option.map_eq_some_iff.mp done
    exact kept (includeMenuReaches inner placed included)
  | includeFile arg =>
    obtain ⟨s',included,rfl⟩ := Option.map_eq_some_iff.mp done
    exact kept (includeReaches inner placed included)
  | text help => cases done; exact kept (reachSelf placed)
  | _ => cases done; exact plain _

theorem performHandles (inner : Balances env nested nestedSteps depth) (placed : Placed s) (at' : m < s.data.menus.length)
    (c : Command) : Handles env (vacant (depth + 1) s.data) (performSteps env nested nestedSteps depth m s c)
      (after (depth + 1) ((perform env nested m s c).map fun r => r.2.2)) := by
  have plain (c : Command) : Handles env (vacant (depth + 1) s.data) [.execute s.tree m s.data c]
      (vacant (depth + 1) (execute env s.tree m s.data c)) := handlesOne (executeBalanced placed at' c)
  cases c with
  | menuBegin arg => exact (handlesRecord env m (depth + 1) s).append (handlesBegin env arg (depth + 1) _)
  | menuEnd => exact handlesRecord env m (depth + 1) s
  | menuInclude arg =>
    have handled := includeMenuHandles (m := m) inner placed arg
    simpa [perform,performSteps,Function.comp_def] using handled
  | includeFile arg =>
    have handled := includeHandles inner placed arg
    simpa [perform,performSteps,Function.comp_def] using handled
  | text help => exact handlesNil _
  | _ => exact plain _

theorem helpReaches (placed : Placed s) (line : Text) : Reaches s (addHelp line s) :=
  ⟨placed.grow ⟨rfl,le_rfl⟩,le_rfl⟩

theorem lineReaches (inner : Balances env nested nestedSteps depth) (placed : Placed s) {l : Locals}
    (at' : l.m < s.data.menus.length) {piece : Text} {r : Locals × State} (done : parseLine env nested l s piece = some r) :
    Reaches s r.2 ∧ r.1.m < r.2.data.menus.length := by
  unfold parseLine at done
  dsimp only at done
  split at done
  · split at done
    · cases done
      exact ⟨reachSelf placed,at'⟩
    · cases done
      dsimp only
      split
      · exact ⟨helpReaches placed _,at'⟩
      · exact ⟨reachSelf placed,at'⟩
  · obtain ⟨r,performed,same⟩ := Option.map_eq_some_iff.mp done
    cases same
    exact performReaches inner placed at' performed

theorem lineHandles (inner : Balances env nested nestedSteps depth) (placed : Placed s) {l : Locals}
    (at' : l.m < s.data.menus.length) (piece : Text) :
    Handles env (vacant (depth + 1) s.data) (lineSteps env nested nestedSteps depth l s piece)
      (after (depth + 1) ((parseLine env nested l s piece).map Prod.snd)) := by
  unfold lineSteps parseLine
  cases l.text with
  | none =>
    have handled := performHandles inner placed at' (commandOf env.null piece (l.line.drop (piece.length + 1)))
    simpa [Function.comp_def] using handled
  | some help =>
    simp only [Option.isSome_some,if_true]
    split
    · exact handlesNil _
    · cases help with
      | false => exact handlesNil _
      | true => exact handlesNil _

theorem scanBalances (inner : Balances env nested nestedSteps depth) (pieces : List Text) {l : Locals} (placed : Placed s)
    (at' : l.m < s.data.menus.length) :
    (∀ r, scan env nested pieces l s = some r → Reaches s r.2) ∧
    Handles env (vacant (depth + 1) s.data) (scanSteps env nested nestedSteps depth pieces l s)
      (after (depth + 1) ((scan env nested pieces l s).map Prod.snd)) := by
  induction pieces generalizing l s with
  | nil => exact ⟨fun r same => Option.some.inj same ▸ reachSelf placed,handlesNil _⟩
  | cons piece pieces ih =>
    have handled := lineHandles inner placed at' piece
    simp only [scan,scanSteps]
    cases first : parseLine env nested l s piece with
    | none =>
      rw [first] at handled
      exact ⟨fun r same => absurd same (by simp),handled.append (handlesNil _)⟩
    | some r =>
      rw [first] at handled
      obtain ⟨reach,at''⟩ := lineReaches inner placed at' first
      obtain ⟨reaches,rest⟩ := ih reach.1 at''
      exact ⟨fun r' same => reach.trans (reaches r' same),handled.append rest⟩

theorem parseBalances (env : Env) (depth : Nat) : Balances env (parseConfigFile env depth) (parseSteps env depth) depth := by
  induction depth with
  | zero => exact ⟨fun _ _ _ _ parsed => (nomatch parsed),fun _ s _ => fun _ => (keepsNil _).weaken (Set.empty_subset _)⟩
  | succ depth ih =>
    constructor
    · intro file s s' placed parsed
      obtain ⟨r,scanned,rfl⟩ := Option.map_eq_some_iff.mp parsed
      exact (scanBalances ih (linesOf file) placed placed.current).1 r scanned
    · intro file s placed
      exact (scanBalances ih (linesOf file) (l := ⟨s.tree.current,none,env.frame depth s⟩) placed placed.current).2

theorem filesBalance (env : Env) (depth : Nat) (files : List (Option Text)) (placed : Placed s) :
    (∀ s', parseFiles env depth files s = some s' → Reaches s s') ∧
    Handles env (vacant depth s.data) (filesSteps env depth files s) (after depth (parseFiles env depth files s)) := by
  induction files generalizing s with
  | nil => exact ⟨fun s' same => Option.some.inj same ▸ reachSelf placed,handlesNil _⟩
  | cons file files ih =>
    cases file with
    | none => exact ih placed
    | some file =>
      have handled := (parseBalances env depth).handles file s placed
      simp only [parseFiles,filesSteps]
      cases first : parseConfigFile env depth file s with
      | none =>
        rw [first] at handled
        exact ⟨fun r same => (nomatch same),handled.append (handlesNil _)⟩
      | some s1 =>
        rw [first] at handled
        have reach := (parseBalances env depth).reaches file s s1 placed first
        obtain ⟨reaches,rest⟩ := ih reach.1
        exact ⟨fun r' same => reach.trans (reaches r' same),handled.append rest⟩

theorem topKeeps {E : Set Slot} (new : ∀ field, .menu m field ∈ E) : Keeps E (topRefs m) (E \ {slot | ∃ field, slot = .menu m field}) := by
  have own : Keeps E [[.alloc (.menu m .label)],[.get (.menu m .title) .emptyString]]
      ((E \ {.menu m .label}) \ {.menu m .title}) :=
    (assignsAlloc (new .label)).cons (assignsGet (E := E \ {_}) ⟨new .title,by simp⟩).keeps
  have filled : Keeps ((E \ {.menu m .label}) \ {.menu m .title}) (topFields.map fun f => [.alloc (.menu m f)]) _ :=
    fieldsFill topOnce (fun field mem => ⟨⟨new field,fun same => by
      injection same with _ same
      subst same
      exact absurd mem (by simp [topFields])⟩,fun same => by
      injection same with _ same
      subst same
      exact absurd mem (by simp [topFields])⟩) (fun field E inside => assignsAlloc inside)
  exact (own.append filled).weaken fun slot inside =>
    ⟨⟨⟨inside.1,fun same => inside.2 ⟨_,same⟩⟩,fun same => inside.2 ⟨_,same⟩⟩,inside.2⟩

theorem startKeeps (depth : Nat) : Keeps Set.univ startRefs (vacant depth (configStart bootSettings).data) := by
  have first : Keeps Set.univ [[.alloc .emptyString]] (Set.univ \ {Slot.emptyString}) := (assignsAlloc (Set.mem_univ _)).keeps
  have hidden := topKeeps (m := hideMenu) (E := Set.univ \ {Slot.emptyString}) fun field => ⟨trivial,by simp⟩
  have top := topKeeps (m := rootMenu) (E := (Set.univ \ {Slot.emptyString}) \ {slot | ∃ field, slot = .menu hideMenu field})
    fun field => ⟨⟨trivial,by simp⟩,by simp [hideMenu,rootMenu]⟩
  refine ((first.append hidden).append top).weaken fun slot inside => ?_
  cases slot with
  | menu m field =>
    have behind : 2 ≤ m := inside
    refine ⟨⟨⟨trivial,by simp⟩,?_⟩,?_⟩
    · rintro ⟨_,same⟩
      injection same with at'
      exact absurd behind (by simp [at',hideMenu])
    · rintro ⟨_,same⟩
      injection same with at'
      exact absurd behind (by simp [at',rootMenu])
  | emptyString => exact (show False from inside).elim
  | _ => exact ⟨⟨⟨trivial,by simp⟩,by simp⟩,by simp⟩

theorem startPlaced : Placed (configStart bootSettings) where
  current := by decide
  parents := rfl
  below m p parent := by
    have known : ([none,none][m]?).join = some p := parent
    match m with
    | 0 => cases known
    | 1 => cases known
    | m+2 => cases known
  entry e inside := by
    have known : some e ∈ [(none : Option Nat),none] := inside
    simp at known

theorem unlabelKeeps {E : Set Slot} {stray : Text → Bool} {entries : List Entry} (filled : slot ∉ E) (free : .temp .q ∈ E)
    (field : Option Text) : Keeps E (unlabelRefs stray entries slot field) E := by
  cases field with
  | none => exact keepsNil E
  | some str => exact keepsIte (fun _ => keepsTake filled free) (fun _ => keepsNil E)

theorem postKeeps (env : Env) (stray : Text → Bool) (adv : Option Text) (depth : Nat) (d : Data) :
    Keeps (vacant depth d) (postRefs env stray adv d) (vacant depth d) := by
  have resolve : Keeps (vacant depth d) (resolveRefs d) (vacant depth d) :=
    Keeps.each fun e _ => keepsIte (fun _ => keepsForget _) (fun _ => keepsNil _)
  have saved : Keeps (vacant depth d) (if (saved adv d).isSome then temporary (.temp .lstr) else []) (vacant depth d) :=
    keepsIte (fun _ => keepsTemporary True.intro) (fun _ => keepsNil _)
  refine (resolve.append saved).append (Keeps.each fun m mem => ?_)
  have at' : m < d.menus.length := by simpa using mem
  exact (unlabelKeeps (menuFilled at' _) True.intro _).append (unlabelKeeps (menuFilled at' _) True.intro _)

/- The counts agree in every run without the commands that lose a string or put a pointer that is no string. -/
theorem countsKept (env : Env) (depth : Nat) (stray : Text → Bool) (adv standard : Option Text) (named : List (Option Text))
    (allowed : ∀ step ∈ configSteps env depth (mainFiles standard named), Allowed step) :
    Stays Balanced (configRefs env depth stray adv standard named) Refstr.empty := by
  have start : Sound (Set.univ : Set Slot) Refstr.empty := ⟨emptyBalanced,fun _ _ => rfl⟩
  unfold configRefs
  split
  · exact (((startKeeps depth).append (keepsNil _)) _ start).1
  · obtain ⟨before,last⟩ := List.forall_mem_append.mp allowed
    obtain ⟨_,handled⟩ := filesBalance env depth (mainFiles standard named) startPlaced
    have read := handled before
    rw [configSteps,List.flatMap_append]
    cases parsed : parseFiles env depth (mainFiles standard named) (configStart bootSettings) with
    | none =>
      rw [parsed] at read
      exact (((startKeeps depth).append ((read.append (keepsNil _)).append (keepsNil _))) _ start).1
    | some s =>
      rw [parsed] at read
      have recorded : Keeps (vacant depth s.data) ((recordSteps s).flatMap (stepRefs env)) (vacant depth (parsedData env s)) := by
        simpa [recordSteps,stepRefs,parsedData] using recordBalanced env s.tree.current depth s.data
      exact (((startKeeps depth).append ((read.append recorded).append (postKeeps env stray adv depth _))) _ start).1

/- A label with all its settings, a submenu with a title, and each of the four commands where it does no harm. -/
def countedFile : Text :=
  ascii "display\nontimeout a\nlabel a\nappend x\ninitrd y\nmenu label ^a\nmenu indent 1\nmenu begin b\nmenu title t\nmenu end\n"

theorem countsKeptFile : Stays Balanced (configRefs bareEnv 1 (fun _ => false) none (some countedFile) []) Refstr.empty :=
  countsKept bareEnv 1 (fun _ => false) none (some countedFile) [] (by decide)

theorem filenameBreaks {arg : Text} (name : kernelNameOf arg ≠ []) (r : Refs Slot) : ¬ Stays Balanced (filenameRefs arg) r := fun stays => by
  have moved : (kernelNameOf arg).length ≠ 0 := fun none' => name (List.length_eq_zero_iff.mp none')
  have failed := advancedFails moved r.next [.null (.temp .filename)] (refstrAlloc r).2 (s := Slot.temp .filename)
  have next : Stays Balanced [[.advance (.temp .filename) (kernelNameOf arg).length,.put (.temp .filename),.null (.temp .filename)]]
      (Refstr.store (.temp .filename) (some ⟨r.next,0⟩) (refstrAlloc r).2) := stays.2
  have behind := next.2
  rw [failed] at behind
  exact behind

set_option maxRecDepth 8000 in
theorem movedPut : ¬ ∀ (env : Env) (depth : Nat) (stray : Text → Bool) (adv standard : Option Text) (named : List (Option Text)),
    Stays Balanced (configRefs env depth stray adv standard named) Refstr.empty := fun all => by
  let d := (configStart bootSettings).data
  have steps : configSteps bareEnv 1 (mainFiles (some (ascii "display x\n")) []) =
      [.execute (configStart bootSettings).tree rootMenu d (.display (ascii "x")),
        .record (execute bareEnv (configStart bootSettings).tree rootMenu d (.display (ascii "x")))] := by decide
  have stays := all bareEnv 1 (fun _ => false) none (some (ascii "display x\n")) []
  obtain ⟨r,ran,_⟩ := (startKeeps 1 Refstr.empty ⟨emptyBalanced,fun _ _ => rfl⟩).2
  have read := ((staysAppend _ _ _).mp stays).2 r ran
  rw [if_neg (by decide),steps] at read
  have first := ((staysAppend _ _ r).mp ((staysAppend _ _ r).mp read).1).1
  exact filenameBreaks (show kernelNameOf (ascii "x") ≠ [] by decide) r first

end
end Syslinux.Readconfig
