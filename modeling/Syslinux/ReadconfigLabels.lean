import Syslinux.ReadconfigParse

/-! find_label and unlabel of com32/elflink/ldlinux/readconfig.c, and what parse_configs does with them once the files
are parsed. Which entries have a label is an invariant of the parser. -/
namespace Syslinux.Readconfig

/- strncmp(s,t,n) == 0 -/
def sameFirst : Nat → Text → Text → Bool
  | 0,_,_ => true
  | n+1,s,t => char s == char t && (char s == 0 || sameFirst n (s.drop 1) (t.drop 1))

/- The entry that is found, or none where a label is read that is not there. -/
def findFrom (str : Text) (pos : Nat) : List Entry → Nat → Option (Option Nat)
  | [],_ => some none
  | me::entries,e =>
      match me.label with
      | none => none
      | some label => if sameFirst pos str label && char (label.drop pos) == 0 then some (some e) else findFrom str pos entries (e + 1)

def findLabel (entries : List Entry) (str : Text) : Option (Option Nat) := findFrom str (word str).length entries 0

def commandLine (entries : List Entry) (e : Nat) : Text := ((entries[e]?).bind Entry.cmdline).getD (ascii "(null)")

def unlabelled (entries : List Entry) (str : Text) (found : Option Nat) : Text :=
  found.elim str fun e => commandLine entries e ++ afterWord str

def unlabel (entries : List Entry) (str : Text) : Option Text := (findLabel entries str).map (unlabelled entries str)

def findMenu (env : Env) (d : Data) (label : Text) : Option Nat :=
  (List.range d.menus.length).reverse.find? fun m => ((d.menus[m]?).bind Menu.label).getD env.null == label

def resolveGoto (env : Env) (d : Data) (me : Entry) : Entry :=
  if me.action = .gotoUnres ∨ me.action = .exitUnres then
    match findMenu env d (me.cmdline.getD env.null) with
    | some m => { me with cmdline := none,submenu := some m,action := if me.action = .gotoUnres then .goto else .exit }
    | none => { me with cmdline := none,action := .disabled }
  else me

def resolveGotos (env : Env) (d : Data) : Data := { d with allEntries := d.allEntries.map (resolveGoto env d) }

/- The parser's data, default_menu, and where each menu starts. -/
structure Configured where
  data : Data
  defaultMenu : Option Nat
  curentry : List Nat

def startedAt (d : Data) (found : Option Nat) : Data × Option Nat :=
  match found.bind fun e => d.allEntries[e]? with
  | none => (d,none)
  | some me =>
      if me.menu = hideMenu then (d,none)
      else ({ setMenu d me.menu (fun menu => { menu with defentry := me.entry }) with startMenu := me.menu },some me.menu)

def startAt (d : Data) : Option Text → Option (Data × Option Nat)
  | none => some (d,none)
  | some str => (findLabel d.allEntries str).map (startedAt d)

/- The label that is stored in the ADV counts when some MENU SAVE is given. -/
def saved (adv : Option Text) (d : Data) : Option Text := if d.menusave ∧ adv ≠ some [] then adv else none

def unlabelField (entries : List Entry) : Option Text → Option (Option Text)
  | none => some none
  | some str => (unlabel entries str).map some

def unlabelMenu (entries : List Entry) (menu : Menu) : Option Menu :=
  (unlabelField entries menu.ontimeout).bind fun ontimeout => (unlabelField entries menu.onerror).map fun onerror =>
    { menu with ontimeout := ontimeout,onerror := onerror }

def unlabelMenus (entries : List Entry) : List Menu → Option (List Menu)
  | [] => some []
  | menu::menus => (unlabelMenu entries menu).bind fun menu => (unlabelMenus entries menus).map fun menus => menu::menus

/- What parse_configs does behind the last record. -/
def postprocess (env : Env) (adv : Option Text) (d : Data) : Option Configured :=
  let d := resolveGotos env d
  (startAt d d.globaldefault).bind fun r => (startAt r.1 (saved adv r.1)).bind fun r' =>
    (unlabelMenus r'.1.allEntries r'.1.menus).map fun menus =>
      ⟨{ r'.1 with menus := menus },r.2,menus.map Menu.defentry⟩

def parseFiles (env : Env) (depth : Nat) : List (Option Text) → State → Option State
  | [],s => some s
  | none::files,s => parseFiles env depth files s
  | some file::files,s => (parseConfigFile env depth file s).bind (parseFiles env depth files)

/- On final EOF process the last label statement. -/
def parsedData (env : Env) (s : State) : Data := record env s.tree.current s.data

/- The files that are named, if any, and else the one that open_config finds. -/
def parseConfigs (env : Env) (depth : Nat) (adv standard : Option Text) (named : List (Option Text)) (settings : Data) :
    Option (Option Configured) :=
  if named = [] ∧ standard = none then some (some ⟨(configStart settings).data,none,[0,0]⟩)
  else (parseFiles env depth (if named = [] then [standard] else named) (configStart settings)).map fun s =>
    postprocess env adv (parsedData env s)

/- The first entry of a label, and what parse_configs makes of it. -/
def firstLabelled (entries : List Entry) (str : Text) : Option Nat := entries.findIdx? fun me => me.label == some (word str)

def firstField (entries : List Entry) (field : Option Text) : Option Text :=
  field.map fun str => unlabelled entries str (firstLabelled entries str)

def firstStart (d : Data) (str : Option Text) : Data × Option Nat :=
  str.elim (d,none) fun str => startedAt d (firstLabelled d.allEntries str)

def firstMenu (entries : List Entry) (menu : Menu) : Menu :=
  { menu with ontimeout := firstField entries menu.ontimeout,onerror := firstField entries menu.onerror }

def configured (env : Env) (adv : Option Text) (d : Data) : Configured :=
  let d := resolveGotos env d
  let r := firstStart d d.globaldefault
  let d := (firstStart r.1 (saved adv r.1)).1
  let menus := d.menus.map (firstMenu d.allEntries)
  ⟨{ d with menus := menus },r.2,menus.map Menu.defentry⟩

def fields (menu : Menu) : List Text := menu.ontimeout.toList ++ menu.onerror.toList

/- All that parse_configs looks for. -/
def sought (adv : Option Text) (d : Data) : List Text :=
  d.globaldefault.toList ++ (saved adv d).toList ++ d.menus.flatMap fields

/- No separator, disabled entry or submenu stands before the first entry of the label. -/
def PlainBefore (entries : List Entry) (str : Text) : Prop :=
  ∀ (i : Nat) (me : Entry), entries[i]? = some me → me.action = .disabled ∨ me.action = .submenu →
    ∃ j < i, ∃ me' : Entry, entries[j]? = some me' ∧ me'.label = some (word str)

/- What the first entry of the label makes of a string, and where find_label returns it. -/
structure Resolves (entries : List Entry) (str : Text) : Prop where
  found : findLabel entries str = some (firstLabelled entries str)
  replaced : unlabel entries str = some (unlabelled entries str (firstLabelled entries str))

def Plain (t : Text) : Prop := ∀ c ∈ t, myIsspace c = false

structure Recorded (d : Data) : Prop where
  missing : ∀ me ∈ d.allEntries, me.label = none ↔ me.action = .disabled ∨ me.action = .submenu
  plain : ∀ me ∈ d.allEntries, ∀ label, me.label = some label → Plain label
  label : ∀ label, d.ld.label = some label → Plain label
  action : d.ld.action ≠ .disabled ∧ d.ld.action ≠ .submenu

section
variable {env : Env} {d d' : Data} {m e : Nat} {str label : Text} {entries : List Entry} {s s' : State}

theorem wordPlain (p : Text) : Plain (word p) := by
  intro c mem
  have all := List.all_eq_true.mp (List.all_takeWhile (p := fun c => !myIsspace c) (l := p)) c mem
  simpa using all

theorem recordedOf (kept : Recorded d) (entries : d'.allEntries = d.allEntries) (label : d'.ld.label = d.ld.label)
    (action : d'.ld.action = d.ld.action) : Recorded d' := by
  constructor
  · rw [entries]; exact kept.missing
  · rw [entries]; exact kept.plain
  · rw [label]; exact kept.label
  · rw [action]; exact kept.action

theorem recordedIte {p : Prop} [Decidable p] (kept : Recorded d) (other : Recorded d') : Recorded (if p then d else d') := by
  split
  · exact kept
  · exact other

theorem recordedSetMenu {f : Menu → Menu} (kept : Recorded d) : Recorded (setMenu d m f) := recordedOf kept rfl rfl rfl

theorem recordedSetEntry {f : Entry → Entry} (kept : Recorded d) (label : ∀ me, (f me).label = me.label)
    (action : ∀ me, (f me).action = me.action) : Recorded (setEntry d e f) := by
  have inside {me : Entry} (mem : me ∈ (setEntry d e f).allEntries) : ∃ me' ∈ d.allEntries,
      me.label = me'.label ∧ me.action = me'.action := by
    obtain ⟨i,less,rfl⟩ := List.mem_iff_getElem.mp mem
    simp only [setEntry,List.length_modify] at less
    refine ⟨d.allEntries[i],List.getElem_mem less,?_⟩
    simp only [setEntry,List.getElem_modify]
    split
    · exact ⟨label _,action _⟩
    · exact ⟨rfl,rfl⟩
  constructor
  · intro me mem
    obtain ⟨me',mem',label,action⟩ := inside mem
    rw [label,action]
    exact kept.missing me' mem'
  · intro me mem l some'
    obtain ⟨me',mem',label,_⟩ := inside mem
    exact kept.plain me' mem' l (label ▸ some')
  · exact kept.label
  · exact kept.action

theorem recordedHotkey (kept : Recorded d) : Recorded (considerForHotkey d m e) := by
  unfold considerForHotkey
  split
  · dsimp only
    split
    · exact recordedSetMenu (recordedSetEntry kept (fun _ => rfl) (fun _ => rfl))
    · exact kept
  · exact kept

theorem recordedNew {fill : Entry → Entry} (kept : Recorded d)
    (missing : ∀ n, (fill (emptyEntry m n)).label = none ↔
      (fill (emptyEntry m n)).action = .disabled ∨ (fill (emptyEntry m n)).action = .submenu)
    (plain : ∀ n label, (fill (emptyEntry m n)).label = some label → Plain label) : Recorded (newEntry d m fill) := by
  constructor
  · exact List.forall_mem_append.mpr ⟨kept.missing,by simpa using missing _⟩
  · exact List.forall_mem_append.mpr ⟨kept.plain,by simpa using plain _⟩
  · exact kept.label
  · exact kept.action

theorem clearRecorded (kept : Recorded d) : Recorded { d with ld := clearLabelData } :=
  ⟨kept.missing,kept.plain,fun _ some' => (nomatch some'),
    show clearLabelData.action ≠ .disabled ∧ clearLabelData.action ≠ .submenu by decide⟩

theorem recordedEntry {ld : Labeldata} {append : Option Text} {save : Bool} (some' : ld.label ≠ none)
    (action : ld.action ≠ .disabled ∧ ld.action ≠ .submenu) (me : Entry) :
    (recordEntry env ld append save me).label = none ↔
      (recordEntry env ld append save me).action = .disabled ∨ (recordEntry env ld append save me).action = .submenu := by
  simp only [recordEntry]
  cases (ld.menuseparator || ld.menudisabled)
  · by_cases unset : ld.action = .none <;> simp [some',unset,action]
  · simp

theorem recordKeeps (kept : Recorded d) : Recorded (record env m d) := by
  unfold record
  split
  · exact kept
  rename_i some'
  dsimp only
  apply clearRecorded
  have added (save : Bool) (m : Nat) : Recorded (newEntry d m (recordEntry env d.ld d.append save)) := by
    refine recordedNew kept (fun _ => recordedEntry some' kept.action _) fun _ label own => ?_
    simp only [recordEntry] at own
    split at own
    · cases own
    · exact kept.label label own
  have hotkey (save : Bool) (m : Nat) : Recorded (if d.ld.menulabel = none then newEntry d m (recordEntry env d.ld d.append save)
      else considerForHotkey (newEntry d m (recordEntry env d.ld d.append save)) m d.allEntries.length) := by
    exact recordedIte (added save m) (recordedHotkey (added save m))
  exact recordedIte (recordedSetMenu (hotkey _ _)) (hotkey _ _)

theorem recordedInLabel {f : Labeldata → Labeldata} (kept : Recorded d) (other : Recorded d') (label : (f d.ld).label = d.ld.label)
    (action : (f d.ld).action ≠ .disabled ∧ (f d.ld).action ≠ .submenu) : Recorded (inLabel d f d') := by
  unfold inLabel
  split
  · exact other
  · exact ⟨kept.missing,kept.plain,fun l some' => kept.label l (label ▸ some'),action⟩

theorem recordedAction {f : Labeldata → Labeldata} (action : Action) (kept : Recorded d) (label : (f d.ld).label = d.ld.label)
    (same : (f d.ld).action = action) (other : action ≠ .disabled ∧ action ≠ .submenu := by decide) : Recorded (inLabel d f d) :=
  recordedInLabel kept kept label (same ▸ other)

theorem separatorKeeps (kept : Recorded d) :
    Recorded (record env m (setLd (record env m d) fun ld => { ld with label := some [],menuseparator := true })) := by
  have first : Recorded (record env m d) := recordKeeps kept
  refine recordKeeps ⟨first.missing,first.plain,fun label own => ?_,first.action⟩
  cases own
  exact fun c mem => (List.not_mem_nil mem).elim

theorem labelKeeps (arg : Text) {f : Labeldata → Labeldata} (kept : Recorded d) (label : ∀ ld, (f ld).label = some (word arg))
    (action : ∀ ld, (f ld).action = ld.action) : Recorded (setLd (record env m d) f) := by
  have first : Recorded (record env m d) := recordKeeps kept
  refine ⟨first.missing,first.plain,fun l own => ?_,by rw [show (setLd (record env m d) f).ld.action = _ from action _]; exact first.action⟩
  cases (label _).symm.trans own
  exact wordPlain arg

theorem executeKeeps (t : Tree) (kept : Recorded d) (c : Command) : Recorded (execute env t m d c) := by
  cases c with
  | menuLabel arg =>
    refine recordedInLabel kept ?_ rfl kept.action
    split
    · exact kept
    · exact recordedSetMenu (recordedHotkey (recordedSetEntry kept (fun _ => rfl) (fun _ => rfl)))
  | menuTitle arg =>
    simp only [execute]
    split
    · exact recordedSetMenu kept
    · refine recordedSetEntry (recordedSetMenu kept) (fun me => ?_) (fun me => ?_) <;> split <;> rfl
  | menuDefault =>
    refine recordedInLabel kept ?_ rfl kept.action
    split
    · exact kept
    · exact recordedSetMenu kept
  | menuPasswd arg =>
    refine recordedInLabel kept ?_ rfl kept.action
    split
    · exact kept
    · exact recordedSetEntry kept (fun _ => rfl) (fun _ => rfl)
  | menuSave =>
    have saving : Recorded { d with menusave := true } := recordedOf kept rfl rfl rfl
    exact recordedInLabel saving (recordedSetMenu saving) rfl kept.action
  | menuNosave => exact recordedInLabel kept (recordedSetMenu kept) rfl kept.action
  | menuMaster arg =>
    simp only [execute]
    split
    · exact kept
    · exact recordedSetMenu kept
  | menuSeparator => exact separatorKeeps kept
  | menuQuit => exact recordedAction .quit kept rfl rfl
  | menuGoto arg => exact recordedAction .gotoUnres kept rfl rfl
  | menuExit arg =>
    simp only [execute]
    split
    · exact kept
    · exact recordedIte (recordedAction .exit kept rfl rfl) (recordedAction .exitUnres kept rfl rfl)
  | append arg => exact recordedInLabel kept (recordedOf kept rfl rfl rfl) rfl kept.action
  | initrd arg => exact recordedInLabel kept kept rfl kept.action
  | label arg =>
    simp only [execute]
    exact labelKeeps arg kept (fun _ => rfl) (fun _ => rfl)
  | kernel type arg => exact recordedInLabel kept kept rfl kept.action
  | sysappend arg => exact recordedInLabel kept (recordedOf kept rfl rfl rfl) rfl kept.action
  | default arg => exact recordedIte (recordedOf kept rfl rfl rfl) (recordedOf kept rfl rfl rfl)
  | serial arg => exact recordedIte (recordedOf kept rfl rfl rfl) (recordedOf kept rfl rfl rfl)
  | sendcookies arg => exact recordedIte (recordedOf kept rfl rfl rfl) kept
  | _ => exact recordedOf kept rfl rfl rfl

def KeepsRecorded (nested : Text → State → Option State) : Prop :=
  ∀ file s s', nested file s = some s' → Recorded s.data → Recorded s'.data

theorem beginKeeps {tag : Text} (kept : Recorded s.data) : Recorded (beginSubmenu tag s).data := by
  have added : Recorded (newEntry s.data s.tree.current fun me => { me with
      displayname := if tag = [] then none else some tag,isLabel := true,action := .submenu,submenu := some s.tree.parents.length }) :=
    recordedNew kept (fun _ => iff_of_true rfl (Or.inr rfl)) (fun _ _ own => nomatch own)
  exact recordedOf added rfl rfl rfl

theorem helpKeeps {line : Text} (kept : Recorded s.data) : Recorded (addHelp line s).data := recordedOf kept rfl rfl rfl

theorem includeMenuKeeps {nested : Text → State → Option State} (inner : KeepsRecorded nested) {arg : Text} {s s' : State}
    (done : doIncludeMenu env nested arg m s = some s') (kept : Recorded s.data) : Recorded s'.data := by
  unfold doIncludeMenu at done
  dsimp only at done
  split at done
  · cases done
    exact kept
  split at done
  · exact inner _ _ _ done kept
  · simp only [bind,Option.bind_eq_some_iff,Option.some.injEq] at done
    obtain ⟨s1,parsed,rfl⟩ := done
    have begun : Recorded (beginSubmenu (skipspace (afterWord arg)) (recordIn env m s)).data := beginKeeps (recordKeeps kept)
    exact recordKeeps (inner _ _ _ parsed begun)

theorem performKeeps {nested : Text → State → Option State} (inner : KeepsRecorded nested) {c : Command} {r : Nat × Option Bool × State}
    (done : perform env nested m s c = some r) (kept : Recorded s.data) : Recorded r.2.2.data := by
  have plain (c : Command) : Recorded (m,(none : Option Bool),{ s with data := execute env s.tree m s.data c }).2.2.data :=
    executeKeeps s.tree kept c
  cases c with
  | menuBegin arg => cases done; exact beginKeeps (recordKeeps kept)
  | menuEnd => cases done; exact recordKeeps kept
  | menuInclude arg =>
    obtain ⟨s',included,rfl⟩ := Option.map_eq_some_iff.mp done
    exact includeMenuKeeps inner included kept
  | includeFile arg =>
    obtain ⟨s',included,rfl⟩ := Option.map_eq_some_iff.mp done
    unfold doInclude at included
    split at included
    · cases included
      exact kept
    · exact inner _ _ _ included kept
  | text help => cases done; exact kept
  | _ => cases done; exact plain _

theorem lineKeeps {nested : Text → State → Option State} (inner : KeepsRecorded nested) {l l' : Locals} {piece : Text}
    (done : parseLine env nested l s piece = some (l',s')) (kept : Recorded s.data) : Recorded s'.data := by
  unfold parseLine at done
  dsimp only at done
  split at done
  · split at done
    · cases done
      exact kept
    · cases done
      split
      · exact helpKeeps kept
      · exact kept
  · obtain ⟨r,performed,same⟩ := Option.map_eq_some_iff.mp done
    cases same
    exact performKeeps inner performed kept

theorem scanKeeps {nested : Text → State → Option State} (inner : KeepsRecorded nested) {pieces : List Text} {l l' : Locals}
    (done : scan env nested pieces l s = some (l',s')) (kept : Recorded s.data) : Recorded s'.data := by
  induction pieces generalizing l s with
  | nil => cases done; exact kept
  | cons piece pieces ih =>
    simp only [scan,bind,Option.bind_eq_some_iff] at done
    obtain ⟨⟨l1,s1⟩,first,rest⟩ := done
    exact ih rest (lineKeeps inner first kept)

theorem parseKeeps (env : Env) (depth : Nat) : KeepsRecorded (parseConfigFile env depth) := by
  induction depth with
  | zero => exact fun _ _ _ parsed => nomatch parsed
  | succ depth ih =>
    intro file s s' parsed kept
    obtain ⟨⟨l,_⟩,scanned,rfl⟩ := Option.map_eq_some_iff.mp parsed
    exact scanKeeps ih scanned kept

theorem filesKeep {depth : Nat} {files : List (Option Text)} (parsed : parseFiles env depth files s = some s')
    (kept : Recorded s.data) : Recorded s'.data := by
  induction files generalizing s with
  | nil => cases parsed; exact kept
  | cons file files ih =>
    cases file with
    | none => exact ih parsed kept
    | some file =>
      obtain ⟨s1,first,rest⟩ := Option.bind_eq_some_iff.mp parsed
      exact ih rest (parseKeeps env depth _ _ _ first kept)

theorem startRecorded (settings : Data) : Recorded (configStart settings).data :=
  ⟨fun _ mem => (List.not_mem_nil mem).elim,fun _ mem => (List.not_mem_nil mem).elim,fun _ own => (nomatch own),
    show clearLabelData.action ≠ .disabled ∧ clearLabelData.action ≠ .submenu by decide⟩

theorem parsedRecorded {depth : Nat} {files : List (Option Text)} {settings : Data}
    (parsed : parseFiles env depth files (configStart settings) = some s) : Recorded (parsedData env s) :=
  recordKeeps (filesKeep parsed (startRecorded settings))

theorem charPlain (plain : Plain label) : char label = 0 ↔ label = [] := by
  cases label with
  | nil => simp [char]
  | cons c label =>
    refine iff_of_false (fun nul => ?_) (by simp)
    have graphic := plain c List.mem_cons_self
    rw [show c = 0 from nul] at graphic
    exact absurd graphic (by decide)

theorem labelledIff (plain : Plain label) :
    (sameFirst (word str).length str label && char (label.drop (word str).length) == 0) = true ↔ label = word str := by
  induction str generalizing label with
  | nil => simpa [word,sameFirst] using charPlain plain
  | cons c str ih =>
    by_cases space : myIsspace c
    · simpa [word,sameFirst,space] using charPlain plain
    have more : word (c::str) = c::word str := by simp [word,space]
    have some' : c ≠ 0 := fun nul => space (nul ▸ rfl)
    rw [more]
    cases label with
    | nil => simp [sameFirst,char,some']
    | cons l label =>
      have rest := @ih label fun c mem => plain c (List.mem_cons_of_mem _ mem)
      simp only [List.length_cons,sameFirst,List.drop_succ_cons,List.drop_zero,List.cons.injEq,← rest,Bool.and_eq_true,
        Bool.or_eq_true,beq_iff_eq,and_assoc]
      simp [char,some',@eq_comm _ c l]

def NoneBefore (entries : List Entry) (str : Text) : Prop :=
  ∀ (i : Nat) (me : Entry), entries[i]? = some me → me.label = none →
    ∃ j < i, ∃ me' : Entry, entries[j]? = some me' ∧ me'.label = some (word str)

theorem noneBeforeCons {me : Entry} : NoneBefore (me::entries) str ↔
    me.label ≠ none ∧ (me.label = some (word str) ∨ NoneBefore entries str) := by
  constructor
  · intro before
    refine ⟨fun missing => ?_,?_⟩
    · obtain ⟨j,less,_⟩ := before 0 me rfl missing
      exact absurd less (Nat.not_lt_zero j)
    · by_cases found : me.label = some (word str)
      · exact Or.inl found
      refine Or.inr fun i me' at' missing => ?_
      obtain ⟨_ | j,less,me1,first,label⟩ := before (i + 1) me' at' missing
      · cases first
        exact absurd label found
      · exact ⟨j,Nat.lt_of_succ_lt_succ less,me1,first,label⟩
  · rintro ⟨some',found⟩ i me' at' missing
    cases i with
    | zero =>
      cases at'
      exact absurd missing some'
    | succ i =>
      rcases found with found | before
      · exact ⟨0,Nat.succ_pos i,me,rfl,found⟩
      · obtain ⟨j,less,rest⟩ := before i me' at' missing
        exact ⟨j + 1,Nat.succ_lt_succ less,rest⟩

structure Yields {α : Type} (o : Option α) (r : α) (c : Prop) : Prop where
  yields : c → o = some r
  fails : ¬ c → o = none

theorem Yields.iff {α : Type} {o : Option α} {r : α} {c : Prop} (y : Yields o r c) : o = some r ↔ c := by
  refine ⟨fun some' => ?_,y.yields⟩
  by_contra not
  exact nomatch (y.fails not).symm.trans some'

theorem Yields.bind {α β : Type} {o : Option α} {r : α} {f : α → Option β} {r' : β} {c c' : Prop} (y : Yields o r c)
    (y' : Yields (f r) r' c') : Yields (o.bind f) r' (c ∧ c') := by
  constructor
  · rintro ⟨first,second⟩
    rw [y.yields first,Option.bind_some,y'.yields second]
  · intro not
    by_cases first : c
    · rw [y.yields first,Option.bind_some,y'.fails fun second => not ⟨first,second⟩]
    · rw [y.fails first,Option.bind_none]

theorem Yields.map {α β : Type} {o : Option α} {r : α} {c : Prop} (y : Yields o r c) (f : α → β) : Yields (o.map f) (f r) c :=
  ⟨fun first => by rw [y.yields first]; rfl,fun not => by rw [y.fails not]; rfl⟩

theorem Yields.always {α : Type} (r : α) {c : Prop} (first : c) : Yields (some r) r c := ⟨fun _ => rfl,fun not => absurd first not⟩

theorem Yields.when {α : Type} {o : Option α} {r : α} {c c' : Prop} (y : Yields o r c) (same : c ↔ c') : Yields o r c' :=
  ⟨fun first => y.yields (same.2 first),fun not => y.fails fun first => not (same.1 first)⟩

theorem findFromYields (plain : ∀ me ∈ entries, ∀ label, me.label = some label → Plain label) (e : Nat) :
    Yields (findFrom str (word str).length entries e) ((firstLabelled entries str).map fun i => i + e) (NoneBefore entries str) := by
  induction entries generalizing e with
  | nil => exact Yields.always _ fun i me at' => nomatch at'
  | cons me entries ih =>
    have rest := ih (fun me mem => plain me (List.mem_cons_of_mem _ mem)) (e + 1)
    rw [findFrom,firstLabelled,List.findIdx?_cons]
    split
    · rename_i missing
      exact ⟨fun before => absurd missing (noneBeforeCons.1 before).1,fun _ => rfl⟩
    · rename_i label own
      have same := @labelledIff str label (plain me List.mem_cons_self label own)
      by_cases found : label = word str
      · rw [if_pos (same.2 found),if_pos (by simp [own,found])]
        rw [Option.map_some,Nat.zero_add]
        exact Yields.always _ (noneBeforeCons.2 ⟨by simp [own],Or.inl (by rw [own,found])⟩)
      · rw [if_neg fun yes => found (same.1 yes),if_neg (by simp [own,found]),Option.map_map]
        have before : NoneBefore entries str ↔ NoneBefore (me::entries) str := by simp [noneBeforeCons,own,found]
        have shift : (fun i => i + (e + 1)) = (fun i => i + e) ∘ fun i => i + 1 := by
          funext i
          simp only [Function.comp_apply]
          omega
        rw [shift] at rest
        exact rest.when before

theorem findYields (plain : ∀ me ∈ entries, ∀ label, me.label = some label → Plain label) (str : Text) :
    Yields (findLabel entries str) (firstLabelled entries str) (NoneBefore entries str) := by
  have found := @findFromYields str entries plain 0
  rwa [show (fun i => i + 0) = id from rfl,Option.map_id] at found

theorem resolvesIff (plain : ∀ me ∈ entries, ∀ label, me.label = some label → Plain label) (str : Text) :
    Resolves entries str ↔ NoneBefore entries str :=
  ⟨fun resolves => (findYields plain str).iff.mp resolves.found,
    fun before => ⟨(findYields plain str).yields before,((findYields plain str).map _).yields before⟩⟩

theorem startYields (plain : ∀ me ∈ d.allEntries, ∀ label, me.label = some label → Plain label) (o : Option Text) :
    Yields (startAt d o) (firstStart d o) (∀ str ∈ o.toList, NoneBefore d.allEntries str) := by
  cases o with
  | none => exact Yields.always _ (by simp)
  | some str => exact ((findYields plain str).map (startedAt d)).when (by simp)

theorem startedEntries (d : Data) (found : Option Nat) : (startedAt d found).1.allEntries = d.allEntries := by
  unfold startedAt
  split
  · rfl
  · split <;> rfl

theorem startedSave (d : Data) (found : Option Nat) : (startedAt d found).1.menusave = d.menusave := by
  unfold startedAt
  split
  · rfl
  · split <;> rfl

theorem startedFields (d : Data) (found : Option Nat) : (startedAt d found).1.menus.flatMap fields = d.menus.flatMap fields := by
  have kept (m e : Nat) : (d.menus.modify m fun menu => { menu with defentry := e }).map fields = d.menus.map fields := by
    refine List.ext_getElem? fun i => ?_
    simp only [List.getElem?_map,List.getElem?_modify]
    cases d.menus[i]? with
    | none => rfl
    | some menu =>
      simp only [Option.map_eq_map,Option.map_some]
      split <;> rfl
  unfold startedAt
  split
  · rfl
  · split
    · rfl
    · rw [List.flatMap_def,List.flatMap_def]
      exact congrArg List.flatten (kept _ _)

theorem firstEntries (d : Data) (o : Option Text) : (firstStart d o).1.allEntries = d.allEntries := by
  cases o with
  | none => rfl
  | some str => exact startedEntries d _

theorem firstSave (d : Data) (o : Option Text) : (firstStart d o).1.menusave = d.menusave := by
  cases o with
  | none => rfl
  | some str => exact startedSave d _

theorem firstFields (d : Data) (o : Option Text) : (firstStart d o).1.menus.flatMap fields = d.menus.flatMap fields := by
  cases o with
  | none => rfl
  | some str => exact startedFields d _

theorem fieldYields (plain : ∀ me ∈ entries, ∀ label, me.label = some label → Plain label) (field : Option Text) :
    Yields (unlabelField entries field) (firstField entries field) (∀ str ∈ field.toList, NoneBefore entries str) := by
  cases field with
  | none => exact Yields.always _ (by simp)
  | some str => exact (((findYields plain str).map (unlabelled entries str)).map some).when (by simp)

theorem menusYields (plain : ∀ me ∈ entries, ∀ label, me.label = some label → Plain label) (menus : List Menu) :
    Yields (unlabelMenus entries menus) (menus.map (firstMenu entries)) (∀ str ∈ menus.flatMap fields, NoneBefore entries str) := by
  induction menus with
  | nil => exact Yields.always _ (by simp)
  | cons menu menus ih =>
    have one : Yields (unlabelMenu entries menu) (firstMenu entries menu) (∀ str ∈ fields menu, NoneBefore entries str) := by
      refine ((fieldYields plain menu.ontimeout).bind ((fieldYields plain menu.onerror).map _)).when ?_
      rw [fields,List.forall_mem_append]
    refine (one.bind (ih.map fun rest => firstMenu entries menu::rest)).when ?_
    rw [List.flatMap_cons,List.forall_mem_append]

theorem postYields (env : Env) (adv : Option Text) (d : Data)
    (plain : ∀ me ∈ (resolveGotos env d).allEntries, ∀ label, me.label = some label → Plain label) :
    Yields (postprocess env adv d) (configured env adv d) (∀ str ∈ sought adv d, NoneBefore (resolveGotos env d).allEntries str) := by
  generalize resolved : resolveGotos env d = r at plain ⊢
  have globaldefault : r.globaldefault = d.globaldefault := resolved ▸ rfl
  have menusave : r.menusave = d.menusave := resolved ▸ rfl
  have menus : r.menus = d.menus := resolved ▸ rfl
  have first := startYields plain r.globaldefault
  have entries1 := firstEntries r r.globaldefault
  have save : saved adv (firstStart r r.globaldefault).1 = saved adv d := by rw [saved,firstSave,menusave,saved]
  have second := @startYields (firstStart r r.globaldefault).1 (by rw [entries1]; exact plain) (saved adv (firstStart r r.globaldefault).1)
  have entries2 := (firstEntries (firstStart r r.globaldefault).1 (saved adv (firstStart r r.globaldefault).1)).trans entries1
  have third := @menusYields (firstStart (firstStart r r.globaldefault).1 (saved adv (firstStart r r.globaldefault).1)).1.allEntries
    (by rw [entries2]; exact plain) (firstStart (firstStart r r.globaldefault).1 (saved adv (firstStart r r.globaldefault).1)).1.menus
  unfold postprocess configured
  rw [resolved]
  dsimp only
  refine (first.bind (second.bind (third.map _))).when ?_
  rw [firstFields,firstFields,entries1,entries2,save,globaldefault,menus,← List.forall_mem_append,← List.forall_mem_append,
    ← List.append_assoc]
  rfl

theorem resolvedLabel (me : Entry) : (resolveGoto env d me).label = me.label := by
  unfold resolveGoto
  split
  · split <;> rfl
  · rfl

theorem resolvedPlain (plain : ∀ me ∈ d.allEntries, ∀ label, me.label = some label → Plain label) :
    ∀ me ∈ (resolveGotos env d).allEntries, ∀ label, me.label = some label → Plain label := by
  intro me mem label own
  obtain ⟨me',mem',rfl⟩ := List.mem_map.mp mem
  exact plain me' mem' label (resolvedLabel me' ▸ own)

theorem resolvedBefore : NoneBefore (resolveGotos env d).allEntries str ↔ NoneBefore d.allEntries str := by
  have place (i : Nat) (me : Entry) : (resolveGotos env d).allEntries[i]? = some me ↔
      ∃ me', d.allEntries[i]? = some me' ∧ resolveGoto env d me' = me := by
    rw [resolveGotos,List.getElem?_map,Option.map_eq_some_iff]
  constructor
  · intro before i me at' missing
    obtain ⟨j,less,_,found,label⟩ := before i _ ((place i _).mpr ⟨me,at',rfl⟩) (resolvedLabel me ▸ missing)
    obtain ⟨me',here,rfl⟩ := (place j _).mp found
    exact ⟨j,less,me',here,resolvedLabel me' ▸ label⟩
  · intro before i _ at' missing
    obtain ⟨me,here,rfl⟩ := (place i _).mp at'
    obtain ⟨j,less,me',found,label⟩ := before i me here (resolvedLabel me ▸ missing)
    exact ⟨j,less,_,(place j _).mpr ⟨me',found,rfl⟩,(resolvedLabel me').trans label⟩

theorem beforeIff (kept : Recorded d) : NoneBefore d.allEntries str ↔ PlainBefore d.allEntries str := by
  refine forall₃_congr fun i me at' => ?_
  rw [kept.missing me (List.mem_of_getElem? at')]

theorem parsedResolves {depth : Nat} {files : List (Option Text)} {settings : Data}
    (parsed : parseFiles env depth files (configStart settings) = some s) (str : Text) :
    Resolves (resolveGotos env (parsedData env s)).allEntries str ↔ PlainBefore (parsedData env s).allEntries str := by
  have kept := parsedRecorded parsed
  rw [resolvesIff (resolvedPlain kept.plain),resolvedBefore,beforeIff kept]

theorem lookupsIff {depth : Nat} {standard : Option Text} {named : List (Option Text)} {settings : Data} (adv : Option Text)
    (given : named ≠ [] ∨ standard ≠ none)
    (parsed : parseFiles env depth (if named = [] then [standard] else named) (configStart settings) = some s) :
    (∀ str, Resolves (resolveGotos env (parsedData env s)).allEntries str ↔ PlainBefore (parsedData env s).allEntries str) ∧
    (parseConfigs env depth adv standard named settings = some (some (configured env adv (parsedData env s))) ↔
      ∀ str ∈ sought adv (parsedData env s), PlainBefore (parsedData env s).allEntries str) := by
  refine ⟨parsedResolves parsed,?_⟩
  have kept := parsedRecorded parsed
  have some' : ¬ (named = [] ∧ standard = none) := fun nothing => given.elim (fun h => h nothing.1) fun h => h nothing.2
  rw [parseConfigs,if_neg some',parsed,Option.map_some,Option.some_inj]
  refine (postYields env adv _ (resolvedPlain kept.plain)).iff.trans ?_
  exact forall₂_congr fun str _ => resolvedBefore.trans (beforeIff kept)

def bareEnv : Env where
  files := fun _ => none
  null := []
  frame := fun _ _ => []
  clkTck := 18
  sysappendStrings := []
  serialPorts := fun _ => 0
  lcr := fun _ => 3
  pxelinux := false

theorem lookupsIffLabel : ∃ s, parseFiles bareEnv 1 [some (ascii "label a\nmenu separator\ndefault a\n")] (configStart bootSettings) = some s ∧
    (∀ str, Resolves (resolveGotos bareEnv (parsedData bareEnv s)).allEntries str ↔ PlainBefore (parsedData bareEnv s).allEntries str) ∧
    (parseConfigs bareEnv 1 none (some (ascii "label a\nmenu separator\ndefault a\n")) [] bootSettings =
        some (some (configured bareEnv none (parsedData bareEnv s))) ↔
      ∀ str ∈ sought none (parsedData bareEnv s), PlainBefore (parsedData bareEnv s).allEntries str) := by
  have entries : (parseFiles bareEnv 1 [some (ascii "label a\nmenu separator\ndefault a\n")] (configStart bootSettings)).map
      (fun s => (parsedData bareEnv s).allEntries.map Entry.action) = some [.cmd,.disabled] := rfl
  obtain ⟨s,parsed,_⟩ := Option.map_eq_some_iff.mp entries
  exact ⟨s,parsed,lookupsIff none (Or.inr (Option.some_ne_none _)) parsed⟩

/- A separator in front of the default entry. -/
theorem separatorMissing : ¬ ∀ (env : Env) (depth : Nat) (file : Text) (s : State),
    parseFiles env depth [some file] (configStart bootSettings) = some s →
      ∀ str, Resolves (resolveGotos env (parsedData env s)).allEntries str := by
  intro all
  have entries : (parseFiles bareEnv 1 [some (ascii "menu separator\nlabel a\ndefault a\n")] (configStart bootSettings)).map
      (fun s => (parsedData bareEnv s).allEntries.map Entry.action) = some [.disabled,.cmd] := rfl
  obtain ⟨s,parsed,actions⟩ := Option.map_eq_some_iff.mp entries
  have before := (parsedResolves parsed (ascii "a")).mp (all bareEnv 1 _ s parsed (ascii "a"))
  obtain ⟨me,here,disabled⟩ : ∃ me, (parsedData bareEnv s).allEntries[0]? = some me ∧ me.action = .disabled := by
    have first := congrArg List.head? actions
    rw [List.head?_map,List.head?_cons] at first
    obtain ⟨me,head,action⟩ := Option.map_eq_some_iff.mp first
    exact ⟨me,by rw [← List.head?_eq_getElem?,head],action⟩
  obtain ⟨j,less,_⟩ := before 0 me here (Or.inl disabled)
  exact absurd less (Nat.not_lt_zero j)

end
end Syslinux.Readconfig
