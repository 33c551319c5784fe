import Syslinux.ReadconfigParse

/-! An INCLUDE line against the lines of the file it names. The parser state is shared by the two calls of
parse_config_file, but the menu a call works on, its text block and its line buffer are its own. -/
namespace Syslinux.Readconfig

def Ended (file : Text) : Prop :=
  file = [] ∨ file.getLast? = some 10

theorem fgetsAppend {a b : Text} {room : Nat} {piece : Text} (some' : a ≠ []) (last : a.getLast? = some 10) :
    fgets (a ++ b) room piece = fgets a room piece ++ fgets b 4095 [] := by
  induction a generalizing room piece with
  | nil => exact absurd rfl some'
  | cons c a ih =>
    cases a with
    | nil =>
      have newline : c = 10 := by simpa using last
      simp [fgets,newline]
    | cons d a =>
      have rest : (d::a).getLast? = some 10 := by simpa using last
      by_cases cut : c = 10 ∨ room ≤ 1
      · have tail := @ih 4095 [] (by simp) rest
        simp only [List.cons_append,fgets,if_pos cut] at tail ⊢
        rw [tail]
      · have tail := @ih (room - 1) (piece ++ [c]) (by simp) rest
        simp only [List.cons_append] at tail ⊢
        rw [fgets,if_neg cut,tail]
        conv_rhs => rw [fgets,if_neg cut]

theorem linesAppend {a : Text} (b : Text) (ended : Ended a) : linesOf (a ++ b) = linesOf a ++ linesOf b := by
  rcases ended with empty | last
  · simp [empty,linesOf,fgets]
  · refine fgetsAppend ?_ last
    rintro rfl
    simp at last

def Within (piece : Text) (kwd : String) (n : Nat) : Prop :=
  let p := skipspace (lineText piece)
  (lookingAt p (ascii kwd)).isSome → (lineText piece).length - p.length + n ≤ piece.length

def Contained (piece : Text) : Prop :=
  Within piece "totaltimeout" 13 ∧ Within piece "nohalt" 8 ∧ Within piece "say" 4

instance (piece : Text) : Decidable (Contained piece) := by
  unfold Contained Within
  infer_instance

theorem cstrNul (x left : Text) : cstr (x ++ 0::left) = cstr x := by
  induction x with
  | nil => rfl
  | cons c x ih =>
    simp only [cstr,List.cons_append,List.takeWhile_cons] at ih ⊢
    split
    · rw [ih]
    · rfl

theorem bufferKnown (piece p : Text) : ∃ known : Text,
    known.length = p.length + (piece.length - (lineText piece).length) ∧
      ∀ left,p ++ 0::lineBehind piece left = known ++ 0::left := by
  obtain ⟨tail,whole⟩ : ∃ tail,lineText piece ++ tail = piece := List.takeWhile_prefix _
  have length : piece.length = (lineText piece).length + tail.length := by
    rw [← whole,List.length_append,whole]
  cases tail with
  | nil =>
    refine ⟨p,by simp only [List.length_nil] at length; omega,?_⟩
    intro left
    have none' : lineText piece = piece := by simpa using whole
    simp [lineBehind,none']
  | cons c behind =>
    refine ⟨p ++ 0::behind,by simp only [List.length_append,List.length_cons] at length ⊢; omega,?_⟩
    intro left
    have after : lineBehind piece left = behind ++ 0::left := by
      have buffer : piece ++ 0::left = lineText piece ++ c::(behind ++ 0::left) := by
        conv_lhs => rw [← whole]
        simp
      rw [lineBehind,buffer,List.drop_append]
      simp
    simp [after]

theorem reachWithin {piece p : Text} {n : Nat} (left left' : Text) (short : p.length ≤ (lineText piece).length)
    (inside : (lineText piece).length - p.length + n ≤ piece.length) :
    reach p (lineBehind piece left) n = reach p (lineBehind piece left') n := by
  obtain ⟨known,length,eq⟩ := bufferKnown piece p
  have fits : n ≤ known.length := by omega
  rw [reach,reach,eq,eq,List.drop_append_of_le_length fits,List.drop_append_of_le_length fits,cstrNul,cstrNul]

theorem fixedWithin {piece : Text} {kwd : String} {n : Nat} (left left' : Text) (make : Text → Command)
    (within : Within piece kwd n) :
    fixed kwd n (lineBehind piece left) make (skipspace (lineText piece)) =
      fixed kwd n (lineBehind piece left') make (skipspace (lineText piece)) := by
  unfold fixed
  cases looked : lookingAt (skipspace (lineText piece)) (ascii kwd) with
  | none => rfl
  | some rest =>
    have short : (skipspace (lineText piece)).length ≤ (lineText piece).length :=
      (List.dropWhile_sublist _).length_le
    have inside := within (by rw [looked]; rfl)
    rw [reachWithin left left' short inside]

theorem commandContained {piece : Text} (null left left' : Text) (contained : Contained piece) :
    commandOf null piece left = commandOf null piece left' := by
  obtain ⟨total,halt,say⟩ := contained
  unfold commandOf command
  cases lookingAt (skipspace (lineText piece)) (ascii "menu") with
  | some rest => rfl
  | none =>
    have each : (plainCommands (lineBehind piece left)).map (fun f => f (skipspace (lineText piece))) =
        (plainCommands (lineBehind piece left')).map (fun f => f (skipspace (lineText piece))) := by
      simp only [plainCommands,List.map_cons,List.map_nil]
      rw [fixedWithin left left' _ total,fixedWithin left left' _ halt,fixedWithin left left' _ say]
    have first (commands : List (Text → Option Command)) (p : Text) :
        firstOf commands p = ((commands.map (fun f => f p)).findSome? id).getD .ignored := by
      rw [firstOf,List.findSome?_map]
      rfl
    simp only [first,each]

theorem scanAppend {env : Env} {nested : Text → State → Option State} (a b : List Text) (l : Locals) (s : State) :
    scan env nested (a ++ b) l s = (scan env nested a l s).bind (fun r => scan env nested b r.1 r.2) := by
  induction a generalizing l s with
  | nil => rfl
  | cons piece a ih =>
    simp only [List.cons_append,scan]
    cases parseLine env nested l s piece with
    | none => rfl
    | some r => exact ih r.1 r.2

/- The line buffer apart, two calls that stand at the same menu and text block go on in the same way. -/
def Alike (l l' : Locals) : Prop :=
  l.m = l'.m ∧ l.text = l'.text

theorem parseLineAlike {env : Env} {nested : Text → State → Option State} {l l' : Locals} {s : State} {piece : Text}
    {r : Locals × State} (contained : Contained piece) (alike : Alike l l')
    (result : parseLine env nested l s piece = some r) :
    ∃ line,parseLine env nested l' s piece = some (⟨r.1.m,r.1.text,line⟩,r.2) := by
  obtain ⟨m,text,line⟩ := l
  obtain ⟨m',text',line'⟩ := l'
  obtain ⟨rfl,rfl⟩ := alike
  unfold parseLine at result ⊢
  cases text with
  | some help =>
    by_cases ended : (lookingAt (skipspace (cstr piece)) (ascii "endtext")).isSome
    · simp only [if_pos ended] at result ⊢
      cases Option.some.inj result
      exact ⟨_,rfl⟩
    · simp only [if_neg ended] at result ⊢
      cases Option.some.inj result
      exact ⟨_,rfl⟩
  | none =>
    simp only [commandContained env.null (line.drop (piece.length + 1)) (line'.drop (piece.length + 1)) contained]
      at result ⊢
    obtain ⟨q,done,rfl⟩ := Option.map_eq_some_iff.mp result
    exact ⟨_,by rw [done]; rfl⟩

theorem scanAlike {env : Env} {nested : Text → State → Option State} {l l' : Locals} {s : State} {pieces : List Text}
    {r : Locals × State} (contained : ∀ piece ∈ pieces,Contained piece) (alike : Alike l l')
    (result : scan env nested pieces l s = some r) :
    ∃ line,scan env nested pieces l' s = some (⟨r.1.m,r.1.text,line⟩,r.2) := by
  induction pieces generalizing l l' s with
  | nil =>
    cases Option.some.inj result
    obtain ⟨m,text,line⟩ := l
    obtain ⟨m',text',line'⟩ := l'
    obtain ⟨rfl,rfl⟩ := alike
    exact ⟨line',rfl⟩
  | cons piece pieces ih =>
    simp only [scan,bind,Option.bind_eq_some_iff] at result ⊢
    obtain ⟨q,first,rest⟩ := result
    obtain ⟨line,first'⟩ := parseLineAlike (contained piece List.mem_cons_self) alike first
    have alike' : Alike q.1 ⟨q.1.m,q.1.text,line⟩ := ⟨rfl,rfl⟩
    obtain ⟨last,rest'⟩ := ih (fun p mem => contained p (List.mem_cons_of_mem _ mem)) alike' rest
    exact ⟨last,_,first',rest'⟩

def Refines (env : Env) (nested nested' : Text → State → Option State) : Prop :=
  ∀ name file s s',env.files name = some file → nested file s = some s' → nested' file s = some s'

theorem doIncludeRefines {env : Env} {nested nested' : Text → State → Option State} {arg : Text} {s s' : State}
    (refines : Refines env nested nested') (result : doInclude env nested arg s = some s') :
    doInclude env nested' arg s = some s' := by
  unfold doInclude at result ⊢
  cases named : env.files (word arg) with
  | none => simpa only [named] using result
  | some file =>
    simp only [named] at result ⊢
    exact refines _ file s s' named result

theorem doIncludeMenuRefines {env : Env} {nested nested' : Text → State → Option State} {arg : Text} {m : Nat}
    {s s' : State} (refines : Refines env nested nested') (result : doIncludeMenu env nested arg m s = some s') :
    doIncludeMenu env nested' arg m s = some s' := by
  unfold doIncludeMenu at result ⊢
  cases named : env.files (word arg) with
  | none => simpa only [named] using result
  | some file =>
    simp only [named] at result ⊢
    by_cases plain : skipspace (afterWord arg) = []
    · simp only [if_pos plain] at result ⊢
      exact refines _ file s s' named result
    · simp only [if_neg plain,bind,Option.bind_eq_some_iff] at result ⊢
      obtain ⟨s1,inner,last⟩ := result
      exact ⟨s1,refines _ file _ s1 named inner,last⟩

theorem performRefines {env : Env} {nested nested' : Text → State → Option State} {m : Nat} {s : State}
    {r : Nat × Option Bool × State} {c : Command} (refines : Refines env nested nested')
    (result : perform env nested m s c = some r) : perform env nested' m s c = some r := by
  cases c with
  | menuInclude arg =>
    obtain ⟨s1,inner,rfl⟩ := Option.map_eq_some_iff.mp result
    exact Option.map_eq_some_iff.mpr ⟨s1,doIncludeMenuRefines refines inner,rfl⟩
  | includeFile arg =>
    obtain ⟨s1,inner,rfl⟩ := Option.map_eq_some_iff.mp result
    exact Option.map_eq_some_iff.mpr ⟨s1,doIncludeRefines refines inner,rfl⟩
  | _ => exact result

theorem parseLineRefines {env : Env} {nested nested' : Text → State → Option State} {l : Locals} {s : State}
    {piece : Text} {r : Locals × State} (refines : Refines env nested nested')
    (result : parseLine env nested l s piece = some r) : parseLine env nested' l s piece = some r := by
  unfold parseLine at result ⊢
  cases text : l.text with
  | some help => simpa only [text] using result
  | none =>
    simp only [text] at result ⊢
    obtain ⟨q,inner,rfl⟩ := Option.map_eq_some_iff.mp result
    exact Option.map_eq_some_iff.mpr ⟨q,performRefines refines inner,rfl⟩

theorem scanRefines {env : Env} {nested nested' : Text → State → Option State} {pieces : List Text} {l : Locals}
    {s : State} {r : Locals × State} (refines : Refines env nested nested')
    (result : scan env nested pieces l s = some r) : scan env nested' pieces l s = some r := by
  induction pieces generalizing l s with
  | nil => exact result
  | cons piece pieces ih =>
    simp only [scan,bind,Option.bind_eq_some_iff] at result ⊢
    obtain ⟨q,first,rest⟩ := result
    exact ⟨q,parseLineRefines refines first,ih rest⟩

def FilesContained (env : Env) : Prop :=
  ∀ name file,env.files name = some file → ∀ piece ∈ linesOf file,Contained piece

theorem parseDeeper {env : Env} (files : FilesContained env) (depth : Nat) {file : Text} {s s' : State}
    (contained : ∀ piece ∈ linesOf file,Contained piece) (result : parseConfigFile env depth file s = some s') :
    parseConfigFile env (depth + 1) file s = some s' := by
  induction depth generalizing file s s' with
  | zero => cases result
  | succ depth ih =>
    rw [parseConfigFile] at result ⊢
    obtain ⟨r,inner,rfl⟩ := Option.map_eq_some_iff.mp result
    have refines : Refines env (parseConfigFile env depth) (parseConfigFile env (depth + 1)) :=
      fun name file s s' named result => ih (files name file named) result
    have deeper := scanRefines refines inner
    have alike : Alike ⟨s.tree.current,none,env.frame depth s⟩ ⟨s.tree.current,none,env.frame (depth + 1) s⟩ :=
      ⟨rfl,rfl⟩
    obtain ⟨line,same⟩ := scanAlike contained alike deeper
    exact Option.map_eq_some_iff.mpr ⟨_,same,rfl⟩

theorem parseRefines {env : Env} (files : FilesContained env) (depth : Nat) :
    Refines env (parseConfigFile env depth) (parseConfigFile env (depth + 1)) :=
  fun name file _ _ named result => parseDeeper files depth (files name file named) result

theorem parseAgree {env : Env} (files : FilesContained env) {file : Text} {s a b : State} {d e : Nat}
    (contained : ∀ piece ∈ linesOf file,Contained piece) (left : parseConfigFile env d file s = some a)
    (right : parseConfigFile env e file s = some b) : a = b := by
  have more {d : Nat} {a : State} (left : parseConfigFile env d file s = some a) (k : Nat) :
      parseConfigFile env (d + k) file s = some a := by
    induction k with
    | zero => exact left
    | succ k ih => exact parseDeeper files (d + k) contained ih
  have one := more left e
  have two := more right d
  rw [Nat.add_comm,one] at two
  exact Option.some.inj two

/- The nesting of MENU BEGIN and MENU END lines and of text blocks, apart from everything else in the files: where
the tree of menus stands, which menu the call works on and whether it is inside a text block. -/
structure Outline where
  m : Nat
  text : Bool
  tree : Tree
  deriving DecidableEq, Repr

def outlineInclude (env : Env) (nested : Text → Tree → Option Tree) (arg : Text) (t : Tree) : Option Tree :=
  match env.files (word arg) with
  | none => some t
  | some file => nested file t

def outlineIncludeMenu (env : Env) (nested : Text → Tree → Option Tree) (arg : Text) (t : Tree) : Option Tree :=
  match env.files (word arg) with
  | none => some t
  | some file => if skipspace (afterWord arg) = [] then nested file t else (nested file t.push).map Tree.pop

def outlineCommand (env : Env) (nested : Text → Tree → Option Tree) (o : Outline) : Command → Option Outline
  | .menuBegin _ => some ⟨o.tree.push.current,false,o.tree.push⟩
  | .menuEnd => some ⟨o.tree.pop.current,false,o.tree.pop⟩
  | .menuInclude arg => (outlineIncludeMenu env nested arg o.tree).map (fun t => ⟨o.m,false,t⟩)
  | .includeFile arg => (outlineInclude env nested arg o.tree).map (fun t => ⟨o.m,false,t⟩)
  | .text _ => some ⟨o.m,true,o.tree⟩
  | _ => some ⟨o.m,false,o.tree⟩

def outlineLine (env : Env) (nested : Text → Tree → Option Tree) (o : Outline) (piece : Text) : Option Outline :=
  if o.text then
    some ⟨o.m,(lookingAt (skipspace (cstr piece)) (ascii "endtext")).isNone,o.tree⟩
  else outlineCommand env nested o (commandOf env.null piece [])

def outlineLines (env : Env) (nested : Text → Tree → Option Tree) : List Text → Outline → Option Outline
  | [],o => some o
  | piece::pieces,o => (outlineLine env nested o piece).bind (outlineLines env nested pieces)

def startOutline (t : Tree) : Outline :=
  ⟨t.current,false,t⟩

def outline (env : Env) : Nat → Text → Tree → Option Tree
  | 0,_,_ => none
  | depth+1,file,t => (outlineLines env (outline env depth) (linesOf file) (startOutline t)).map Outline.tree

def outlineOf (l : Locals) (s : State) : Outline :=
  ⟨l.m,l.text.isSome,s.tree⟩

def Outlines (env : Env) (nested : Text → State → Option State) (nested' : Text → Tree → Option Tree) : Prop :=
  ∀ name file s,env.files name = some file → (nested file s).map State.tree = nested' file s.tree

theorem performOutline {env : Env} {nested : Text → State → Option State} {nested' : Text → Tree → Option Tree}
    (outlines : Outlines env nested nested') (m : Nat) (s : State) (c : Command) :
    (perform env nested m s c).map (fun r => ⟨r.1,r.2.1.isSome,r.2.2.tree⟩) =
      outlineCommand env nested' ⟨m,false,s.tree⟩ c := by
  cases c with
  | menuInclude arg =>
    simp only [perform,outlineCommand,doIncludeMenu,outlineIncludeMenu]
    cases named : env.files (word arg) with
    | none => rfl
    | some file =>
      by_cases plain : skipspace (afterWord arg) = []
      · simp only [if_pos plain]
        rw [← outlines _ file s named]
        cases nested file s <;> rfl
      · simp only [if_neg plain]
        have inner := outlines _ file (beginSubmenu (skipspace (afterWord arg)) (recordIn env m s)) named
        have pushed : (beginSubmenu (skipspace (afterWord arg)) (recordIn env m s)).tree = s.tree.push := rfl
        rw [pushed] at inner
        rw [← inner]
        cases nested file (beginSubmenu (skipspace (afterWord arg)) (recordIn env m s)) <;> rfl
  | includeFile arg =>
    simp only [perform,outlineCommand,doInclude,outlineInclude]
    cases named : env.files (word arg) with
    | none => rfl
    | some file =>
      simp only
      rw [← outlines _ file s named]
      cases nested file s <;> rfl
  | _ => rfl

theorem parseLineOutline {env : Env} {nested : Text → State → Option State} {nested' : Text → Tree → Option Tree}
    {piece : Text} (outlines : Outlines env nested nested') (contained : Contained piece) (l : Locals) (s : State) :
    (parseLine env nested l s piece).map (fun r => outlineOf r.1 r.2) =
      outlineLine env nested' (outlineOf l s) piece := by
  unfold parseLine outlineLine outlineOf
  cases text : l.text with
  | some help =>
    by_cases ended : (lookingAt (skipspace (cstr piece)) (ascii "endtext")).isSome
    · simp [ended]
    · have tree : (if help = true then addHelp (cstr piece) s else s).tree = s.tree := by
        split <;> rfl
      have open' : lookingAt (skipspace (cstr piece)) (ascii "endtext") = none := by simpa using ended
      simp [open',tree]
  | none =>
    simp only [Option.isSome_none,Bool.false_eq_true,if_false,Option.map_map]
    rw [commandContained env.null (l.line.drop (piece.length + 1)) [] contained]
    exact performOutline outlines l.m s _

theorem scanOutline {env : Env} {nested : Text → State → Option State} {nested' : Text → Tree → Option Tree}
    {pieces : List Text} (outlines : Outlines env nested nested') (contained : ∀ piece ∈ pieces,Contained piece)
    (l : Locals) (s : State) : (scan env nested pieces l s).map (fun r => outlineOf r.1 r.2) =
      outlineLines env nested' pieces (outlineOf l s) := by
  induction pieces generalizing l s with
  | nil => rfl
  | cons piece pieces ih =>
    have first := parseLineOutline outlines (contained piece List.mem_cons_self) l s
    have rest := ih (fun p mem => contained p (List.mem_cons_of_mem _ mem))
    simp only [scan,outlineLines]
    rw [← first]
    cases parseLine env nested l s piece with
    | none => rfl
    | some r => exact rest r.1 r.2

theorem parseOutline {env : Env} (files : FilesContained env) (depth : Nat) :
    Outlines env (parseConfigFile env depth) (outline env depth) := by
  induction depth with
  | zero =>
    intro name file s _
    rfl
  | succ depth ih =>
    intro name file s named
    have whole := scanOutline ih (files name file named) ⟨s.tree.current,none,env.frame depth s⟩ s
    have start : outlineOf ⟨s.tree.current,none,env.frame depth s⟩ s = startOutline s.tree := rfl
    rw [start] at whole
    rw [parseConfigFile,outline,← whole,Option.map_map,Option.map_map]
    rfl

def SameParse (env : Env) (start : State) (a b : Text) : Prop :=
  ∀ s',(∃ depth,parseConfigFile env depth a start = some s') ↔ ∃ depth,parseConfigFile env depth b start = some s'

def StandsAt (env : Env) (start : State) (pre : Text) (depth : Nat) (o : Outline) : Prop :=
  outlineLines env (outline env depth) (linesOf pre) (startOutline start.tree) = some o

/- The line behind pre names the second file, and the outer call gets to it outside a text block and at the current
menu. -/
structure Included (env : Env) (start : State) (pre line second : Text) : Prop where
  files : FilesContained env
  contained : ∀ piece ∈ linesOf pre,Contained piece
  ended : Ended pre
  single : linesOf line = [line]
  command : ∃ arg,env.files (word arg) = some second ∧ ∀ left,commandOf env.null line left = .includeFile arg
  secondEnded : Ended second
  fresh : ∀ depth o,StandsAt env start pre depth o → o.text = false ∧ o.m = o.tree.current

def Closed (env : Env) (start : State) (pre second : Text) : Prop :=
  ∀ depth o o',StandsAt env start pre depth o →
    outlineLines env (outline env depth) (linesOf second) (startOutline o.tree) = some o' →
      o'.m = o.tree.current ∧ o'.text = false

theorem scanTwo {env : Env} {nested : Text → State → Option State} {a b : List Text} {l : Locals} {s : State}
    {r : Locals × State} : scan env nested (a ++ b) l s = some r ↔
      ∃ q,scan env nested a l s = some q ∧ scan env nested b q.1 q.2 = some r := by
  rw [scanAppend,Option.bind_eq_some_iff]

theorem parseIff {env : Env} {depth : Nat} {file : Text} {s s' : State} :
    parseConfigFile env (depth + 1) file s = some s' ↔
      ∃ l,scan env (parseConfigFile env depth) (linesOf file) ⟨s.tree.current,none,env.frame depth s⟩ s =
        some (l,s') := by
  rw [parseConfigFile,Option.map_eq_some_iff]
  constructor
  · rintro ⟨⟨l,t⟩,result,rfl⟩
    exact ⟨l,result⟩
  · rintro ⟨l,result⟩
    exact ⟨_,result,rfl⟩

theorem standsAfter {env : Env} {start s : State} {pre line second : Text} {depth : Nat} {l : Locals}
    (included : Included env start pre line second)
    (scanned : scan env (parseConfigFile env depth) (linesOf pre)
      ⟨start.tree.current,none,env.frame depth start⟩ start = some (l,s)) :
    StandsAt env start pre depth (outlineOf l s) ∧ l.text = none ∧ l.m = s.tree.current := by
  have whole := scanOutline (parseOutline included.files depth) included.contained
    ⟨start.tree.current,none,env.frame depth start⟩ start
  rw [scanned] at whole
  have stands : StandsAt env start pre depth (outlineOf l s) := whole.symm
  obtain ⟨outside,current⟩ := included.fresh depth _ stands
  refine ⟨stands,?_,current⟩
  simpa [outlineOf] using outside

theorem closedAfter {env : Env} {start s s' : State} {pre second name : Text} {depth : Nat} {l l' : Locals}
    (files : FilesContained env) (named : env.files name = some second) (closed : Closed env start pre second)
    (stands : StandsAt env start pre depth (outlineOf l s)) (outside : l.text = none) (current : l.m = s.tree.current)
    (scanned : scan env (parseConfigFile env depth) (linesOf second) l s = some (l',s')) : Alike l l' := by
  have whole := scanOutline (parseOutline files depth) (files name second named) l s
  have start' : outlineOf l s = startOutline s.tree := by simp [outlineOf,startOutline,outside,current]
  rw [scanned,start'] at whole
  obtain ⟨m,text⟩ := closed depth _ _ stands whole.symm
  have text' : l'.text = none := by simpa [outlineOf] using text
  exact ⟨current.trans m.symm,outside.trans text'.symm⟩

theorem nestedIff {env : Env} {second name : Text} {s s' : State} {depth : Nat} {l : Locals}
    (files : FilesContained env) (named : env.files name = some second) (outside : l.text = none)
    (current : l.m = s.tree.current) : parseConfigFile env (depth + 1) second s = some s' ↔
      ∃ l',scan env (parseConfigFile env depth) (linesOf second) l s = some (l',s') := by
  have alike : Alike ⟨s.tree.current,none,env.frame depth s⟩ l := ⟨current.symm,outside.symm⟩
  rw [parseIff]
  constructor
  · rintro ⟨l',scanned⟩
    obtain ⟨line,same⟩ := scanAlike (files name second named) alike scanned
    exact ⟨_,same⟩
  · rintro ⟨l',scanned⟩
    obtain ⟨line,same⟩ := scanAlike (files name second named) ⟨alike.1.symm,alike.2.symm⟩ scanned
    exact ⟨_,same⟩

theorem includeLine {env : Env} {nested : Text → State → Option State} {l l' : Locals} {s s' : State}
    {line arg second : Text} (named : env.files (word arg) = some second)
    (command : ∀ left,commandOf env.null line left = .includeFile arg) (outside : l.text = none) :
    parseLine env nested l s line = some (l',s') ↔
      nested second s = some s' ∧ l' = ⟨l.m,none,lineCut line (l.line.drop (line.length + 1))⟩ := by
  simp only [parseLine,outside,command,perform,doInclude,named,Option.map_map]
  cases nested second s with
  | none => simp
  | some t =>
    simp only [Option.map_some,Option.some.injEq,Prod.mk.injEq,Function.comp_apply]
    constructor
    · rintro ⟨rfl,rfl⟩
      exact ⟨rfl,rfl⟩
    · rintro ⟨rfl,rfl⟩
      exact ⟨rfl,rfl⟩

theorem linesFirst {env : Env} {start : State} {pre line second rest : Text}
    (included : Included env start pre line second) (ended : Ended line ∨ rest = []) :
    linesOf (pre ++ line ++ rest) = linesOf pre ++ (line :: linesOf rest) := by
  have behind : linesOf (line ++ rest) = line :: linesOf rest := by
    rcases ended with whole | last
    · rw [linesAppend rest whole,included.single,List.singleton_append]
    · rw [last,List.append_nil,included.single]
      rfl
  rw [List.append_assoc,linesAppend _ included.ended,behind]

theorem linesSpliced {env : Env} {start : State} {pre line second : Text}
    (included : Included env start pre line second) (rest : Text) :
    linesOf (pre ++ second ++ rest) = linesOf pre ++ (linesOf second ++ linesOf rest) := by
  rw [List.append_assoc,linesAppend _ included.ended,linesAppend _ included.secondEnded]

theorem restAlike {env : Env} {nested : Text → State → Option State} {l l' : Locals} {s : State} {rest : Text}
    {r : Locals × State} (contained : ∀ piece ∈ linesOf rest,Contained piece) (alike : rest = [] ∨ Alike l l')
    (scanned : scan env nested (linesOf rest) l s = some r) :
    ∃ l'',scan env nested (linesOf rest) l' s = some (l'',r.2) := by
  rcases alike with last | alike
  · subst last
    cases Option.some.inj scanned
    exact ⟨l',rfl⟩
  · obtain ⟨line,same⟩ := scanAlike contained alike scanned
    exact ⟨_,same⟩

theorem splicedOfIncluded {env : Env} {start s' : State} {pre line second rest : Text} {depth : Nat}
    (included : Included env start pre line second) (closed : rest = [] ∨ Closed env start pre second)
    (ended : Ended line ∨ rest = []) (contained : ∀ piece ∈ linesOf rest,Contained piece)
    (parsed : parseConfigFile env (depth + 1) (pre ++ line ++ rest) start = some s') :
    parseConfigFile env (depth + 1) (pre ++ second ++ rest) start = some s' := by
  obtain ⟨arg,named,command⟩ := included.command
  obtain ⟨lf,scanned⟩ := parseIff.1 parsed
  rw [linesFirst included ended] at scanned
  obtain ⟨⟨l,s⟩,before,after⟩ := scanTwo.1 scanned
  obtain ⟨stands,outside,current⟩ := standsAfter included before
  simp only [scan,bind,Option.bind_eq_some_iff] at after
  obtain ⟨⟨l1,s1⟩,here,later⟩ := after
  obtain ⟨nested,rfl⟩ := (includeLine named command outside).mp here
  cases depth with
  | zero => cases nested
  | succ depth =>
    obtain ⟨li,inner⟩ := (nestedIff included.files named outside current).mp nested
    have inner' := scanRefines (parseRefines included.files depth) inner
    have alike : rest = [] ∨ Alike ⟨l.m,none,lineCut line (l.line.drop (line.length + 1))⟩ li := by
      rcases closed with last | closed
      · exact .inl last
      · have same := closedAfter included.files named closed stands outside current inner'
        exact .inr ⟨same.1,outside.symm.trans same.2⟩
    obtain ⟨l2,last⟩ := restAlike contained alike later
    refine parseIff.2 ⟨l2,?_⟩
    rw [linesSpliced included rest]
    exact scanTwo.2 ⟨_,before,scanTwo.2 ⟨_,inner',last⟩⟩

theorem includeRun {env : Env} {start s s₁ : State} {pre line second : Text} {depth : Nat} {l li : Locals}
    (included : Included env start pre line second)
    (before : scan env (parseConfigFile env depth) (linesOf pre)
      ⟨start.tree.current,none,env.frame depth start⟩ start = some (l,s))
    (inner : scan env (parseConfigFile env depth) (linesOf second) l s = some (li,s₁)) :
    ∃ buffer,scan env (parseConfigFile env (depth + 1)) (linesOf pre ++ [line])
      ⟨start.tree.current,none,env.frame (depth + 1) start⟩ start = some (⟨l.m,none,buffer⟩,s₁) := by
  obtain ⟨arg,named,command⟩ := included.command
  obtain ⟨_,outside,current⟩ := standsAfter included before
  have frames : Alike ⟨start.tree.current,none,env.frame depth start⟩
      ⟨start.tree.current,none,env.frame (depth + 1) start⟩ := ⟨rfl,rfl⟩
  obtain ⟨buffer,before'⟩ := scanAlike included.contained frames
    (scanRefines (parseRefines included.files depth) before)
  have nested := (nestedIff included.files named outside current).mpr ⟨li,inner⟩
  have outside' : (⟨l.m,l.text,buffer⟩ : Locals).text = none := outside
  have here := (includeLine named command outside').mpr ⟨nested,rfl⟩
  refine ⟨lineCut line (buffer.drop (line.length + 1)),scanTwo.2 ⟨_,before',?_⟩⟩
  simp only [scan,here,bind,Option.bind]

theorem includedOfSpliced {env : Env} {start s' : State} {pre line second rest : Text} {depth : Nat}
    (included : Included env start pre line second) (closed : rest = [] ∨ Closed env start pre second)
    (ended : Ended line ∨ rest = []) (contained : ∀ piece ∈ linesOf rest,Contained piece)
    (parsed : parseConfigFile env (depth + 1) (pre ++ second ++ rest) start = some s') :
    parseConfigFile env (depth + 2) (pre ++ line ++ rest) start = some s' := by
  obtain ⟨arg,named,_⟩ := included.command
  obtain ⟨lf,scanned⟩ := parseIff.1 parsed
  rw [linesSpliced included rest] at scanned
  obtain ⟨⟨l,s⟩,before,after⟩ := scanTwo.1 scanned
  obtain ⟨stands,outside,current⟩ := standsAfter included before
  obtain ⟨⟨li,s1⟩,inner,later⟩ := scanTwo.1 after
  obtain ⟨buffer,run⟩ := includeRun included before inner
  have alike : rest = [] ∨ Alike li ⟨l.m,none,buffer⟩ := by
    rcases closed with last | closed
    · exact .inl last
    · have same := closedAfter included.files named closed stands outside current inner
      exact .inr ⟨same.1.symm,same.2.symm.trans outside⟩
  obtain ⟨l2,last⟩ := restAlike contained alike (scanRefines (parseRefines included.files depth) later)
  refine parseIff.2 ⟨l2,?_⟩
  rw [linesFirst included ended,← List.singleton_append,← List.append_assoc]
  exact scanTwo.2 ⟨_,run,last⟩

theorem sameParse {env : Env} {start : State} {pre line second rest : Text}
    (included : Included env start pre line second) (closed : rest = [] ∨ Closed env start pre second)
    (ended : Ended line ∨ rest = []) (contained : ∀ piece ∈ linesOf rest,Contained piece) :
    SameParse env start (pre ++ line ++ rest) (pre ++ second ++ rest) := by
  intro s'
  constructor
  · rintro ⟨depth,parsed⟩
    cases depth with
    | zero => cases parsed
    | succ depth => exact ⟨depth + 1,splicedOfIncluded included closed ended contained parsed⟩
  · rintro ⟨depth,parsed⟩
    cases depth with
    | zero => cases parsed
    | succ depth => exact ⟨depth + 2,includedOfSpliced included closed ended contained parsed⟩

theorem setMenuEntries (d : Data) (m : Nat) (f : Menu → Menu) : (setMenu d m f).allEntries = d.allEntries :=
  rfl

theorem considerEntries (d : Data) (m e : Nat) :
    (considerForHotkey d m e).allEntries.length = d.allEntries.length := by
  unfold considerForHotkey
  cases d.allEntries[e]? with
  | none => rfl
  | some me =>
    cases d.menus[m]? with
    | none => rfl
    | some menu =>
      dsimp only
      split
      · simp [setMenu,setEntry]
      · rfl

theorem recordMore (env : Env) (m : Nat) (d : Data) :
    d.allEntries.length ≤ (record env m d).allEntries.length := by
  by_cases nothing : d.ld.label = none
  · simp [record,nothing]
  · have added (m : Nat) (fill : Entry → Entry) :
        (newEntry d m fill).allEntries.length = d.allEntries.length + 1 := by
      simp [newEntry,setMenu]
    simp only [record,if_neg nothing,apply_ite Data.allEntries,apply_ite List.length,setMenuEntries,considerEntries,
      added,ite_self]
    omega

theorem recordLast (env : Env) (m : Nat) {d : Data} (some' : d.ld.label ≠ none) (shown : d.ld.menuhide = false)
    (plain : d.ld.menulabel = none) :
    ∃ me : Entry,me.menu = m ∧ (record env m d).allEntries = d.allEntries ++ [me] := by
  refine ⟨recordEntry env d.ld d.append (((d.menus[m]?).map Menu.save).getD false) (emptyEntry m (nentries d m)),rfl,?_⟩
  simp only [record,if_neg some',shown,plain,if_true,Bool.false_eq_true,if_false,newEntry,setMenu]
  split <;> rfl

def probe : Text := ascii "label a\n"

theorem probeLine (env : Env) (nested : Text → State → Option State) (m : Nat) (line : Text) (s : State) :
    parseLine env nested ⟨m,none,line⟩ s probe =
      some (⟨m,none,lineCut probe (line.drop (probe.length + 1))⟩,
        { s with data := execute env s.tree m s.data (.label [97]) }) :=
  rfl

theorem probesRecord (env : Env) (nested : Text → State → Option State) {l : Locals} (s : State)
    (outside : l.text = none) : ∃ l' s' before me,scan env nested [probe,probe] l s = some (l',s') ∧
      s'.data.allEntries = before ++ [me] ∧ me.menu = l.m ∧ s.data.allEntries.length ≤ before.length := by
  obtain ⟨m,text,line⟩ := l
  cases outside
  have some' : (execute env s.tree m s.data (.label [97])).ld.label ≠ none := by simp [execute,setLd]
  obtain ⟨me,menu,last⟩ := recordLast env m some' rfl rfl
  have whole : ∃ l',scan env nested [probe,probe] ⟨m,none,line⟩ s = some (l',{ s with
      data := execute env s.tree m (execute env s.tree m s.data (.label [97])) (.label [97]) }) := by
    simp only [scan,bind,Option.bind,probeLine]
    exact ⟨_,rfl⟩
  obtain ⟨l',scanned⟩ := whole
  exact ⟨l',_,_,me,scanned,last,menu,recordMore env m s.data⟩

theorem probeText (env : Env) (nested : Text → State → Option State) {l : Locals} {help : Bool} (s : State)
    (inside : l.text = some help) : ∃ l' s',parseLine env nested l s probe = some (l',s') ∧ l'.text = some help ∧
      s'.data.allEntries = s.data.allEntries := by
  have goesOn : (lookingAt (skipspace (cstr probe)) (ascii "endtext")).isSome = false := by decide
  refine ⟨⟨l.m,some help,probe ++ 0::l.line.drop (probe.length + 1)⟩,if help then addHelp (cstr probe) s else s,
    ?_,rfl,?_⟩
  · simp only [parseLine,inside,goesOn,Bool.false_eq_true,if_false]
  · split <;> rfl

theorem probesIgnored (env : Env) (nested : Text → State → Option State) {l : Locals} {help : Bool} (s : State)
    (inside : l.text = some help) : ∃ l' s',scan env nested [probe,probe] l s = some (l',s') ∧
      s'.data.allEntries = s.data.allEntries := by
  obtain ⟨l1,s1,first,still,same⟩ := probeText env nested s inside
  obtain ⟨l2,s2,second,_,same'⟩ := probeText env nested s1 still
  refine ⟨l2,s2,?_,same'.trans same⟩
  simp only [scan,bind,Option.bind,first,second]

def probes : Text := probe ++ probe

theorem probesLines : linesOf probes = [probe,probe] := by decide

theorem probesContained : ∀ piece ∈ linesOf probes,Contained piece := by
  rw [probesLines]
  decide

theorem scanOfOutline {env : Env} {depth : Nat} {pieces : List Text} {o : Outline} (l : Locals) (s : State)
    (files : FilesContained env) (contained : ∀ piece ∈ pieces,Contained piece)
    (lines : outlineLines env (outline env depth) pieces (outlineOf l s) = some o) :
    ∃ l' s',scan env (parseConfigFile env depth) pieces l s = some (l',s') ∧ outlineOf l' s' = o := by
  rw [← scanOutline (parseOutline files depth) contained l s] at lines
  obtain ⟨⟨l',s'⟩,scanned,same⟩ := Option.map_eq_some_iff.mp lines
  exact ⟨l',s',scanned,same⟩

/- Two labels behind the INCLUDE line tell an open second file from the same lines in its place. -/
theorem closedOfSame {env : Env} {start : State} {pre line second : Text}
    (included : Included env start pre line second) (ended : Ended line)
    (same : SameParse env start (pre ++ line ++ probes) (pre ++ second ++ probes)) :
    Closed env start pre second := by
  intro depth o o' stands lines
  obtain ⟨arg,named,command⟩ := included.command
  have secondContained := included.files _ second named
  obtain ⟨l,s,before,rfl⟩ := scanOfOutline ⟨start.tree.current,none,env.frame depth start⟩ start included.files
    included.contained stands
  obtain ⟨_,outside,current⟩ := standsAfter included before
  have start' : startOutline (outlineOf l s).tree = outlineOf l s := by simp [outlineOf,startOutline,outside,current]
  rw [start'] at lines
  obtain ⟨li,s1,inner,rfl⟩ := scanOfOutline l s included.files secondContained lines
  obtain ⟨buffer,run⟩ := includeRun included before inner
  obtain ⟨l2,s2,entries,me,recorded,added,menu,more⟩ := probesRecord env
    (parseConfigFile env (depth + 1)) s1 (rfl : (⟨l.m,none,buffer⟩ : Locals).text = none)
  have first : parseConfigFile env (depth + 2) (pre ++ line ++ probes) start = some s2 := by
    refine parseIff.2 ⟨l2,?_⟩
    rw [linesFirst included (.inl ended),← List.singleton_append,← List.append_assoc,probesLines]
    exact scanTwo.2 ⟨_,run,recorded⟩
  obtain ⟨d,spliced⟩ := (same s2).mp ⟨_,first⟩
  have all : ∀ piece ∈ linesOf (pre ++ second ++ probes),Contained piece := by
    rw [linesSpliced included probes]
    intro piece mem
    rcases List.mem_append.mp mem with inPre | later
    · exact included.contained piece inPre
    · rcases List.mem_append.mp later with inSecond | inProbes
      · exact secondContained piece inSecond
      · exact probesContained piece inProbes
  have here {l3 : Locals} {s3 : State}
      (scanned : scan env (parseConfigFile env depth) [probe,probe] li s1 = some (l3,s3)) : s3 = s2 := by
    have whole : parseConfigFile env (depth + 1) (pre ++ second ++ probes) start = some s3 := by
      refine parseIff.2 ⟨l3,?_⟩
      rw [linesSpliced included probes,probesLines]
      exact scanTwo.2 ⟨_,before,scanTwo.2 ⟨_,inner,scanned⟩⟩
    exact parseAgree included.files all whole spliced
  cases text : li.text with
  | some help =>
    obtain ⟨l3,s3,ignored,kept⟩ := probesIgnored env (parseConfigFile env depth) s1 text
    rw [here ignored,added] at kept
    have lengths := congrArg List.length kept
    simp only [List.length_append,List.length_cons,List.length_nil] at lengths
    omega
  | none =>
    obtain ⟨l3,s3,entries',me',recorded',added',menu',_⟩ := probesRecord env
      (parseConfigFile env depth) s1 text
    rw [here recorded',added] at added'
    obtain ⟨_,lasts⟩ := List.append_inj' added' rfl
    have one : me = me' := by simpa using lasts
    have menus : li.m = l.m := by rw [← menu',← one,menu]
    exact ⟨menus.trans current,by simp [outlineOf,text]⟩

theorem includeSplices {env : Env} {start : State} {pre line second : Text}
    (included : Included env start pre line second) (ended : Ended line) :
    ((∀ rest,(∀ piece ∈ linesOf rest,Contained piece) →
        SameParse env start (pre ++ line ++ rest) (pre ++ second ++ rest)) ↔ Closed env start pre second) ∧
      SameParse env start (pre ++ line) (pre ++ second) := by
  refine ⟨⟨?_,?_⟩,?_⟩
  · intro always
    exact closedOfSame included ended (always probes probesContained)
  · intro closed rest contained
    exact sameParse included (.inr closed) (.inl ended) contained
  · have nothing : ∀ piece ∈ linesOf [],Contained piece := by simp [linesOf,fgets]
    have last := sameParse included (.inl rfl) (.inl ended) nothing
    simpa using last

def closedEnv : Env where
  files := fun name => if name = ascii "b" then some (ascii "menu begin x\nmenu end\n") else none
  null := []
  frame := fun _ _ => []
  clkTck := 18
  sysappendStrings := []
  serialPorts := fun _ => 0
  lcr := fun _ => 3
  pxelinux := false

theorem closedIncluded : Included closedEnv (configStart bootSettings) (ascii "default l\n") (ascii "include b\n")
    (ascii "menu begin x\nmenu end\n") where
  files := by
    intro name file named
    have same : file = ascii "menu begin x\nmenu end\n" := by
      simp only [closedEnv] at named
      split at named
      · exact (Option.some.inj named).symm
      · cases named
    rw [same]
    decide
  contained := by decide
  ended := .inr (by decide)
  single := by decide
  command := ⟨ascii "b",rfl,fun _ => rfl⟩
  secondEnded := .inr (by decide)
  fresh := by
    intro depth o stands
    cases Option.some.inj (stands.symm.trans rfl)
    exact ⟨rfl,rfl⟩

theorem includeSplicesClosed :
    Closed closedEnv (configStart bootSettings) (ascii "default l\n") (ascii "menu begin x\nmenu end\n") ∧
      ∀ rest,(∀ piece ∈ linesOf rest,Contained piece) → SameParse closedEnv (configStart bootSettings)
        (ascii "default l\n" ++ ascii "include b\n" ++ rest)
        (ascii "default l\n" ++ ascii "menu begin x\nmenu end\n" ++ rest) := by
  have closed : Closed closedEnv (configStart bootSettings) (ascii "default l\n") (ascii "menu begin x\nmenu end\n") := by
    intro depth o o' stands lines
    cases Option.some.inj (stands.symm.trans rfl)
    cases Option.some.inj (lines.symm.trans rfl)
    exact ⟨rfl,rfl⟩
  exact ⟨closed,(includeSplices closedIncluded (.inr (by decide))).1.mpr closed⟩

def openEnv : Env :=
  { closedEnv with files := fun name => if name = ascii "b" then some (ascii "menu begin x\n") else none }

def entryMenus (s : State) : List Nat :=
  s.data.allEntries.map Entry.menu

/- Label l goes to the top menu, although it stands behind MENU BEGIN. -/
theorem includeLeavesMenu : openEnv.files (ascii "b") = some (ascii "menu begin x\n") ∧
    Ended (ascii "menu begin x\n") ∧ ¬SameParse openEnv (configStart bootSettings)
      (ascii "include b\nlabel l\nlabel k\n") (ascii "menu begin x\nlabel l\nlabel k\n") := by
  refine ⟨rfl,.inr (by decide),?_⟩
  intro same
  have first : (parseConfigFile openEnv 2 (ascii "include b\nlabel l\nlabel k\n") (configStart bootSettings)).map
      entryMenus = some [1,1] := rfl
  obtain ⟨s',parsed,menus⟩ := Option.map_eq_some_iff.mp first
  obtain ⟨depth,spliced⟩ := (same s').mp ⟨2,parsed⟩
  cases depth with
  | zero => cases spliced
  | succ depth =>
    have other : (parseConfigFile openEnv (depth + 1) (ascii "menu begin x\nlabel l\nlabel k\n")
        (configStart bootSettings)).map entryMenus = some [1,2] := rfl
    rw [spliced,Option.map_some,menus] at other
    simp at other

end Syslinux.Readconfig
