import Syslinux.ReadconfigLabels
import Syslinux.Refstr

/-! com32/elflink/ldlinux/readconfig.c, what parse_configs does with its reference-counted strings: the variables and
fields that hold one, and the assignments to them that each step of the parser makes. -/
namespace Syslinux.Readconfig
open Refstr (Program temporary clear)

inductive LabelField where
  | label | kernel | append | initrd | menulabel | passwd
  deriving DecidableEq, Repr

inductive EntryField where
  | displayname | label | passwd | cmdline
  deriving DecidableEq, Repr

inductive MenuField where
  | label | title | ontimeout | onerror | masterPasswd | background
  | message (msgnr : Nat)
  | ansi (color : Nat)
  | textname (fkeyno : Nat)
  | fkeyBackground (fkeyno : Nat)
  deriving DecidableEq, Repr

inductive Local where
  | dn | a | filename | str | lstr | q
  deriving DecidableEq, Repr

/- There is one file for each include that is under way; it goes by the depth that is left. -/
inductive Slot where
  | emptyString | append | globaldefault | defaultCmd | ontimeout | onerror
  | ld (field : LabelField)
  | entry (e : Nat) (field : EntryField)
  | menu (m : Nat) (field : MenuField)
  | temp (l : Local)
  | file (depth : Nat)
  deriving DecidableEq, Repr

def replace (s : Slot) : Program Slot := [[.put s,.alloc s]]

def recordAction (ld : Labeldata) : Action :=
  if ld.menuseparator || ld.menudisabled then .disabled else if ld.action = .none then .cmd else ld.action

def clearLabelRefs : List (Refstr.Stmt Slot) :=
  clear [.ld .label,.ld .kernel,.ld .append,.ld .initrd,.ld .menulabel,.ld .passwd]

def recordRefs (d : Data) : Program Slot :=
  if d.ld.label = none then []
  else
    let e := d.allEntries.length
    [[.get (.entry e .displayname) (.ld (if d.ld.menulabel = none then .label else .menulabel))],
      [.get (.entry e .label) (.ld .label)],
      [.get (.entry e .passwd) (.ld .passwd)]] ++
    (if d.ld.menuindent = 0 then []
      else [[.alloc (.temp .dn)],[.put (.entry e .displayname),.move (.entry e .displayname) (.temp .dn)]]) ++
    (if d.ld.menuseparator then [[.put (.entry e .displayname),.get (.entry e .displayname) .emptyString]] else []) ++
    (if d.ld.menuseparator || d.ld.menudisabled then
      [[.put (.entry e .label),.null (.entry e .label)],[.put (.entry e .passwd),.null (.entry e .passwd)]]
      else []) ++
    (match recordAction d.ld with
      | .cmd => [[.alloc (.entry e .cmdline)]]
      | .gotoUnres => [[.get (.entry e .cmdline) (.ld .kernel)]]
      | .exitUnres => [[.get (.entry e .cmdline) (.ld .kernel)]]
      | _ => []) ++
    [clearLabelRefs]

def inherited : List MenuField :=
  (List.range 5).map .message ++ [.ontimeout,.onerror,.masterPasswd,.background] ++ (List.range 274).map .ansi ++
    (List.range 12).map .textname ++ (List.range 12).map .fkeyBackground

def beginRefs (tag : Text) (current : Nat) (d : Data) : Program Slot :=
  let e := d.allEntries.length
  let m := d.menus.length
  (if tag = [] then [] else [[.alloc (.entry e .displayname)]]) ++
  [[.get (.menu m .label) (.entry e .displayname)],[.get (.menu m .title) .emptyString]] ++
  inherited.map fun f => [.get (.menu m f) (.menu current f)]

/- new_menu without a parent. The first message has no text. -/
def topFields : List MenuField :=
  [.message 1,.message 2,.message 3,.message 4] ++ (List.range 274).map .ansi

def topRefs (m : Nat) : Program Slot :=
  [[.alloc (.menu m .label)],[.get (.menu m .title) .emptyString]] ++ topFields.map fun f => [.alloc (.menu m f)]

/- refstr_put, then another string that a does not hold any longer. -/
def takeA (s : Slot) : Program Slot := [[.put s,.move s (.temp .a)]]

def pathRefs : Text → Text → Program Slot
  | [],comp => if comp = [] then [] else temporary (.temp .str)
  | c::p,comp =>
      if c = 58 then temporary (.temp .str) ++ if comp = [] then [] else pathRefs p []
      else pathRefs p (comp ++ [c])

/- display and font move the pointer along the file name before they put it. -/
def filenameRefs (arg : Text) : Program Slot :=
  [[.alloc (.temp .filename)],
    [.advance (.temp .filename) (kernelNameOf arg).length,.put (.temp .filename),.null (.temp .filename)]]

def onerrorRefs (m : Nat) : Program Slot := replace (.menu m .onerror) ++ replace .onerror

def colorRefs (m : Nat) (names : List Text) (arg : Text) : Program Slot :=
  match nameAt arg names 0 with
  | none => []
  | some (i,rest) => if rest = [] ∨ star rest then [] else replace (.menu m (.ansi i))

def menuLabelRefs (m : Nat) (d : Data) (arg : Text) : Program Slot :=
  match parentEntry d m with
  | none => []
  | some e =>
      replace (.entry e .displayname) ++
      if ((d.menus[m]?).map Menu.title).getD [] = [] then
        if 94 ∈ arg then replace (.menu m .title) else [[.put (.menu m .title),.get (.menu m .title) (.entry e .displayname)]]
      else []

def menuTitleRefs (m : Nat) (d : Data) : Program Slot :=
  replace (.menu m .title) ++
  match parentEntry d m with
  | none => []
  | some e =>
      if ((d.allEntries[e]?).map Entry.isLabel).getD false then
        [[.put (.entry e .displayname),.get (.entry e .displayname) (.menu m .title)]]
      else []

def executeRefs (env : Env) (t : Tree) (m : Nat) (d : Data) : Command → Program Slot
  | .menuLabel arg => if d.ld.label = none then menuLabelRefs m d arg else replace (.ld .menulabel)
  | .menuTitle _ => menuTitleRefs m d
  | .menuPasswd _ =>
      if d.ld.label = none then (parentEntry d m).elim [] fun e => replace (.entry e .passwd)
      else replace (.ld .passwd)
  | .menuOnerror _ => onerrorRefs m
  | .menuMaster arg => if (lookingAt arg (ascii "passwd")).isSome then replace (.menu m .masterPasswd) else []
  | .menuBackground _ => replace (.menu m .background)
  | .menuMessage msgnr _ => replace (.menu m (.message msgnr))
  | .menuColor arg => (d.menus[m]?).elim [] fun menu => colorRefs m (menu.colors.map Color.name) arg
  | .menuSeparator =>
      recordRefs d ++ [[.get (.ld .label) .emptyString]] ++
        recordRefs (setLd (record env m d) fun ld => { ld with label := some [],menuseparator := true })
  | .menuGoto _ => if d.ld.label = none then [] else replace (.ld .kernel)
  | .menuExit arg => if d.ld.label = none ∨ t.parent m = none ∨ arg = [] then [] else replace (.ld .kernel)
  | .fkey fkeyno arg =>
      [[.put (.menu m (.textname fkeyno)),.null (.menu m (.textname fkeyno))],
        [.put (.menu m (.fkeyBackground fkeyno)),.null (.menu m (.fkeyBackground fkeyno))]] ++
      replace (.menu m (.textname fkeyno)) ++
      if afterWord arg = [] then [] else [[.alloc (.menu m (.fkeyBackground fkeyno))]]
  | .append _ => [[.alloc (.temp .a)]] ++ if d.ld.label = none then takeA .append else takeA (.ld .append)
  | .initrd _ => [[.alloc (.temp .a)]] ++ if d.ld.label = none then [[.null (.temp .a)]] else takeA (.ld .initrd)
  | .label _ =>
      recordRefs d ++
      [[.alloc (.ld .label)],[.alloc (.ld .kernel)],[.null (.ld .passwd)],[.null (.ld .append)],[.null (.ld .initrd)],
        [.null (.ld .menulabel)]]
  | .kernel _ _ => if d.ld.label = none then [] else replace (.ld .kernel)
  | .ontimeout _ => [[.alloc .ontimeout]]
  | .default _ => replace .globaldefault ++ if d.defaultlevel < 2 then replace .defaultCmd else []
  | .ui _ => replace .defaultCmd
  | .display arg => filenameRefs arg
  | .font arg => filenameRefs arg
  | .kbdmap _ => temporary (.temp .filename)
  | .onerror _ => onerrorRefs m
  | .path arg => pathRefs arg []
  | _ => []

/- The steps of the parser that touch a string. A file that is included has its name in a string of its own. -/
inductive Step where
  | record (d : Data)
  | begin (tag : Text) (current : Nat) (d : Data)
  | execute (t : Tree) (m : Nat) (d : Data) (c : Command)
  | openFile (depth : Nat)
  | closeFile (depth : Nat)
  deriving DecidableEq, Repr

def stepRefs (env : Env) : Step → Program Slot
  | .record d => recordRefs d
  | .begin tag current d => beginRefs tag current d
  | .execute t m d c => executeRefs env t m d c
  | .openFile depth => [[.alloc (.file depth)]]
  | .closeFile depth => [[.put (.file depth),.null (.file depth)]]

/- The steps of parse_config_file and of what it calls, each with the state it starts from; for files nested to a given
depth. -/
section
variable (env : Env) (nested : Text → State → Option State) (nestedSteps : Text → State → List Step) (depth : Nat)

def includeSteps (arg : Text) (s : State) : List Step :=
  .openFile depth :: match env.files (word arg) with
    | none => [.closeFile depth]
    | some file => nestedSteps file s ++ if nested file s = none then [] else [.closeFile depth]

def recordSteps (s : State) : List Step := [.record s.data]

def beginSteps (tag : Text) (s : State) : List Step := [.begin tag s.tree.current s.data]

def includeMenuSteps (arg : Text) (m : Nat) (s : State) : List Step :=
  let p := skipspace (afterWord arg)
  .openFile depth :: match env.files (word arg) with
    | none => [.closeFile depth]
    | some file =>
        if p = [] then nestedSteps file s ++ if nested file s = none then [] else [.closeFile depth]
        else
          let s1 := recordIn env m s
          let s2 := beginSubmenu p s1
          recordSteps s ++ beginSteps p s1 ++ nestedSteps file s2 ++
            (nested file s2).elim [] fun s3 => recordSteps s3 ++ [.closeFile depth]

def performSteps (m : Nat) (s : State) : Command → List Step
  | .menuBegin arg => recordSteps s ++ beginSteps arg (recordIn env m s)
  | .menuEnd => recordSteps s
  | .menuInclude arg => includeMenuSteps env nested nestedSteps depth arg m s
  | .includeFile arg => includeSteps env nested nestedSteps depth arg s
  | .text _ => []
  | c => [.execute s.tree m s.data c]

def lineSteps (l : Locals) (s : State) (piece : Text) : List Step :=
  if l.text.isSome then []
  else performSteps env nested nestedSteps depth l.m s (commandOf env.null piece (l.line.drop (piece.length + 1)))

def scanSteps : List Text → Locals → State → List Step
  | [],_,_ => []
  | piece::pieces,l,s =>
      lineSteps env nested nestedSteps depth l s piece ++
        (parseLine env nested l s piece).elim [] fun r => scanSteps pieces r.1 r.2

end

def parseSteps (env : Env) : Nat → Text → State → List Step
  | 0,_,_ => []
  | depth+1,file,s =>
      scanSteps env (parseConfigFile env depth) (parseSteps env depth) depth (linesOf file)
        ⟨s.tree.current,none,env.frame depth s⟩ s

def filesSteps (env : Env) (depth : Nat) : List (Option Text) → State → List Step
  | [],_ => []
  | none::files,s => filesSteps env depth files s
  | some file::files,s =>
      parseSteps env depth file s ++ (parseConfigFile env depth file s).elim [] (filesSteps env depth files)

def configSteps (env : Env) (depth : Nat) (files : List (Option Text)) : List Step :=
  filesSteps env depth files (configStart bootSettings) ++
    (parseFiles env depth files (configStart bootSettings)).elim [] recordSteps

def startRefs : Program Slot := [[.alloc .emptyString]] ++ topRefs hideMenu ++ topRefs rootMenu

def resolveRefs (d : Data) : Program Slot :=
  (List.range d.allEntries.length).flatMap fun e =>
    if ((d.allEntries[e]?).map Entry.action) = some .gotoUnres ∨ ((d.allEntries[e]?).map Entry.action) = some .exitUnres then
      [[.put (.entry e .cmdline),.null (.entry e .cmdline)]]
    else []

/- Where a label is read that is not there, what is found is up to the machine. -/
def unlabelRefs (stray : Text → Bool) (entries : List Entry) (s : Slot) : Option Text → Program Slot
  | none => []
  | some str =>
      if ((findLabel entries str).map Option.isSome).getD (stray str) then
        [[.alloc (.temp .q)],[.put s,.move s (.temp .q)]]
      else []

def unlabelMenuRefs (stray : Text → Bool) (entries : List Entry) (menus : List Menu) (m : Nat) : Program Slot :=
  unlabelRefs stray entries (.menu m .ontimeout) ((menus[m]?).bind Menu.ontimeout) ++
    unlabelRefs stray entries (.menu m .onerror) ((menus[m]?).bind Menu.onerror)

def postRefs (env : Env) (stray : Text → Bool) (adv : Option Text) (d : Data) : Program Slot :=
  resolveRefs d ++
  (if (saved adv d).isSome then temporary (.temp .lstr) else []) ++
  (List.range d.menus.length).reverse.flatMap (unlabelMenuRefs stray (resolveGotos env d).allEntries d.menus)

def mainFiles (standard : Option Text) (named : List (Option Text)) : List (Option Text) :=
  if named = [] then [standard] else named

/- All that parse_configs does. While the parser is still at work, at a depth that is not enough for it, nothing comes
behind its steps yet. -/
def configRefs (env : Env) (depth : Nat) (stray : Text → Bool) (adv standard : Option Text) (named : List (Option Text)) :
    Program Slot :=
  startRefs ++
  if named = [] ∧ standard = none then []
  else
    (configSteps env depth (mainFiles standard named)).flatMap (stepRefs env) ++
    (parseFiles env depth (mainFiles standard named) (configStart bootSettings)).elim [] fun s =>
      postRefs env stray adv (parsedData env s)

/- Not display or font with a file name, nor ontimeout when it has been given before, nor initrd outside of a label. -/
def allowed (d : Data) : Command → Bool
  | .display arg => kernelNameOf arg = []
  | .font arg => kernelNameOf arg = []
  | .ontimeout _ => d.ontimeout = none
  | .initrd _ => d.ld.label ≠ none
  | _ => true

def Allowed : Step → Prop
  | .execute _ _ d c => allowed d c = true
  | _ => True

instance : DecidablePred Allowed
  | .execute _ _ _ _ => inferInstanceAs (Decidable (_ = true))
  | .record _ => isTrue trivial
  | .begin _ _ _ => isTrue trivial
  | .openFile _ => isTrue trivial
  | .closeFile _ => isTrue trivial

end Syslinux.Readconfig
