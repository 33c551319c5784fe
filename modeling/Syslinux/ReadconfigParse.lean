import Syslinux.Readconfig

/-! com32/elflink/ldlinux/readconfig.c, the parser state and what each command does to it; then the loop of
parse_config_file over the lines of a file, with the files it includes. -/
namespace Syslinux.Readconfig

inductive Action where
  | none | cmd | disabled | submenu | goto | gotoUnres | quit | exit | exitUnres | help
  deriving DecidableEq, Repr

inductive Shadow where
  | none | all | normal | reverse
  deriving DecidableEq, Repr

structure Color where
  name : Text
  ansi : Text
  argbFg : UInt32
  argbBg : UInt32
  shadow : Shadow
  deriving DecidableEq, Repr

/- struct menu_entry. Menus and entries are referred to by their place in the lists of all of them. That a
submenu's entry still shows the very string that is the submenu's label is kept as a flag. -/
structure Entry where
  menu : Nat
  entry : Nat
  displayname : Option Text
  isLabel : Bool
  label : Option Text
  passwd : Option Text
  helptext : Option Text
  cmdline : Option Text
  submenu : Option Nat
  action : Action
  hotkey : UInt8
  save : Bool
  deriving DecidableEq, Repr

/- struct menu but for its parent, which never changes once it is set and is kept in Tree. -/
structure Menu where
  label : Option Text
  parentEntry : Option Nat
  title : Text
  entries : List Nat
  hotkeys : List (UInt8 × Nat)
  messages : List (Option Text)
  mparm : List Int
  defentry : Nat
  timeout : Int
  allowedit : Bool
  save : Bool
  ontimeout : Option Text
  onerror : Option Text
  masterPasswd : Option Text
  background : Option Text
  colors : List Color
  fkeyhelp : List (Option Text × Option Text)
  deriving DecidableEq, Repr

structure Labeldata where
  label : Option Text
  kernel : Option Text
  type : Nat
  append : Option Text
  initrd : Option Text
  menulabel : Option Text
  passwd : Option Text
  helptext : Option Text
  ipappend : Nat
  menuhide : Bool
  menudefault : Bool
  menuseparator : Bool
  menudisabled : Bool
  menuindent : Int
  action : Action
  save : Int
  submenu : Option Nat
  deriving DecidableEq, Repr

def clearLabelData : Labeldata :=
  ⟨none,none,0,none,none,none,none,none,0,false,false,false,false,0,.none,0,none⟩

inductive Output where
  | display (file : Text)
  | font (file : Text)
  | keymap (file : Text)
  | say (text : Text)
  | pathFailed
  | serialPort (port baud : Nat) (flow : Nat)
  | bakeCookies
  deriving DecidableEq, Repr

structure Serial where
  port : Nat
  divisor : Nat
  flowInput : Nat
  flowOutput : Nat
  flowIgnore : Nat
  deriving DecidableEq, Repr

structure Data where
  menus : List Menu
  allEntries : List Entry
  startMenu : Nat
  ld : Labeldata
  append : Option Text
  globaldefault : Option Text
  defaultCmd : Option Text
  defaultlevel : Nat
  hasUi : Bool
  menusave : Bool
  shiftkey : Bool
  hiddenmenu : Bool
  kbdtimeout : Int
  totaltimeout : Int
  ontimeout : Option Text
  onerror : Option Text
  sysAppends : Nat
  allowoptions : Int
  allowimplicit : Int
  forceprompt : Int
  displayCon : Int
  noescape : Int
  nocomplete : Int
  noHalt : Int
  pxeRetry : Nat
  serial : Serial
  path : List Text
  sendCookies : Nat
  kernelName : Text
  output : List Output
  deriving DecidableEq, Repr

/- The parent of each menu, and current_menu. -/
structure Tree where
  parents : List (Option Nat)
  current : Nat
  deriving DecidableEq, Repr

structure State where
  tree : Tree
  data : Data
  deriving DecidableEq, Repr

/- The files that can be opened, and what the machine answers. What a call of parse_config_file finds in its line
buffer, at some depth of the stack, is anything. -/
structure Env where
  files : Text → Option Text
  null : Text
  frame : Nat → State → Text
  clkTck : Int
  sysappendStrings : List (Option Text)
  serialPorts : Nat → Nat
  lcr : Nat → Nat
  pxelinux : Bool

def hideMenu : Nat := 0
def rootMenu : Nat := 1

def Tree.parent (t : Tree) (m : Nat) : Option Nat :=
  (t.parents[m]?).join

def Tree.push (t : Tree) : Tree :=
  ⟨t.parents ++ [some t.current],t.parents.length⟩

def Tree.pop (t : Tree) : Tree :=
  { t with current := (t.parent t.current).getD t.current }

def parentEntry (d : Data) (m : Nat) : Option Nat :=
  (d.menus[m]?).bind Menu.parentEntry

def setMenu (d : Data) (m : Nat) (f : Menu → Menu) : Data :=
  { d with menus := d.menus.modify m f }

def setEntry (d : Data) (e : Nat) (f : Entry → Entry) : Data :=
  { d with allEntries := d.allEntries.modify e f }

/- The first ^ with something behind it names the key, unless the menu has given it away. -/
def considerForHotkey (d : Data) (m e : Nat) : Data :=
  match d.allEntries[e]?,d.menus[m]? with
  | some me,some menu =>
      let mark := ((me.displayname.getD []).dropWhile (· ≠ 94)).drop 1
      let hotkey := char mark &&& 0xdf
      if me.action ≠ .disabled ∧ char mark ≠ 0 ∧ menu.hotkeys.lookup hotkey = none then
        setMenu (setEntry d e (fun me => { me with hotkey := hotkey })) m
          (fun menu => { menu with hotkeys := (hotkey,e)::menu.hotkeys })
      else d
  | _,_ => d

def emptyEntry (m entry : Nat) : Entry :=
  ⟨m,entry,none,false,none,none,none,none,none,.none,0,false⟩

def nentries (d : Data) (m : Nat) : Nat :=
  ((d.menus[m]?).map (fun menu => menu.entries.length)).getD 0

def newEntry (d : Data) (m : Nat) (fill : Entry → Entry) : Data :=
  let e := d.allEntries.length
  setMenu { d with allEntries := d.allEntries ++ [fill (emptyEntry m (nentries d m))] } m
    (fun menu => { menu with entries := menu.entries ++ [e] })

/- What was written up to the last character that is no space. The test for a space can never be true. -/
def copySysappendString : Text → Bool → Text → Text → Text
  | [],_,_,kept => kept
  | c::src,wasSpace,dst,kept =>
      if (c.toNat < 33 ∨ 128 ≤ c.toNat) ∧ c = 127 then
        copySysappendString src true (if wasSpace then dst else dst ++ [95]) kept
      else copySysappendString src false (dst ++ [c]) (dst ++ [c])

def ipoptions (env : Env) (ld : Labeldata) : Text :=
  (match ld.initrd with
    | some initrd => ascii " initrd=" ++ initrd
    | none => []) ++
  (env.sysappendStrings.zipIdx.flatMap (fun s =>
    match s.1 with
    | some (c::value) => if ld.ipappend.testBit s.2 then 32 :: copySysappendString (c::value) true [] [] else []
    | _ => []))

def cmdline (env : Env) (ld : Labeldata) (append : Option Text) : Text :=
  let given := (ld.append <|> append).getD []
  let a := if given = [45] then [] else given
  let s : Text := if a = [] then [] else [32]
  let kernel := ld.kernel.getD []
  if ld.type = ktKernel then kernel ++ s ++ a ++ ipoptions env ld
  else 46 :: ascii (kernelTypes.getD ld.type "") ++ 32 :: kernel ++ s ++ a ++ ipoptions env ld

def recordEntry (env : Env) (ld : Labeldata) (append : Option Text) (menuSave : Bool) (me : Entry) : Entry :=
  let disabled := ld.menuseparator || ld.menudisabled
  let action := if disabled then .disabled else if ld.action = .none then .cmd else ld.action
  let name := (ld.menulabel <|> ld.label).getD []
  { me with
    displayname := some (if ld.menuseparator then [] else List.replicate ld.menuindent.natAbs 32 ++ name)
    label := if disabled then none else ld.label
    passwd := if disabled then none else ld.passwd
    helptext := ld.helptext
    action := action
    save := if ld.save = 0 then menuSave else 0 < ld.save
    cmdline := match action with
      | .cmd => some (cmdline env ld append)
      | .gotoUnres => ld.kernel
      | .exitUnres => ld.kernel
      | _ => none
    submenu := match action with
      | .goto => ld.submenu
      | .exit => ld.submenu
      | _ => none }

/- Hidden entries are recorded on a special "hidden menu". -/
def record (env : Env) (m : Nat) (d : Data) : Data :=
  if d.ld.label = none then d
  else
    let m := if d.ld.menuhide then hideMenu else m
    let e := d.allEntries.length
    let menuSave := ((d.menus[m]?).map Menu.save).getD false
    let d1 := newEntry d m (recordEntry env d.ld d.append menuSave)
    let d2 := if d.ld.menulabel = none then d1 else considerForHotkey d1 m e
    let isCmd := ((d2.allEntries[e]?).map Entry.action) = some .cmd
    let d3 := if d.ld.menudefault ∧ isCmd then
        setMenu d2 m (fun menu => { menu with defentry := menu.entries.length - 1 })
      else d2
    { d3 with ld := clearLabelData }

def newMenu (parent : Menu) (parentEntry : Nat) (label : Option Text) : Menu :=
  { parent with label := label,parentEntry := some parentEntry,title := [],entries := [],hotkeys := [],defentry := 0 }

def ncolors : Nat := 18

def pc2rgb : List UInt32 :=
  [0x000000,0x0000ff,0x00ff00,0x00ffff,0xff0000,0xff00ff,0xffff00,0xffffff]

/- One of the 256 msgXX colours. -/
def msgColor (fg bg : UInt32) (shadow : Shadow) (i : Nat) (color : Color) : Color :=
  let fga := fg &&& 0xff000000
  let fgh := ((fg >>> 1) &&& 0xff000000) ||| 0x80000000
  let bga := bg &&& 0xff000000
  let bgh := ((bg >>> 1) &&& 0xff000000) ||| 0x80000000
  let fgRgb := pc2rgb.getD (i % 8) 0 &&& fg
  let bgRgb := pc2rgb.getD (i / 16 % 8) 0 &&& bg
  { color with
    argbFg := fgRgb ||| (if i % 16 < 8 then fga else fgh)
    argbBg := if i / 16 = 0 then 0 else bgRgb ||| (if i / 16 < 8 then bga else bgh)
    shadow := shadow }

def setMsgColorsGlobal (colors : List Color) (fg bg : UInt32) (shadow : Shadow) : List Color :=
  colors.zipIdx.map (fun c => if c.2 < ncolors then c.1 else msgColor fg bg shadow (c.2 - ncolors) c.1)

def msgColorsDefFg : UInt32 := 0x90ffffff
def msgColorsDefBg : UInt32 := 0x80ffffff

def defaultColors : List (String × String × UInt32 × UInt32 × Shadow) :=
  [("screen","37;40",0x80ffffff,0x00000000,.normal),("border","30;44",0x40000000,0x00000000,.normal),
   ("title","1;36;44",0xc00090f0,0x00000000,.normal),("unsel","37;44",0x90ffffff,0x00000000,.normal),
   ("hotkey","1;37;44",0xffffffff,0x00000000,.normal),("sel","7;37;40",0xe0000000,0x20ff8000,.all),
   ("hotsel","1;7;37;40",0xe0400000,0x20ff8000,.all),("scrollbar","30;44",0x40000000,0x00000000,.normal),
   ("tabmsg","31;40",0x90ffff00,0x00000000,.normal),("cmdmark","1;36;40",0xc000ffff,0x00000000,.normal),
   ("cmdline","37;40",0xc0ffffff,0x00000000,.normal),("pwdborder","30;47",0x80ffffff,0x20ffffff,.normal),
   ("pwdheader","31;47",0x80ff8080,0x20ffffff,.normal),("pwdentry","30;47",0x80ffffff,0x20ffffff,.normal),
   ("timeout_msg","37;40",0x80ffffff,0x00000000,.normal),("timeout","1;37;40",0xc0ffffff,0x00000000,.normal),
   ("help","37;40",0xc0ffffff,0x00000000,.normal),("disabled","1;30;44",0x60cccccc,0x00000000,.normal)]

def hexDigit (n : Nat) : UInt8 :=
  UInt8.ofNat (if n < 10 then 48 + n else 87 + n)

def pc2ansi : List Nat := [0,4,2,6,1,5,3,7]

def msgName (i : Nat) : Text :=
  ascii "msg" ++ [hexDigit (i / 16),hexDigit (i % 16)]

def msgAnsi (i : Nat) : Text :=
  (if i / 8 % 2 = 1 then ascii "1;" else []) ++ [51,hexDigit (pc2ansi.getD (i % 8) 0),59,52,
    hexDigit (pc2ansi.getD (i / 16 % 8) 0)]

def defaultColorTable : List Color :=
  setMsgColorsGlobal
    (defaultColors.map (fun c => ⟨ascii c.1,ascii c.2.1,c.2.2.1,c.2.2.2.1,c.2.2.2.2⟩) ++
      (List.range 256).map (fun i => ⟨msgName i,msgAnsi i,0,0,.none⟩))
    msgColorsDefFg msgColorsDefBg .normal

/- The root menu and the hidden menu have no parent to take their settings from. -/
def topMenu (label : Text) : Menu where
  label := some label
  parentEntry := none
  title := []
  entries := []
  hotkeys := []
  messages := [none,some (ascii "Automatic boot in # second\x7b,s\x7d..."),some (ascii "Press [Tab] to edit options"),
    some [],some (ascii "Password required")]
  mparm := [0,10,3,12,18,18,-1,11,20,22,-1,0,0,-2]
  defentry := 0
  timeout := 0
  allowedit := true
  save := false
  ontimeout := none
  onerror := none
  masterPasswd := none
  background := none
  colors := defaultColorTable
  fkeyhelp := List.replicate 12 (none,none)

def beginSubmenu (tag : Text) (s : State) : State :=
  let label := if tag = [] then none else some tag
  let d := newEntry s.data s.tree.current (fun me =>
    { me with displayname := label,isLabel := true,action := .submenu,submenu := some s.tree.parents.length })
  let parent := (s.data.menus[s.tree.current]?).getD (topMenu [])
  { tree := s.tree.push
    data := { d with menus := d.menus ++ [newMenu parent s.data.allEntries.length label] } }

def endSubmenu (s : State) : State :=
  { s with tree := s.tree.pop }

def bootSettings : Data where
  menus := []
  allEntries := []
  startMenu := rootMenu
  ld := clearLabelData
  append := none
  globaldefault := none
  defaultCmd := none
  defaultlevel := 0
  hasUi := false
  menusave := false
  shiftkey := false
  hiddenmenu := false
  kbdtimeout := 0
  totaltimeout := 0
  ontimeout := none
  onerror := none
  sysAppends := 0
  allowoptions := 1
  allowimplicit := 1
  forceprompt := 0
  displayCon := 1
  noescape := 0
  nocomplete := 0
  noHalt := 0
  pxeRetry := 0
  serial := ⟨0,0,0,0,0⟩
  path := []
  sendCookies := 0
  kernelName := []
  output := []

/- What parse_configs has set up by the time the first file is opened. -/
def configStart (settings : Data) : State :=
  { tree := ⟨[none,none],rootMenu⟩
    data := { settings with
      menus := [topMenu (ascii ".hidden"),topMenu (ascii ".top")],allEntries := [],startMenu := rootMenu,
      ld := clearLabelData } }

/- * leaves a colour as it is. -/
def star (p : Text) : Bool :=
  (lookingAt p (ascii "*")).isSome

def shadowOf (p : Text) (shadow : Shadow) : Shadow :=
  let ch := char p ||| 32
  if ch = 110 then .none else if ch = 115 then .normal else if ch = 97 then .all else if ch = 114 then .reverse
  else shadow

def setColor (arg : Text) (color : Color) : Color :=
  if arg = [] then color
  else
    let ansi := if star arg then color.ansi else word arg
    let p := skipspace (if star arg then arg.drop 1 else afterWord arg)
    if p = [] then { color with ansi := ansi }
    else
      let fg := if star p then (color.argbFg,p.drop 1) else parseArgb p
      let q := skipspace fg.2
      if q = [] then { color with ansi := ansi,argbFg := fg.1 }
      else
        let bg := if star q then (color.argbBg,q.drop 1) else parseArgb q
        { color with
          ansi := ansi,argbFg := fg.1,argbBg := bg.1,shadow := shadowOf (skipspace bg.2) color.shadow }

def setMsgcolor (arg : Text) (colors : List Color) : List Color :=
  if arg = [] then setMsgColorsGlobal colors msgColorsDefFg msgColorsDefBg .normal
  else
    let fg := if star arg then (msgColorsDefFg,arg) else parseArgb arg
    let p := skipspace fg.2
    if p = [] then setMsgColorsGlobal colors fg.1 msgColorsDefBg .normal
    else
      let bg := if star p then (msgColorsDefBg,p) else parseArgb p
      setMsgColorsGlobal colors fg.1 bg.1 (shadowOf (skipspace bg.2) .normal)

/- Every entry of PATH goes to the front of the list; an empty one ends it. -/
def parsePath : Text → Text → List Text → List Text × Bool
  | [],comp,dirs => (if comp = [] then dirs else comp::dirs,true)
  | c::p,comp,dirs =>
      if c = 58 then if comp = [] then (dirs,false) else parsePath p [] (comp::dirs)
      else parsePath p (comp ++ [c]) dirs

def isalnum (c : UInt8) : Bool :=
  (digitval c).isSome

def nextField (p : Text) : Text :=
  skipspace (p.dropWhile isalnum)

def getSerialPort (env : Env) (port : Nat) : Nat :=
  if 3 < port then port else env.serialPorts port

def uint (bits : Nat) (p : Text) : Nat :=
  (strntoumax p 10).1 % 2^bits

def setSerial (env : Env) (arg : Text) (d : Data) : Data :=
  let p := nextField arg
  let q := nextField p
  let flow := if isalnum (char q) then uint 16 q else 0
  let baud := if isalnum (char p) then uint 32 p else 9600
  let flows : Nat := if isalnum (char p) then (((flow &&& 0xff) <<< 8) ||| (flow &&& 0xff)) &&& 0xf00b else 0
  let ignore := if isalnum (char p) then (flow &&& 0x0f00) >>> 4 else d.serial.flowIgnore
  let serial := { d.serial with flowOutput := flows &&& 0xff,flowInput := flows >>> 8,flowIgnore := ignore }
  if baud < 75 then { d with serial := { serial with port := 0 } }
  else
    let divisor := 115200 / baud &&& 0xffff
    let port := getSerialPort env (uint 16 arg)
    let output := d.output ++ [.serialPort port divisor (flows &&& 0xff)]
    { d with
      serial := { serial with divisor := divisor,port := if env.lcr port = 3 then port else 0 }
      output := output }

def kernelNameOf (arg : Text) : Text :=
  (arg.takeWhile (fun c => 32 < c)).take 255

def int32Of (i : Int) : Int :=
  (BitVec.ofInt 32 i).toInt

def int64Of (i : Int) : Int :=
  (BitVec.ofInt 64 i).toInt

def stripCaret (str : Text) : Text :=
  str.filter (· ≠ 94)

def setLd (d : Data) (f : Labeldata → Labeldata) : Data :=
  { d with ld := f d.ld }

def inLabel (d : Data) (f : Labeldata → Labeldata) (otherwise : Data) : Data :=
  if d.ld.label = none then otherwise else setLd d f

def execute (env : Env) (t : Tree) (m : Nat) (d : Data) : Command → Data
  | .menuLabel arg => inLabel d (fun ld => { ld with menulabel := some arg })
      (match parentEntry d m with
        | none => d
        | some e =>
            let named := considerForHotkey
              (setEntry d e (fun me => { me with displayname := some arg,isLabel := false })) ((t.parent m).getD m) e
            setMenu named m (fun menu => if menu.title = [] then { menu with title := stripCaret arg } else menu))
  | .menuTitle arg =>
      let titled := setMenu d m (fun menu => { menu with title := arg })
      match parentEntry d m with
      | none => titled
      | some e => setEntry titled e (fun me =>
          if me.isLabel then { me with displayname := some arg,isLabel := false } else me)
  | .menuDefault => inLabel d (fun ld => { ld with menudefault := true })
      (match parentEntry d m with
        | none => d
        | some e =>
            setMenu d ((t.parent m).getD m) (fun menu => { menu with defentry := ((d.allEntries[e]?).map Entry.entry).getD 0 }))
  | .menuHide => setLd d (fun ld => { ld with menuhide := true })
  | .menuPasswd arg => inLabel d (fun ld => { ld with passwd := some arg })
      (match parentEntry d m with
        | none => d
        | some e => setEntry d e (fun me => { me with passwd := some arg }))
  | .menuShiftkey => { d with shiftkey := true }
  | .menuSave =>
      let d := { d with menusave := true }
      inLabel d (fun ld => { ld with save := 1 }) (setMenu d m (fun menu => { menu with save := true }))
  | .menuNosave => inLabel d (fun ld => { ld with save := -1 }) (setMenu d m (fun menu => { menu with save := false }))
  | .menuOnerror arg => { setMenu d m (fun menu => { menu with onerror := some arg }) with onerror := some arg }
  | .menuMaster arg =>
      match lookingAt arg (ascii "passwd") with
      | none => d
      | some rest => setMenu d m (fun menu => { menu with masterPasswd := some (skipspace rest) })
  | .menuBackground arg => setMenu d m (fun menu => { menu with background := some (word arg) })
  | .menuHidden => { d with hiddenmenu := true }
  | .menuMessage msgnr arg => setMenu d m (fun menu => { menu with messages := menu.messages.set msgnr (some arg) })
  | .menuColor arg => setMenu d m (fun menu =>
      match nameAt arg (menu.colors.map Color.name) 0 with
      | none => menu
      | some (i,rest) => { menu with colors := menu.colors.modify i (setColor rest) })
  | .menuMsgcolor arg => setMenu d m (fun menu => { menu with colors := setMsgcolor arg menu.colors })
  | .menuSeparator =>
      let d := record env m d
      record env m (setLd d (fun ld => { ld with label := some [],menuseparator := true }))
  | .menuDisable => setLd d (fun ld => { ld with menudisabled := true })
  | .menuIndent arg => setLd d (fun ld => { ld with menuindent := atoi arg })
  | .menuQuit => inLabel d (fun ld => { ld with action := .quit }) d
  | .menuGoto arg => inLabel d (fun ld => { ld with action := .gotoUnres,kernel := some arg }) d
  | .menuExit arg =>
      match t.parent m with
      | none => d
      | some parent =>
          if arg = [] then inLabel d (fun ld => { ld with action := .exit,submenu := some parent }) d
          else inLabel d (fun ld => { ld with action := .exitUnres,kernel := some arg }) d
  | .menuStart => { d with startMenu := m }
  | .menuParameter mp arg => setMenu d m (fun menu => { menu with mparm := menu.mparm.set mp (atoi arg) })
  | .fkey fkeyno arg =>
      let rest := afterWord arg
      let background := if rest = [] then none else some (word (skipspace rest))
      setMenu d m (fun menu => { menu with fkeyhelp := menu.fkeyhelp.set fkeyno (some (word arg),background) })
  | .append arg => inLabel d (fun ld => { ld with append := some arg }) { d with append := some arg }
  | .initrd arg => inLabel d (fun ld => { ld with initrd := some arg }) d
  | .label arg =>
      setLd (record env m d) (fun ld => { ld with
        label := some (word arg),kernel := some (word arg),type := ktKernel,passwd := none,append := none
        initrd := none,menulabel := none,helptext := none,ipappend := d.sysAppends,menudefault := false
        menuhide := false,menuseparator := false,menudisabled := false,menuindent := 0 })
  | .kernel type arg => inLabel d (fun ld => { ld with kernel := some arg,type := type }) d
  | .timeout arg => { d with kbdtimeout := (int32Of (atoi arg * env.clkTck + 9)).tdiv 10 % 2^32 }
  | .totaltimeout arg =>
      { d with totaltimeout := (int64Of (int64 (strntoumax arg 10).1 * env.clkTck + 9)).tdiv 10 }
  | .ontimeout arg => { d with ontimeout := some arg }
  | .allowoptions arg => { d with allowoptions := if atoi arg = 0 then 0 else 1 }
  | .sysappend arg =>
      let s := (strntoumax arg 0).1 % 2^32
      inLabel d (fun ld => { ld with ipappend := s }) { d with sysAppends := s }
  | .default arg =>
      let d := { d with globaldefault := some arg }
      if d.defaultlevel < 2 then { d with defaultlevel := 1,defaultCmd := some arg } else d
  | .ui arg => { d with hasUi := true,defaultlevel := 2,defaultCmd := some arg }
  | .display arg =>
      { d with kernelName := kernelNameOf arg,output := d.output ++ [.display (kernelNameOf arg)] }
  | .font arg => { d with kernelName := kernelNameOf arg,output := d.output ++ [.font (kernelNameOf arg)] }
  | .kbdmap arg => { d with output := d.output ++ [.keymap arg] }
  | .implicit arg => { d with allowimplicit := short arg }
  | .prompt arg => { d with forceprompt := short arg }
  | .console arg => { d with displayCon := uint 16 arg }
  | .noescape arg => { d with noescape := short arg }
  | .nocomplete arg => { d with nocomplete := short arg }
  | .nohalt arg => { d with noHalt := short arg }
  | .onerror arg => { setMenu d m (fun menu => { menu with onerror := some arg }) with onerror := some arg }
  | .pxeretry arg => { d with pxeRetry := uint 16 arg }
  | .serial arg => setSerial env arg d
  | .say arg => { d with output := d.output ++ [.say arg] }
  | .path arg =>
      let added := parsePath arg [] d.path
      { d with path := added.1,output := if added.2 then d.output else d.output ++ [.pathFailed] }
  | .sendcookies arg =>
      if env.pxelinux then { d with sendCookies := uint 32 arg,output := d.output ++ [.bakeCookies] } else d
  -- the commands that steer the parser are not executed here
  | .menuInclude _ => d
  | .menuBegin _ => d
  | .menuEnd => d
  | .text _ => d
  | .includeFile _ => d
  | .ignored => d

/- The pieces that fgets returns one by one with a buffer of MAX_LINE bytes. -/
def fgets : Text → Nat → Text → List Text
  | [],_,piece => if piece = [] then [] else [piece]
  | c::f,room,piece =>
      if c = 10 ∨ room ≤ 1 then (piece ++ [c]) :: fgets f 4095 []
      else fgets f (room - 1) (piece ++ [c])

def linesOf (file : Text) : List Text :=
  fgets file 4095 []

/- The line up to its end, and what stands in the buffer behind the NUL put there. -/
def lineText (piece : Text) : Text :=
  piece.takeWhile (fun c => c ≠ 0 && c ≠ 13 && c ≠ 10)

def lineBehind (piece left : Text) : Text :=
  (piece ++ 0::left).drop ((lineText piece).length + 1)

/- The line buffer once its first CR and LF are NULs; a LF behind a CR is not found any more. -/
def lineCut (piece left : Text) : Text :=
  lineText piece ++ 0::lineBehind piece left

def commandOf (null piece left : Text) : Command :=
  command null (skipspace (lineText piece)) (lineBehind piece left)

/- The variables of one call of parse_config_file: its menu, whether it is inside a text block (and whether that is
help), and its line buffer. -/
structure Locals where
  m : Nat
  text : Option Bool
  line : Text
  deriving DecidableEq, Repr

def doInclude (env : Env) (nested : Text → State → Option State) (arg : Text) (s : State) : Option State :=
  match env.files (word arg) with
  | none => some s
  | some file => nested file s

def recordIn (env : Env) (m : Nat) (s : State) : State :=
  { s with data := record env m s.data }

def doIncludeMenu (env : Env) (nested : Text → State → Option State) (arg : Text) (m : Nat) (s : State) :
    Option State :=
  let p := skipspace (afterWord arg)
  match env.files (word arg) with
  | none => some s
  | some file =>
      if p = [] then nested file s
      else do
        let s := beginSubmenu p (recordIn env m s)
        let m := s.tree.current
        let s ← nested file s
        some (endSubmenu (recordIn env m s))

def addHelp (line : Text) (s : State) : State :=
  { s with data := setLd s.data (fun ld => { ld with helptext := some (ld.helptext.getD [] ++ line) }) }

def perform (env : Env) (nested : Text → State → Option State) (m : Nat) (s : State) :
    Command → Option (Nat × Option Bool × State)
  | .menuBegin arg =>
      let s := beginSubmenu arg (recordIn env m s)
      some (s.tree.current,none,s)
  | .menuEnd =>
      let s := endSubmenu (recordIn env m s)
      some (s.tree.current,none,s)
  | .menuInclude arg => (doIncludeMenu env nested arg m s).map (fun s => (m,none,s))
  | .includeFile arg => (doInclude env nested arg s).map (fun s => (m,none,s))
  | .text help => some (m,some help,s)
  | c => some (m,none,{ s with data := execute env s.tree m s.data c })

/- One line. Inside a text block only endtext counts; the other lines are kept when they are help. -/
def parseLine (env : Env) (nested : Text → State → Option State) (l : Locals) (s : State) (piece : Text) :
    Option (Locals × State) :=
  let left := l.line.drop (piece.length + 1)
  match l.text with
  | some help =>
      let line := piece ++ 0::left
      if (lookingAt (skipspace (cstr piece)) (ascii "endtext")).isSome then some (⟨l.m,none,line⟩,s)
      else some (⟨l.m,some help,line⟩,if help then addHelp (cstr piece) s else s)
  | none =>
      (perform env nested l.m s (commandOf env.null piece left)).map (fun r => (⟨r.1,r.2.1,lineCut piece left⟩,r.2.2))

def scan (env : Env) (nested : Text → State → Option State) : List Text → Locals → State → Option (Locals × State)
  | [],l,s => some (l,s)
  | piece::pieces,l,s => do
      let (l,s) ← parseLine env nested l s piece
      scan env nested pieces l s

/- Files may include each other without end, so the result is for files nested to a given depth. -/
def parseConfigFile (env : Env) : Nat → Text → State → Option State
  | 0,_,_ => none
  | depth+1,file,s =>
      (scan env (parseConfigFile env depth) (linesOf file) ⟨s.tree.current,none,env.frame depth s⟩ s).map Prod.snd

end Syslinux.Readconfig
