import Mathlib.Tactic

/-! com32/elflink/ldlinux/readconfig.c, the lines of a configuration file: what is read of one line, the keywords
that looking_at tries in turn, and the command each line stands for. -/
namespace Syslinux.Readconfig

/- A C string, without its NUL. -/
abbrev Text := List UInt8

def ascii (s : String) : Text :=
  s.toList.map (fun c => UInt8.ofNat c.toNat)

def cstr (buf : Text) : Text :=
  buf.takeWhile (· ≠ 0)

/- isspace of ctypes.c. -/
def isspace (c : UInt8) : Bool :=
  (8 ≤ c && c ≤ 13) || c = 32 || c = 160

def skipspace (p : Text) : Text :=
  p.dropWhile isspace

def myIsspace (c : UInt8) : Bool :=
  c ≤ 32

/- The character at p, or NUL at the end. -/
def char (p : Text) : UInt8 :=
  p.headD 0

/- Behind the keyword, when the line starts with it as a word of its own. Bit 5 of the letters is ignored. -/
def lookingAt : Text → Text → Option Text
  | p,[] => if myIsspace (char p) then some p else none
  | [],_::_ => none
  | c::p,k::kwd => if (c ^^^ k) &&& 0xdf = 0 then lookingAt p kwd else none

def word (p : Text) : Text :=
  p.takeWhile (fun c => !myIsspace c)

def afterWord (p : Text) : Text :=
  p.dropWhile (fun c => !myIsspace c)

def digitval (c : UInt8) : Option Nat :=
  if 48 ≤ c ∧ c ≤ 57 then some (c.toNat - 48)
  else if 65 ≤ c ∧ c ≤ 90 then some (c.toNat - 55)
  else if 97 ≤ c ∧ c ≤ 122 then some (c.toNat - 87)
  else none

def digits (base : Nat) : Text → Nat → Nat × Text
  | [],v => (v,[])
  | c::p,v =>
      match digitval c with
      | none => (v,c::p)
      | some d => if d < base then digits base p ((v * base + d) % 2^64) else (v,c::p)

def isX (c : UInt8) : Bool :=
  c = 120 || c = 88

/- The base that a number with base 0 turns out to have, and its digits. -/
def radix (p : Text) (base : Nat) : Nat × Text :=
  if base = 0 then
    if char p = 48 ∧ isX (char (p.drop 1)) then (16,p.drop 2)
    else if char p = 48 then (8,p.drop 1)
    else (10,p)
  else if base = 16 ∧ char p = 48 ∧ isX (char (p.drop 1)) then (16,p.drop 2)
  else (base,p)

def strntoumax (nptr : Text) (base : Nat) : Nat × Text :=
  let p := skipspace nptr
  let minus := char p = 45
  let start := radix (if minus ∨ char p = 43 then p.drop 1 else p) base
  let v := digits start.1 start.2 0
  (if minus then (2^64 - v.1) % 2^64 else v.1,v.2)

def int16 (n : Nat) : Int :=
  (BitVec.ofNat 16 n).toInt

def int32 (n : Nat) : Int :=
  (BitVec.ofNat 32 n).toInt

def int64 (n : Nat) : Int :=
  (BitVec.ofNat 64 n).toInt

def atoi (p : Text) : Int :=
  int32 (strntoumax p 10).1

def short (p : Text) : Int :=
  int16 (strntoumax p 10).1

def isXdigit (c : UInt8) : Bool :=
  (48 ≤ c && c ≤ 57) || (97 ≤ c ||| 32 && c ||| 32 ≤ 102)

def hexval (c : UInt8) : UInt32 :=
  let uc := c ||| 32
  if 48 ≤ uc ∧ uc ≤ 57 then (uc - 48).toUInt32 else (uc - 97).toUInt32 + 10

def hexval2 (p : Text) : UInt32 :=
  (hexval (char p) <<< 4) + hexval (char (p.drop 1))

def parseArgb (p : Text) : UInt32 × Text :=
  let sp := if char p = 35 then p.drop 1 else p
  let len := (sp.takeWhile isXdigit).length
  let at' (i : Nat) : UInt32 := hexval (char (sp.drop i)) * 0x11
  let pair (i : Nat) : UInt32 := hexval2 (sp.drop i)
  let argb : UInt32 :=
    if len = 3 then (0xff000000 : UInt32) + (at' 0 <<< 16) + (at' 1 <<< 8) + at' 2
    else if len = 4 then (at' 0 <<< 24) + (at' 1 <<< 16) + (at' 2 <<< 8) + at' 3
    else if len = 6 ∨ len = 9 ∨ len = 12 then
      (0xff000000 : UInt32) + (pair 0 <<< 16) + (pair (len / 3) <<< 8) + pair (len / 3 * 2)
    else if len = 8 ∨ len = 16 then
      (pair 0 <<< 24) + (pair (len / 4) <<< 16) + (pair (len / 4 * 2) <<< 8) + pair (len / 4 * 3)
    else 0xffff0000
  (argb,sp.dropWhile isXdigit)

def kernelTypes : List String :=
  ["none","localboot","kernel","linux","boot","bss","pxe","fdimage","comboot","com32","config"]

def ktKernel : Nat := 2

/- messages[] has no entry for MSG_TITLE, so the first name is a null pointer. -/
def messageNames : List (Option String) :=
  [none,some "autoboot",some "tabmsg",some "notabmsg",some "passprompt"]

def mparmNames : List String :=
  ["width","margin","passwordmargin","rows","tabmsgrow","cmdlinerow","endrow","passwordrow","timeoutrow",
   "helpmsgrow","helpmsgendrow","hshift","vshift","hiddenrow"]

/- One for each branch of parse_config_file, with the part of the line that the branch goes on to read. -/
inductive Command where
  | menuLabel (arg : Text)
  | menuTitle (arg : Text)
  | menuDefault
  | menuHide
  | menuPasswd (arg : Text)
  | menuShiftkey
  | menuSave
  | menuNosave
  | menuOnerror (arg : Text)
  | menuMaster (arg : Text)
  | menuInclude (arg : Text)
  | menuBackground (arg : Text)
  | menuHidden
  | menuMessage (msgnr : Nat) (arg : Text)
  | menuColor (arg : Text)
  | menuMsgcolor (arg : Text)
  | menuSeparator
  | menuDisable
  | menuIndent (arg : Text)
  | menuBegin (arg : Text)
  | menuEnd
  | menuQuit
  | menuGoto (arg : Text)
  | menuExit (arg : Text)
  | menuStart
  | menuParameter (mp : Nat) (arg : Text)
  | text (help : Bool)
  | fkey (fkeyno : Nat) (arg : Text)
  | includeFile (arg : Text)
  | append (arg : Text)
  | initrd (arg : Text)
  | label (arg : Text)
  | kernel (type : Nat) (arg : Text)
  | timeout (arg : Text)
  | totaltimeout (arg : Text)
  | ontimeout (arg : Text)
  | allowoptions (arg : Text)
  | sysappend (arg : Text)
  | default (arg : Text)
  | ui (arg : Text)
  | display (arg : Text)
  | font (arg : Text)
  | kbdmap (arg : Text)
  | implicit (arg : Text)
  | prompt (arg : Text)
  | console (arg : Text)
  | noescape (arg : Text)
  | nocomplete (arg : Text)
  | nohalt (arg : Text)
  | onerror (arg : Text)
  | pxeretry (arg : Text)
  | serial (arg : Text)
  | say (arg : Text)
  | path (arg : Text)
  | sendcookies (arg : Text)
  | ignored
  deriving DecidableEq, Repr

/- looking_at, then the rest of the line without the space before it. -/
def keyword (kwd : String) (command : Text → Command) (p : Text) : Option Command :=
  (lookingAt p (ascii kwd)).map (fun rest => command (skipspace rest))

def nameAt (p : Text) : List Text → Nat → Option (Nat × Text)
  | [],_ => none
  | name::names,i =>
      match lookingAt p name with
      | some rest => some (i,skipspace rest)
      | none => nameAt p names (i + 1)

/- What a null pointer shows when it is read as a keyword is up to the machine. -/
def isMessageName (null : Text) (p : Text) : Option Command :=
  (nameAt p (messageNames.map (fun name => (name.map ascii).getD null)) 0).map (fun found =>
    .menuMessage found.1 found.2)

def isKernelType (p : Text) : Option Command :=
  (nameAt p (kernelTypes.map ascii) 0).map (fun found => .kernel found.1 found.2)

def isParameter (p : Text) : Option Command :=
  (nameAt p (mparmNames.map ascii) 0).map (fun found => .menuParameter found.1 found.2)

def isFkey (p : Text) : Option Command :=
  let found := strntoumax (p.drop 1) 10
  if char p ||| 32 = 102 ∧ myIsspace (char found.2) ∧ 0 ≤ int32 found.1 ∧ int32 found.1 ≤ 12 then
    some (.fkey (if int32 found.1 = 0 then 10 else (int32 found.1).toNat - 1) (skipspace found.2))
  else none

def menuCommands (null : Text) : List (Text → Option Command) :=
  [keyword "label" .menuLabel,keyword "title" .menuTitle,keyword "default" (fun _ => .menuDefault),
   keyword "hide" (fun _ => .menuHide),keyword "passwd" .menuPasswd,keyword "shiftkey" (fun _ => .menuShiftkey),
   keyword "save" (fun _ => .menuSave),keyword "nosave" (fun _ => .menuNosave),keyword "onerror" .menuOnerror,
   keyword "master" .menuMaster,keyword "include" .menuInclude,keyword "background" .menuBackground,
   keyword "hidden" (fun _ => .menuHidden),isMessageName null,keyword "color" .menuColor,keyword "colour" .menuColor,
   keyword "msgcolor" .menuMsgcolor,keyword "msgcolour" .menuMsgcolor,keyword "separator" (fun _ => .menuSeparator),
   keyword "disable" (fun _ => .menuDisable),keyword "disabled" (fun _ => .menuDisable),
   keyword "indent" .menuIndent,keyword "begin" .menuBegin,keyword "end" (fun _ => .menuEnd),
   keyword "quit" (fun _ => .menuQuit),keyword "goto" .menuGoto,keyword "exit" .menuExit,
   keyword "start" (fun _ => .menuStart),isParameter]

def firstOf (commands : List (Text → Option Command)) (p : Text) : Command :=
  (commands.findSome? (fun command => command p)).getD .ignored

/- A line is read from a buffer: the string that is left of it, and the bytes that stand behind its NUL. -/
def reach (p behind : Text) (n : Nat) : Text :=
  cstr ((p ++ 0::behind).drop n)

/- A keyword whose argument is looked for a fixed way along, which can be past the end of the line. -/
def fixed (kwd : String) (n : Nat) (behind : Text) (command : Text → Command) (p : Text) : Option Command :=
  (lookingAt p (ascii kwd)).map (fun _ => command (reach p behind n))

def plainCommands (behind : Text) : List (Text → Option Command) :=
  [keyword "text" (fun p => .text (lookingAt p (ascii "help")).isSome),isFkey,keyword "include" .includeFile,
   keyword "append" .append,keyword "initrd" .initrd,keyword "label" .label,isKernelType,keyword "timeout" .timeout,
   fixed "totaltimeout" 13 behind (fun p => .totaltimeout (skipspace p)),keyword "ontimeout" .ontimeout,
   keyword "allowoptions" .allowoptions,keyword "ipappend" .sysappend,keyword "sysappend" .sysappend,
   keyword "default" .default,keyword "ui" .ui,keyword "display" .display,keyword "font" .font,
   keyword "kbdmap" .kbdmap,keyword "implicit" .implicit,keyword "prompt" .prompt,keyword "console" .console,
   keyword "noescape" .noescape,keyword "nocomplete" .nocomplete,
   fixed "nohalt" 8 behind (fun p => .nohalt (skipspace p)),keyword "onerror" .onerror,keyword "pxeretry" .pxeretry,
   keyword "serial" .serial,fixed "say" 4 behind .say,keyword "path" .path,keyword "sendcookies" .sendcookies]

def command (null p behind : Text) : Command :=
  match lookingAt p (ascii "menu") with
  | some rest => firstOf (menuCommands null) (skipspace rest)
  | none => firstOf (plainCommands behind) p

end Syslinux.Readconfig
