import Syslinux.Readconfig

/-! http_open of core/fs/pxe/http.c behind the request: the parser of the response's header, the fields it processes,
and what the status makes of them. -/
namespace Syslinux.HttpOpen
open Readconfig (Text ascii isspace)

inductive HeaderState where
  | stHttpver | stStcode | stSkipline | stFieldfirst | stFieldname | stFieldvalue | stSkipFieldname | stSkipFieldvalue | stEoh
  deriving DecidableEq, Repr

def isTspecial (ch : UInt8) : Bool := (ascii "()<>@,;:\\\"/[]?=\x7b\x7d \t").contains ch

def isToken (ch : UInt8) : Bool := 32 ≤ ch && !isTspecial ch

def islower (c : UInt8) : Bool := (97 ≤ c && c ≤ 122) || (223 ≤ c && c != 247)

def toupper (c : UInt8) : UInt8 := if islower c then c &&& 0xdf else c

/- strcasecmp(s,t) == 0 -/
def sameName (s t : Text) : Bool := s.map toupper == t.map toupper

/- A string with a character written behind the first pos ones, or none where there is no room for it. -/
def appendCh (str : Text) (size pos : Nat) (ch : UInt8) : Option Text := if size ≤ pos + 1 then none else some (str.take pos ++ [ch])

/- location is static; fieldName and fieldValue are not set before the first field. -/
structure Header where
  state : HeaderState
  pos : Nat
  status : Nat
  fieldName : Text
  fieldNameLen : Nat
  fieldValue : Text
  fieldValueLen : Nat
  location : Text
  contentLength : Nat

structure Env where
  behind : UInt8 → Bool

def Env.isspace (env : Env) (c : UInt8) : Bool := if c < 128 then Readconfig.isspace c else env.behind c

def Env.skipSpace (env : Env) (value : Text) : Text := value.dropWhile env.isspace

def filenameMax : Nat := 256

/- strlcpy of com32/lib copies size characters and puts the NUL behind them. -/
def strlcpy (size : Nat) (src : Text) : Text := src.take size

def isDigit (c : UInt8) : Bool := 48 ≤ c && c ≤ 57

def parseLength : Text → Nat → Nat × Text
  | [],n => (n,[])
  | c::next,n =>
      if isDigit c then
        if n*10 % 2^32 < n then (n,c::next) else parseLength next ((n*10 + (c.toNat - 48)) % 2^32)
      else (n,c::next)

def noLength : Nat := 2^32 - 1

def processField (env : Env) (l : Header) : Header :=
  if sameName l.fieldName (ascii "Content-Length") then
    let r := parseLength (env.skipSpace l.fieldValue) 0
    { l with contentLength := if r.2 = [] then r.1 else noLength }
  else if sameName l.fieldName (ascii "Location") then
    { l with location := strlcpy filenameMax (env.skipSpace l.fieldValue) }
  else l

def appendValue (l : Header) (ch : UInt8) : Header :=
  match appendCh l.fieldValue 1024 l.fieldValueLen ch with
  | some value => { l with fieldValue := value,fieldValueLen := l.fieldValueLen + 1 }
  | none => { l with state := .stSkipFieldvalue,fieldValueLen := 0 }

def appendName (l : Header) (ch : UInt8) : Header :=
  match appendCh l.fieldName 20 l.fieldNameLen ch with
  | some name => { l with fieldName := name,fieldNameLen := l.fieldNameLen + 1 }
  | none => { l with state := .stSkipFieldname,fieldNameLen := 0 }

/- One character that is neither CR nor NUL, or none where the response is given up. -/
def step (env : Env) (l : Header) (ch : UInt8) : Option Header :=
  match l.state with
  | .stHttpver => some (if ch = 32 then { l with state := .stStcode,pos := 0 } else l)
  | .stStcode =>
      if !isDigit ch then none
      else
        let l := { l with status := l.status*10 + (ch.toNat - 48),pos := l.pos + 1 }
        some (if l.pos = 3 then { l with state := .stSkipline } else l)
  | .stSkipline => some (if ch = 10 then { l with state := .stFieldfirst } else l)
  | .stFieldfirst =>
      if ch = 10 then some { l with state := .stEoh }
      else if Readconfig.isspace ch then some (appendValue { l with state := .stFieldvalue } ch)
      else if isToken ch then some { processField env l with
        fieldName := [ch],fieldNameLen := 1,fieldValue := [],fieldValueLen := 0,state := .stFieldname }
      else some { l with state := .stSkipline }
  | .stFieldname =>
      if ch = 58 then some { l with state := .stFieldvalue }
      else if isToken ch then some (appendName l ch)
      else if ch = 10 then some { l with state := .stFieldfirst }
      else some { l with state := .stSkipline }
  | .stFieldvalue => some (if ch = 10 then { l with state := .stFieldfirst } else appendValue l ch)
  | .stSkipFieldname =>
      if ch = 58 then some { l with state := .stSkipFieldvalue }
      else if isToken ch then some l
      else if ch = 10 then some { l with state := .stFieldfirst }
      else some { l with state := .stSkipline }
  | .stSkipFieldvalue => some (if ch = 10 then { l with state := .stFieldfirst } else l)
  | .stEoh => some l

def turn (env : Env) (l : Header) (ch : UInt8) : Option Header := if ch = 13 ∨ ch = 0 then some l else step env l ch

def parseHeader (env : Env) : List UInt8 → Header → Header × Option (List UInt8)
  | [],l => (l,if l.state = .stEoh then some [] else none)
  | ch::stream,l =>
      if l.state = .stEoh then (l,some (ch::stream))
      else
        match turn env l ch with
        | none => (l,none)
        | some l => parseHeader env stream l

/- What http_open leaves: the static location, *redir, the size of the inode, and the data of an open file. -/
structure Outcome where
  location : Text
  redir : Option Text
  size : Nat
  data : Option (List UInt8)
  deriving DecidableEq, Repr

def redirects : List Nat := [301,302,303,307]

/- The call behind the request, with what stands in the uninitialised field_name and field_value. -/
def httpOpen (env : Env) (junk : Text × Text) (location : Text) (stream : List UInt8) : Outcome :=
  match parseHeader env stream ⟨.stHttpver,0,0,junk.1,0,junk.2,0,location,noLength⟩ with
  | (l,none) => ⟨l.location,none,0,none⟩
  | (l,some data) =>
      if l.status = 200 then ⟨l.location,none,noLength,some data⟩
      else if l.status ∈ redirects ∧ l.location ≠ [] then ⟨l.location,some l.location,0,none⟩
      else ⟨l.location,none,0,none⟩

end Syslinux.HttpOpen
