import Syslinux.HttpReaddir
import Syslinux.UrlEscape

/-! The names that http_get_filename makes of quoted values of plain characters and character references, against the
UTF-8 of their code points. -/
namespace Syslinux.HttpReaddir
open Readconfig (Text ascii char cstr isspace isX digitval digits strntoumax)

def Digits (base : Nat) (ds : Text) : Prop := ds ≠ [] ∧ ∀ c ∈ ds, ∃ d < base, digitval c = some d

inductive Kind : Text → Prop where
  | named (ent : Nat × Text) (known : ent ∈ entities) : Kind ent.2
  | decimal (ds : Text) (number : Digits 10 ds) : Kind (35::ds)
  | hexadecimal (x : UInt8) (ds : Text) (mark : isX x = true) (number : Digits 16 ds) : Kind (35::x::ds)

structure IsReference (name : Text) : Prop where
  kind : Kind name
  short : name.length ≤ 15

inductive Token where
  | plain (c : UInt8) (ok : c ≠ 0 ∧ c ≠ 34 ∧ c ≠ 38)
  | reference (name : Text) (ok : IsReference name)

def Token.bytes : Token → Text
  | .plain c _ => [c]
  | .reference name _ => 38::(name ++ [59])

def bytesOf (value : List Token) : Text := value.flatMap Token.bytes

def numberOf (base : Nat) (ds : Text) : Nat := ds.foldl (fun v c => v*base + (digitval c).getD 0) 0

def codePoint : Text → Nat
  | 35::x::ds => if isX x then numberOf 16 ds else numberOf 10 (x::ds)
  | name => ((entities.find? fun ent => name == ent.2).map Prod.fst).getD 0

def utf8 (n : Nat) : Text :=
  (if n < 0x80 then [n]
  else if n < 0x800 then [0xc0 + n / 2^6,0x80 + n % 2^6]
  else if n < 0x10000 then [0xe0 + n / 2^12,0x80 + n / 2^6 % 2^6,0x80 + n % 2^6]
  else [0xf0 + n / 2^18,0x80 + n / 2^12 % 2^6,0x80 + n / 2^6 % 2^6,0x80 + n % 2^6]).map UInt8.ofNat

def encoded (n : Nat) : Text := if 32 ≤ n ∧ n < 0x10ffff then utf8 n else []

def Token.meaning : Token → Text
  | .plain c _ => [c]
  | .reference name _ => encoded (codePoint name)

def specStep (name : Text) (tok : Token) : Text := if name.length < filenameMax then name ++ tok.meaning else name
def spec (value : List Token) : Text := value.foldl specStep []

/- entity_buf is reused: behind a shorter reference stands the end of a longer one before it. -/
def overlay (left name : Text) : Text := name ++ left.drop name.length

def leftStep (left : Text) : Token → Text
  | .plain _ _ => left
  | .reference name _ => overlay left name
def left (value : List Token) : Text := value.foldl leftStep []

def shown (left : Text) : Token → Text
  | .plain c _ => [c]
  | .reference name _ => encoded (ucsOf (overlay left name))

def decodedStep (p : Text × Text) (tok : Token) : Text × Text :=
  if p.1.length < filenameMax then (p.1 ++ shown p.2 tok,leftStep p.2 tok) else p
def decoded (value : List Token) : Text × Text := value.foldl decodedStep ([],[])

def reach : List UInt8 → Loop → Option Loop
  | [],l => some l
  | c::pre,l => if (turn l c).2 then none else reach pre (turn l c).1

def Closes : ReaddirState → List UInt8 → Prop
  | _,[] => False
  | s,c::post => (post = [] ∧ nextState s c = .stStart) ∨
      (nextState s c ∉ [ReaddirState.stStart,.stHrefeq,.stHrefqu] ∧ Closes (nextState s c) post)

/- What stands in front of a quoted value, up to its quotation mark and without a reference, and what stands behind the
quotation mark at its end. -/
structure Anchor where
  pre : List UInt8
  post : List UInt8
  writes : List Nat
  opens : reach pre startLoop = some ⟨.stHrefqu,.stHrefqu,⟨[],writes⟩,freshEntity⟩
  closes : Closes .stAttribute post

def Anchor.stream (a : Anchor) (value : List Token) (rest : List UInt8) : List UInt8 :=
  a.pre ++ (bytesOf value ++ 34::(a.post ++ rest))

/- Up to the cut, what is left of the references before makes no difference to the next. -/
def Undisturbed (value : List Token) : Prop := ∀ before name ok after, value = before ++ .reference name ok::after →
  (spec before).length < filenameMax → encoded (ucsOf (overlay (left before) name)) = encoded (codePoint name)

section
variable {c : UInt8} {o : Out} {es : EntityState} {name rest : Text} {l l' : Loop}

end
end Syslinux.HttpReaddir
