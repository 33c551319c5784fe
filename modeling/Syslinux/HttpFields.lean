import Syslinux.HttpOpen

/-! What http_open makes of a well-formed response: the fields it has processed when the header ends, against all fields
of the response, over any sequence of calls. -/
namespace Syslinux.HttpOpen
open Readconfig (Text ascii)

structure Field where
  first : UInt8
  others : Text
  value : Text
  start : isToken first = true ∧ Readconfig.isspace first = false
  token : ∀ c ∈ others, isToken c = true
  short : others.length < 19
  line : ∀ c ∈ value, c ≠ 10
  room : value.length < 1024

def Field.name (f : Field) : Text := f.first::f.others
def Field.entry (f : Field) : Text × Text := (f.name,f.value)
def Field.bytes (f : Field) : Text := f.name ++ 58::(f.value ++ [10])

structure Response where
  version : Text
  hundreds : Fin 10
  tens : Fin 10
  ones : Fin 10
  reason : Text
  fields : List Field
  versionLine : ∀ c ∈ version, c ≠ 32
  reasonLine : ∀ c ∈ reason, c ≠ 10

def digit (n : Fin 10) : UInt8 := UInt8.ofNat (48 + n)

def Response.status (r : Response) : Nat := (r.hundreds*10 + r.tens)*10 + r.ones

def Response.header (r : Response) : Text :=
  r.version ++ 32::digit r.hundreds::digit r.tens::digit r.ones::(r.reason ++ 10::(r.fields.flatMap Field.bytes ++ [10]))

/- CR and NUL are passed over wherever they stand. -/
def heard (c : UInt8) : Bool := c != 13 && c != 0

/- One call: the uninitialised buffers, the response's header with any CR and NUL, and the data. -/
structure Call where
  junk : Text × Text
  response : Response
  head : List UInt8
  data : List UInt8
  carries : head.filter heard = response.header

section
variable (env : Env)

def values (name : String) (fields : List (Text × Text)) : List Text :=
  (fields.filter fun f => sameName f.1 (ascii name)).map fun f => env.skipSpace f.2

def locations (r : Response) : List Text := (values env "Location" (r.fields.map Field.entry)).filter (· ≠ [])

def decimal (t : Text) : Option Nat :=
  if t ≠ [] ∧ t.all isDigit then some (t.foldl (fun n c => n*10 + (c.toNat - 48)) 0) else none

/- The Content-Length fields that are decimal numbers below 2^32 - 1. -/
def lengths (r : Response) : List Nat :=
  ((values env "Content-Length" (r.fields.map Field.entry)).filterMap decimal).filter (· < 2^32 - 1)

/- Each field is processed when the next one begins: the uninitialised one first, and the last one never. -/
def processed (c : Call) : List (Text × Text) := (c.junk::c.response.fields.map Field.entry).dropLast

/- The last Location of these, or what the static buffer has from the calls before. -/
def stored (location : Text) (c : Call) : Text :=
  ((values env "Location" (processed c)).getLast?.map fun value => value.take filenameMax).getD location

structure Holds (unknown : Nat) (location : Text) (c : Call) : Prop where
  redirected : c.response.status ∈ redirects →
    (stored env location c = [] ∧ locations env c.response = []) ∨ stored env location c ∈ locations env c.response
  sized : c.response.status = 200 → lengths env c.response = [] ∧ unknown = noLength

/- The calls one after the other, each with the location it finds and what it leaves. -/
def opens : List Call → Text → List (Text × Call × Outcome)
  | [],_ => []
  | c::calls,location =>
      let o := httpOpen env c.junk location (c.head ++ c.data)
      (location,c,o)::opens calls o.location

end

section
variable {env : Env} {l l' : Header} {c : UInt8}

def steps (env : Env) : List UInt8 → Header → Option Header
  | [],l => some l
  | c::text,l => (turn env l c).bind (steps env text)

theorem parseEnd {head : List UInt8} (ended : steps env head l = some l') (final : l'.state = .stEoh) (data : List UInt8) :
    ∃ rest, parseHeader env (head ++ data) l = (l',some rest) := by
  induction head generalizing l with
  | nil =>
    cases ended
    cases data with
    | nil => exact ⟨[],by rw [List.nil_append,parseHeader,if_pos final]⟩
    | cons c data => exact ⟨c::data,by rw [List.nil_append,parseHeader,if_pos final]⟩
  | cons c head ih =>
    obtain ⟨l1,first,rest⟩ := Option.bind_eq_some_iff.mp ended
    rw [List.cons_append,parseHeader]
    by_cases past : l.state = .stEoh
    · have stays (text : List UInt8) : steps env text l = some l := by
        induction text with
        | nil => rfl
        | cons c text ih =>
          have same : turn env l c = some l := by
            unfold turn step
            rw [past]
            split <;> rfl
          rw [steps,same]
          exact ih
      cases (stays _).symm.trans ended
      exact ⟨_,if_pos past⟩
    · rw [if_neg past,first]
      exact ih rest

theorem turnHeard (plain : heard c = true) (l : Header) : turn env l c = step env l c := by
  refine if_neg ?_
  rintro (rfl | rfl) <;> exact absurd plain (by decide)

theorem lineSteps {text : Text} (inner : ∀ c ∈ text, c ≠ 10) (skipped : l.state = .stSkipline) : steps env text l = some l := by
  induction text with
  | nil => rfl
  | cons c text ih =>
    have same : turn env l c = some l := by
      unfold turn step
      rw [skipped]
      split
      · rfl
      · exact congrArg some (if_neg (inner c List.mem_cons_self))
    rw [steps,same]
    exact ih fun c mem => inner c (List.mem_cons_of_mem _ mem)

theorem digitTurn (n : Fin 10) (l : Header) (code : l.state = .stStcode) : turn env l (digit n) =
    some (if l.pos + 1 = 3 then { l with status := l.status*10 + n,pos := l.pos + 1,state := .stSkipline }
      else { l with status := l.status*10 + n,pos := l.pos + 1 }) := by
  have known : ∀ n : Fin 10, heard (digit n) = true ∧ isDigit (digit n) = true ∧ (digit n).toNat - 48 = n := by decide
  obtain ⟨plain,number,value⟩ := known n
  rw [turnHeard plain,step,code]
  simp only [number,value,Bool.not_true,Bool.false_eq_true,if_false]

def store (env : Env) (location : Text) (f : Text × Text) : Text :=
  if sameName f.1 (ascii "Location") then (env.skipSpace f.2).take filenameMax else location

end
end Syslinux.HttpOpen
