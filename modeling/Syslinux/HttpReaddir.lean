import Syslinux.Readconfig

/-! http_get_filename of core/fs/pxe/http_readdir.c: the recogniser of anchors, the decoder of character references,
and the buffer for the name. -/
namespace Syslinux.HttpReaddir
open Readconfig (Text ascii char cstr isspace isX digitval digits strntoumax)

def filenameMax : Nat := 256

inductive ReaddirState where
  | stStart | stOpen | stA | stAttribute | stH | stHr | stHre | stHref | stHrefeq | stHrefqu | stBadtag | stBadtagqu
  | stBadattr | stBadattrqu
  deriving DecidableEq, Repr

structure Machine where
  xchar : UInt8
  stXchar : ReaddirState
  stLeft : ReaddirState
  stRight : ReaddirState
  stSpace : ReaddirState
  stOther : ReaddirState

def statemachine : ReaddirState → Machine
  | .stStart => ⟨0,.stStart,.stOpen,.stStart,.stStart,.stStart⟩
  | .stOpen => ⟨97,.stA,.stBadtag,.stStart,.stOpen,.stBadtag⟩
  | .stA => ⟨0,.stStart,.stOpen,.stOpen,.stAttribute,.stBadtag⟩
  | .stAttribute => ⟨104,.stH,.stOpen,.stStart,.stAttribute,.stBadattr⟩
  | .stH => ⟨114,.stHr,.stOpen,.stStart,.stAttribute,.stBadattr⟩
  | .stHr => ⟨101,.stHre,.stOpen,.stStart,.stAttribute,.stBadattr⟩
  | .stHre => ⟨102,.stHref,.stOpen,.stStart,.stAttribute,.stBadattr⟩
  | .stHref => ⟨61,.stHrefeq,.stOpen,.stStart,.stAttribute,.stBadattr⟩
  | .stHrefeq => ⟨34,.stHrefqu,.stOpen,.stStart,.stAttribute,.stHrefeq⟩
  | .stHrefqu => ⟨34,.stAttribute,.stHrefqu,.stHrefqu,.stHrefqu,.stHrefqu⟩
  | .stBadtag => ⟨34,.stBadtagqu,.stOpen,.stStart,.stBadtag,.stBadtag⟩
  | .stBadtagqu => ⟨34,.stBadtag,.stBadtagqu,.stBadtagqu,.stBadtagqu,.stBadtagqu⟩
  | .stBadattr => ⟨34,.stBadattrqu,.stOpen,.stStart,.stAttribute,.stBadattr⟩
  | .stBadattrqu => ⟨34,.stAttribute,.stBadattrqu,.stBadattrqu,.stBadattrqu,.stBadattrqu⟩

def isupper (c : UInt8) : Bool := (65 ≤ c && c ≤ 90) || (192 ≤ c && c ≤ 222 && c != 215)

def tolower (c : UInt8) : UInt8 := if isupper c then c ||| 32 else c

def nextState (state : ReaddirState) (c : UInt8) : ReaddirState :=
  let sm := statemachine state
  if tolower c = sm.xchar then sm.stXchar
  else if c = 60 then sm.stLeft
  else if c = 62 then sm.stRight
  else if isspace c then sm.stSpace
  else sm.stOther

/- Without HTTP_ALL_ENTITIES, which is defined nowhere. -/
def entities : List (Nat × Text) := [(34,ascii "quot"),(38,ascii "amp"),(60,ascii "lt"),(62,ascii "gt")]

structure EntityState where
  entityBuf : Text
  ep : Option Nat
  deriving DecidableEq, Repr

/- What stands in buf in front of p, and the places of all that is written. -/
structure Out where
  text : Text
  writes : List Nat
  deriving DecidableEq, Repr

/- *p++ = c -/
def Out.put (o : Out) (c : Nat) : Out := ⟨o.text ++ [UInt8.ofNat c],o.writes ++ [o.text.length]⟩

/- *p = NUL -/
def Out.nul (o : Out) : Out := { o with writes := o.writes ++ [o.text.length] }

/- The code point of the string in entity_buf. An unsigned int has 32 bits. -/
def ucsOf (entity : Text) : Nat :=
  if char entity = 35 then
    if char (entity.drop 1) ||| 32 = 120 then (strntoumax (entity.drop 2) 16).1 % 2^32
    else (strntoumax (entity.drop 1) 10).1 % 2^32
  else ((entities.find? fun ent => entity == ent.2).map Prod.fst).getD 0

def putUcs (o : Out) (ucs : Nat) : Out :=
  if ucs < 32 ∨ 0x10ffff ≤ ucs then o
  else if 0x10000 ≤ ucs then
    (((o.put (0xf0 + (ucs >>> 18))).put (0x80 + ((ucs >>> 12) &&& 0x3f))).put (0x80 + ((ucs >>> 6) &&& 0x3f))).put (0x80 + (ucs &&& 0x3f))
  else if 0x800 ≤ ucs then ((o.put (0xe0 + (ucs >>> 12))).put (0x80 + ((ucs >>> 6) &&& 0x3f))).put (0x80 + (ucs &&& 0x3f))
  else if 0x80 ≤ ucs then (o.put (0xc0 + (ucs >>> 6))).put (0x80 + (ucs &&& 0x3f))
  else o.put ucs

/- The NUL behind a reference is written to p, not to st->ep. -/
def emit (o : Out) (c : UInt8) (st : EntityState) : Out × EntityState :=
  match st.ep with
  | none => if c = 38 then (o,{ st with ep := some 0 }) else (o.put c.toNat,st)
  | some ep =>
      if c = 59 then (putUcs o.nul (ucsOf (cstr st.entityBuf)),{ st with ep := none })
      else if ep < 15 then (o,⟨st.entityBuf.set ep c,some (ep + 1)⟩)
      else (o,st)

structure Loop where
  state : ReaddirState
  pstate : ReaddirState
  out : Out
  es : EntityState
  deriving DecidableEq, Repr

def turn (l : Loop) (c : UInt8) : Loop × Bool :=
  let state := nextState l.state c
  if state = .stHrefeq ∨ state = .stHrefqu then
    if state ≠ l.pstate then (⟨state,state,{ l.out with text := [] },l.es⟩,false)
    else if l.out.text.length < filenameMax then
      let r := emit l.out c l.es
      (⟨state,state,r.1,r.2⟩,false)
    else ({ l with state := state },false)
  else if l.out.text ≠ [] ∧ state = .stStart then (⟨state,.stStart,l.out.nul,l.es⟩,true)
  else (⟨state,.stStart,l.out,l.es⟩,false)

/- The name that is returned, the rest of the stream, and where buf was written. -/
structure Result where
  name : Option Text
  rest : List UInt8
  writes : List Nat
  deriving DecidableEq, Repr

def run : List UInt8 → Loop → Result
  | [],l => ⟨none,[],l.out.writes⟩
  | c::stream,l =>
      let r := turn l c
      if r.2 then ⟨some (cstr r.1.out.text),stream,r.1.out.writes⟩ else run stream r.1

def freshEntity : EntityState := ⟨List.replicate 16 0,none⟩
def startLoop : Loop := ⟨.stStart,.stStart,⟨[],[]⟩,freshEntity⟩

section
variable {o : Out} {l : Loop} {c : UInt8}

theorem putLength (o : Out) (c : Nat) : (o.put c).text.length = o.text.length + 1 := by simp [Out.put]

structure Grows (o o' : Out) : Prop where
  behind : o.text.length ≤ o'.text.length
  few : o'.text.length ≤ o.text.length + 4
  writes : ∀ a ∈ o'.writes, a ∈ o.writes ∨ a ≤ o.text.length + 3

theorem putGrows {o' : Out} (grows : Grows o o') (room : o'.text.length ≤ o.text.length + 3) (c : Nat) : Grows o (o'.put c) := by
  obtain ⟨behind,few,writes⟩ := grows
  refine ⟨by rw [putLength]; omega,by rw [putLength]; omega,fun a mem => ?_⟩
  rcases List.mem_append.mp mem with mem | mem
  · exact writes a mem
  · rw [List.mem_singleton.mp mem]
    exact Or.inr room

theorem nulGrows (o : Out) : Grows o o.nul := by
  refine ⟨Nat.le_refl _,Nat.le_add_right _ _,fun a mem => ?_⟩
  rcases List.mem_append.mp mem with mem | mem
  · exact Or.inl mem
  · rw [List.mem_singleton.mp mem]
    exact Or.inr (Nat.le_add_right _ _)

theorem staysGrows (o : Out) : Grows o o := ⟨Nat.le_refl _,Nat.le_add_right _ _,fun _ mem => Or.inl mem⟩

theorem ucsGrows {o' : Out} (grows : Grows o o') (same : o'.text.length = o.text.length) (ucs : Nat) : Grows o (putUcs o' ucs) := by
  have one (c : Nat) : Grows o (o'.put c) := putGrows grows (by omega) c
  have two (c c' : Nat) : Grows o ((o'.put c).put c') := putGrows (one c) (by rw [putLength]; omega) c'
  have three (c c' c'' : Nat) : Grows o (((o'.put c).put c').put c'') := putGrows (two c c') (by simp only [putLength]; omega) c''
  unfold putUcs
  split
  · exact grows
  split
  · exact putGrows (three _ _ _) (by simp only [putLength]; omega) _
  split
  · exact three _ _ _
  split
  · exact two _ _
  · exact one _

theorem emitGrows (o : Out) (c : UInt8) (st : EntityState) : Grows o (emit o c st).1 := by
  unfold emit
  split
  · split
    · exact staysGrows o
    · exact putGrows (staysGrows o) (Nat.le_add_right _ _) _
  · split
    · exact ucsGrows (nulGrows o) rfl _
    · split <;> exact staysGrows o

structure InBuffer (o : Out) : Prop where
  length : o.text.length ≤ filenameMax + 3
  writes : ∀ a ∈ o.writes, a < filenameMax + 6

theorem grownInside {o' : Out} (inside : InBuffer o) (room : o.text.length < filenameMax) (grows : Grows o o') : InBuffer o' := by
  refine ⟨Nat.le_trans grows.few (by omega),fun a mem => ?_⟩
  rcases grows.writes a mem with old | new
  · exact inside.writes a old
  · omega

theorem nulInside (inside : InBuffer o) : InBuffer o.nul := by
  refine ⟨inside.length,fun a mem => ?_⟩
  rcases List.mem_append.mp mem with mem | mem
  · exact inside.writes a mem
  · rw [List.mem_singleton.mp mem]
    exact Nat.lt_of_le_of_lt inside.length (by omega)

theorem turnInside (inside : InBuffer l.out) : InBuffer (turn l c).1.out := by
  unfold turn
  dsimp only
  split
  · split
    · exact ⟨Nat.zero_le _,inside.writes⟩
    split
    · rename_i room
      exact grownInside inside room (emitGrows l.out c l.es)
    · exact inside
  · split
    · exact nulInside inside
    · exact inside

end
end Syslinux.HttpReaddir
