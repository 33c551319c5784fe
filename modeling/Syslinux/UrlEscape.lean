import Syslinux.Machine

/-! The escaping of core/fs/pxe/urlparse.c: url_escape_unsafe, hexdigit and url_unescape. A string
is the bytes in front of its NUL. -/
namespace Syslinux.UrlEscape

abbrev Bytes := List UInt8

def percent : UInt8 := 37

def uchexchar : Bytes := [48,49,50,51,52,53,54,55,56,57,65,66,67,68,69,70]

def hexchar (n : UInt8) : UInt8 := uchexchar.getD n.toNat 0

def Unsafe (c : UInt8) : Prop := c ≤ 32 ∨ 126 < c

instance (c) : Decidable (Unsafe c) := by unfold Unsafe; infer_instance

/- if (++n < bufsize) *q++ = c, with the bytes in front of q, and n. -/
def put (bufsize : Nat) (c : UInt8) (out : Bytes × Nat) : Bytes × Nat :=
  (if out.2 + 1 < bufsize then out.1 ++ [c] else out.1,out.2 + 1)

def escapeLoop (bufsize : Nat) : Bytes → Bytes × Nat → Bytes × Nat
  | [],out => out
  | c::input,out =>
      if Unsafe c then
        escapeLoop bufsize input
          (put bufsize (hexchar (c &&& 15)) (put bufsize (hexchar (c >>> 4)) (put bufsize percent out)))
      else escapeLoop bufsize input (put bufsize c out)

def urlEscapeUnsafe (input : Bytes) (bufsize : Nat) : Bytes × Nat :=
  let out := escapeLoop bufsize input ([],0)
  (out.1 ++ [0],out.2)

def hexdigit (c : UInt8) : Option UInt8 :=
  if 48 ≤ c ∧ c ≤ 57 then some (c - 48)
  else
    let c := c ||| 0x20
    if 97 ≤ c ∧ c ≤ 102 then some (c - 97 + 10) else none

/- The byte that an escape stands for, with p behind its percent sign. p[1] is looked at
behind a digit only. -/
def escapeAt (mem : Nat → UInt8) (p : Nat) : Option UInt8 :=
  (hexdigit (mem p)).bind fun x => (hexdigit (mem (p + 1))).map fun y => (x <<< 4) + y

structure Unescaped where
  mem : Nat → UInt8
  q : Nat
  ret : Option Nat

def unescapeLoop (terminator : UInt8) : Nat → (Nat → UInt8) → Nat → Nat → Option Unescaped
  | 0,_,_,_ => none
  | turns+1,mem,p,q =>
      let c := mem p
      if c = 0 then some ⟨store mem q [0],q,none⟩
      else if c = terminator then some ⟨store mem q [0],q,some p⟩
      else match if c = percent then escapeAt mem (p + 1) else none with
        | some b => unescapeLoop terminator turns (store mem q [b]) (p + 3) (q + 1)
        | none => unescapeLoop terminator turns (store mem q [c]) (p + 1) (q + 1)

def urlUnescape (turns : Nat) (mem : Nat → UInt8) (buffer : Nat) (terminator : UInt8) : Option Unescaped :=
  unescapeLoop terminator turns mem buffer buffer

def escapeChar (c : UInt8) : Bytes :=
  if Unsafe c then [percent,hexchar (c >>> 4),hexchar (c &&& 15)] else [c]

def escaped (input : Bytes) : Bytes := input.flatMap escapeChar

section
variable {bufsize : Nat}

/- What has been put so far: the beginning of the output that fits, and its whole length. -/
def fitting (bufsize : Nat) (text : Bytes) : Bytes × Nat := (text.take (bufsize - 1),text.length)

theorem putFitting (text : Bytes) (c : UInt8) : put bufsize c (fitting bufsize text) = fitting bufsize (text ++ [c]) := by
  unfold put fitting
  rw [List.length_append,List.take_append]
  split
  next room => rw [List.take_of_length_le (show [c].length ≤ _ by simp; omega)]; rfl
  next full => rw [show bufsize - 1 - text.length = 0 by simp at full; omega,List.take_zero,List.append_nil]; rfl

theorem escapeLoopFitting (input text : Bytes) :
    escapeLoop bufsize input (fitting bufsize text) = fitting bufsize (text ++ escaped input) := by
  induction input generalizing text with
  | nil => simp [escapeLoop,escaped]
  | cons c input ih =>
    rw [escapeLoop]
    simp only [putFitting,ih,escaped,List.flatMap_cons,escapeChar]
    split <;> simp

theorem escapeFits (input : Bytes) (bufsize : Nat) :
    urlEscapeUnsafe input bufsize = ((escaped input).take (bufsize - 1) ++ [0],(escaped input).length) := by
  have whole : escapeLoop bufsize input (fitting bufsize []) = _ := escapeLoopFitting input []
  unfold urlEscapeUnsafe
  rw [show (([],0) : Bytes × Nat) = fitting bufsize [] by simp [fitting],whole]
  rfl

end

theorem eachByte {P : UInt8 → Prop} (all : ∀ n : Fin 256, P (UInt8.ofFin n)) (c : UInt8) : P c := all c.toFin

set_option maxRecDepth 8000 in
theorem hexcharSafe (n : UInt8) (digit : n < 16) : ¬ Unsafe (hexchar n) :=
  eachByte (P := fun n => n < 16 → ¬ Unsafe (hexchar n)) (by decide) n digit

set_option maxRecDepth 8000 in
theorem hexdigitSafe (c : UInt8) (digit : (hexdigit c).isSome) : ¬ Unsafe c ∧ c ≠ percent :=
  eachByte (P := fun c => (hexdigit c).isSome → ¬ Unsafe c ∧ c ≠ percent) (by decide) c digit

set_option maxRecDepth 8000 in
theorem halvesSmall (c : UInt8) : c >>> 4 < 16 ∧ c &&& 15 < 16 :=
  eachByte (P := fun c => c >>> 4 < 16 ∧ c &&& 15 < 16) (by decide) c

set_option maxRecDepth 8000 in
theorem halvesRead (c : UInt8) : hexdigit (hexchar (c >>> 4)) = some (c >>> 4) ∧
    hexdigit (hexchar (c &&& 15)) = some (c &&& 15) ∧ ((c >>> 4) <<< 4) + (c &&& 15) = c :=
  eachByte (P := fun c => hexdigit (hexchar (c >>> 4)) = some (c >>> 4) ∧
    hexdigit (hexchar (c &&& 15)) = some (c &&& 15) ∧ ((c >>> 4) <<< 4) + (c &&& 15) = c) (by decide) c

theorem percentSafe : ¬ Unsafe percent := by decide
theorem percentNoDigit : hexdigit percent = none := by decide

theorem escapedSafe {input : Bytes} {c : UInt8} (mem : c ∈ escaped input) : ¬ Unsafe c := by
  obtain ⟨b,_,part⟩ := List.mem_flatMap.mp mem
  unfold escapeChar at part
  split at part
  · simp only [List.mem_cons,List.not_mem_nil,or_false] at part
    rcases part with rfl | rfl | rfl
    · exact percentSafe
    · exact hexcharSafe _ (halvesSmall b).1
    · exact hexcharSafe _ (halvesSmall b).2
  next safe => rwa [List.mem_singleton.mp part]

theorem escapedCons (c : UInt8) (input : Bytes) : escaped (c::input) = escapeChar c ++ escaped input := List.flatMap_cons

theorem escapeSafe {c : UInt8} (safe : ¬ Unsafe c) : escapeChar c = [c] := if_neg safe

theorem safeEscaped {text : Bytes} (safe : ∀ c ∈ text, ¬ Unsafe c) : escaped text = text := by
  induction text with
  | nil => rfl
  | cons c text ih =>
    rw [escapedCons,escapeSafe (safe c (by simp)),ih fun d mem => safe d (by simp [mem])]
    rfl

theorem escapedTwice (input : Bytes) : escaped (escaped input) = escaped input := safeEscaped fun _ => escapedSafe

/- url_unescape on a string: the escape behind a percent sign with what follows it, and then
the text, with the string from the terminator on. -/
def escapeOf : Bytes → Option (UInt8 × Bytes)
  | x::y::rest => (hexdigit x).bind fun x => (hexdigit y).map fun y => ((x <<< 4) + y,rest)
  | _ => none

def readChar (c : UInt8) (rest : Bytes) : UInt8 × Bytes :=
  if c = percent then (escapeOf rest).getD (c,rest) else (c,rest)

theorem escapeOfSuffix {rest : Bytes} {b : UInt8 × Bytes} (escape : escapeOf rest = some b) : ∃ x y, rest = x::y::b.2 := by
  match rest with
  | [] => cases escape
  | [_] => cases escape
  | x::y::rest =>
    obtain ⟨x',_,escape⟩ := Option.bind_eq_some_iff.mp escape
    obtain ⟨y',_,rfl⟩ := Option.map_eq_some_iff.mp escape
    exact ⟨x,y,rfl⟩

theorem readCharSuffix (c : UInt8) (rest : Bytes) : (readChar c rest).2 <:+ rest := by
  unfold readChar
  split
  · cases escape : escapeOf rest with
    | none => exact List.suffix_refl rest
    | some b =>
      obtain ⟨x,y,rfl⟩ := escapeOfSuffix escape
      exact ⟨[x,y],rfl⟩
  · exact List.suffix_refl rest

def unescape (terminator : UInt8) : Bytes → Bytes × Option Bytes
  | [] => ([],none)
  | c::rest =>
      if c = terminator then ([],some (c::rest))
      else
        let later := unescape terminator (readChar c rest).2
        ((readChar c rest).1::later.1,later.2)
termination_by s => s.length
decreasing_by exact Nat.lt_succ_of_le (readCharSuffix c rest).length_le

theorem unescapeCons {terminator c : UInt8} (other : c ≠ terminator) (rest : Bytes) : unescape terminator (c::rest) =
    ((readChar c rest).1::(unescape terminator (readChar c rest).2).1,(unescape terminator (readChar c rest).2).2) := by
  rw [unescape,if_neg other]

theorem unescapeStop (terminator : UInt8) (rest : Bytes) :
    unescape terminator (terminator::rest) = ([],some (terminator::rest)) := by
  rw [unescape,if_pos rfl]

section
variable {terminator : UInt8}

theorem escapeOfEscaped (rest : Bytes) : escapeOf (escaped rest) = (escapeOf rest).map fun b => (b.1,escaped b.2) := by
  match rest with
  | [] => rfl
  | [x] =>
    rw [escapedCons,escapeChar]
    split
    · simp [escapeOf,percentNoDigit]
    · rfl
  | x::y::rest =>
    cases first : hexdigit x with
    | none =>
      have none' : escapeOf (x::y::rest) = none := by simp [escapeOf,first]
      rw [none',escapedCons,escapeChar]
      split
      · simp [escapeOf,percentNoDigit]
      · rw [List.singleton_append]
        cases escaped (y::rest) <;> simp [escapeOf,first]
    | some x' =>
      rw [escapedCons,escapeSafe (hexdigitSafe x (by simp [first])).1,List.singleton_append,escapedCons]
      cases second : hexdigit y with
      | none =>
        rw [escapeChar]
        split <;> simp [escapeOf,percentNoDigit,first,second]
      | some y' =>
        rw [escapeSafe (hexdigitSafe y (by simp [second])).1]
        simp [escapeOf,first,second]

theorem readCharEscaped (c : UInt8) (rest : Bytes) :
    readChar c (escaped rest) = ((readChar c rest).1,escaped (readChar c rest).2) := by
  unfold readChar
  split
  · rw [escapeOfEscaped]
    cases escapeOf rest <;> rfl
  · rfl

theorem readUnsafe (c : UInt8) (rest : Bytes) :
    readChar percent (hexchar (c >>> 4)::hexchar (c &&& 15)::rest) = (c,rest) := by
  obtain ⟨high,low,whole⟩ := halvesRead c
  simp [readChar,escapeOf,high,low,whole]

theorem readPlain {c : UInt8} (other : c ≠ percent) (rest : Bytes) : readChar c rest = (c,rest) := if_neg other

theorem unescapeEscaped (safe' : terminator = 0 ∨ ¬ Unsafe terminator) (noPercent : terminator ≠ percent) (input : Bytes)
    (noNul : 0 ∉ input) :
    unescape terminator (escaped input) = ((unescape terminator input).1,(unescape terminator input).2.map escaped) := by
  induction input using unescape.induct terminator with
  | case1 => simp [escaped,unescape]
  | case2 rest =>
    have safe := safe'.resolve_left fun nul => noNul (by simp [nul])
    rw [escapedCons,escapeSafe safe,List.singleton_append,unescapeStop,unescapeStop,Option.map_some,escapedCons,
      escapeSafe safe]
    rfl
  | case3 c rest other ih =>
    have later := ih fun mem => noNul (List.mem_cons_of_mem c ((readCharSuffix c rest).mem mem))
    rw [escapedCons,unescapeCons other]
    by_cases unsafe' : Unsafe c
    · have plain := readPlain (fun same => percentSafe (same ▸ unsafe') : c ≠ percent) rest
      rw [plain] at later ⊢
      rw [escapeChar,if_pos unsafe',List.cons_append,List.cons_append,List.singleton_append,
        unescapeCons noPercent.symm,readUnsafe,later]
    · rw [escapeSafe unsafe',List.singleton_append,unescapeCons other,readCharEscaped,later]

end

section
variable {terminator : UInt8} {mem : Nat → UInt8} {p q : Nat}

/- The string at p, with its NUL. -/
def Holds (mem : Nat → UInt8) (p : Nat) (s : Bytes) : Prop := read mem p (s.length + 1) = s ++ [0]

theorem holdsStore {b : UInt8} {s : Bytes} (apart : q < p) (holds : Holds mem p s) : Holds (store mem q [b]) p s := by
  unfold Holds
  rw [readApart (Or.inr (by simpa using apart))]
  exact holds

theorem holdsCons {c : UInt8} {s : Bytes} : Holds mem p (c::s) ↔ mem p = c ∧ Holds mem (p + 1) s := by
  unfold Holds
  rw [List.length_cons,Nat.add_comm (s.length + 1) 1,readAppend]
  simp [read]

theorem holdsNil : Holds mem p [] ↔ mem p = 0 := by simp [Holds,read]

theorem escapeAtOf {rest : Bytes} (holds : Holds mem p rest) : escapeAt mem p = (escapeOf rest).map Prod.fst := by
  match rest with
  | [] =>
    rw [escapeAt,holdsNil.1 holds]
    rfl
  | [x] =>
    obtain ⟨first,last⟩ := holdsCons.1 holds
    rw [escapeAt,first,holdsNil.1 last]
    cases hexdigit x <;> rfl
  | x::y::rest =>
    obtain ⟨first,later⟩ := holdsCons.1 holds
    rw [escapeAt,first,(holdsCons.1 later).1,escapeOf]
    cases hexdigit x <;> cases hexdigit y <;> rfl

theorem unescapeTurn {c : UInt8} {rest : Bytes} (notNul : c ≠ 0) (other : c ≠ terminator) (holds : Holds mem p (c::rest))
    (turns : Nat) : ∃ p', p' + (readChar c rest).2.length = p + 1 + rest.length ∧ Holds mem p' (readChar c rest).2 ∧
      unescapeLoop terminator (turns + 1) mem p q = unescapeLoop terminator turns (store mem q [(readChar c rest).1]) p' (q + 1) := by
  obtain ⟨here,later⟩ := holdsCons.1 holds
  have plain (read' : readChar c rest = (c,rest)) (none' : (if c = percent then escapeAt mem (p + 1) else none) = none) :
      ∃ p', p' + (readChar c rest).2.length = p + 1 + rest.length ∧ Holds mem p' (readChar c rest).2 ∧
        unescapeLoop terminator (turns + 1) mem p q =
          unescapeLoop terminator turns (store mem q [(readChar c rest).1]) p' (q + 1) := by
    refine ⟨p + 1,?_,?_,?_⟩
    · rw [read']
    · rw [read']
      exact later
    · rw [unescapeLoop,here]
      simp only [if_neg notNul,if_neg other,none',read']
  by_cases isPercent : c = percent
  · cases escape : escapeOf rest with
    | none =>
      refine plain ?_ ?_
      · rw [readChar,if_pos isPercent,escape]
        rfl
      · rw [if_pos isPercent,escapeAtOf later,escape]
        rfl
    | some b =>
      have read' : readChar c rest = b := by
        rw [readChar,if_pos isPercent,escape]
        rfl
      obtain ⟨x,y,rfl⟩ := escapeOfSuffix escape
      refine ⟨p + 3,?_,?_,?_⟩
      · rw [read',List.length_cons,List.length_cons]
        omega
      · rw [read']
        exact (holdsCons.1 (holdsCons.1 later).2).2
      · have here' : escapeAt mem (p + 1) = some b.1 := by
          rw [escapeAtOf later,escape]
          rfl
        rw [unescapeLoop,here]
        simp only [if_neg notNul,if_neg other,if_pos isPercent,here',read']
  · refine plain (readPlain isPercent rest) ?_
    rw [if_neg isPercent]

theorem unescapeLoopText (s : Bytes) (noNul : 0 ∉ s) (turns : Nat) (enough : s.length < turns) (behind : q ≤ p)
    (holds : Holds mem p s) : ∃ ret, unescapeLoop terminator turns mem p q =
      some ⟨store mem q ((unescape terminator s).1 ++ [0]),q + (unescape terminator s).1.length,ret⟩ ∧
      ret = (unescape terminator s).2.map fun rest => p + s.length - rest.length := by
  induction s using unescape.induct terminator generalizing turns mem p q with
  | case1 =>
    obtain ⟨turns,rfl⟩ := Nat.exists_eq_add_of_lt enough
    exact ⟨none,by simp [unescapeLoop,holdsNil.1 holds,unescape],by simp [unescape]⟩
  | case2 rest =>
    obtain ⟨turns,rfl⟩ := Nat.exists_eq_add_of_lt enough
    have notNul : terminator ≠ 0 := fun nul => noNul (by simp [nul])
    exact ⟨some p,by simp [unescapeLoop,(holdsCons.1 holds).1,notNul,unescapeStop],by simp [unescapeStop]⟩
  | case3 c rest other ih =>
    obtain ⟨turns,rfl⟩ := Nat.exists_eq_add_of_lt enough
    have suffix := readCharSuffix c rest
    have notNul : c ≠ 0 := fun nul => noNul (by simp [nul])
    obtain ⟨p',moved,holds',turn⟩ := unescapeTurn (q := q) notNul other holds (rest.length + 1 + turns)
    have shorter := suffix.length_le
    have behind' : q + 1 ≤ p' := by omega
    obtain ⟨ret,ran,eq⟩ := ih (fun mem => noNul (List.mem_cons_of_mem c (suffix.mem mem))) (rest.length + 1 + turns)
      (by omega) behind' (holdsStore (b := (readChar c rest).1) behind' holds')
    refine ⟨ret,?_,?_⟩
    · have whole : store (store mem q [(readChar c rest).1]) (q + 1) ((unescape terminator (readChar c rest).2).1 ++ [0]) =
          store mem q ((readChar c rest).1::((unescape terminator (readChar c rest).2).1 ++ [0])) := storeAppend
      rw [List.length_cons,turn,ran,unescapeCons other,whole,List.length_cons,List.cons_append,Nat.add_assoc q 1,
        Nat.add_comm 1]
    · rw [eq,unescapeCons other,List.length_cons]
      refine Option.map_congr fun rest' _ => ?_
      omega

theorem urlUnescapeText {s : Bytes} (noNul : 0 ∉ s) (holds : Holds mem p s) {turns : Nat} (enough : s.length < turns) :
    ∃ ret, urlUnescape turns mem p terminator =
      some ⟨store mem p ((unescape terminator s).1 ++ [0]),p + (unescape terminator s).1.length,ret⟩ ∧
      ret = (unescape terminator s).2.map fun rest => p + s.length - rest.length :=
  unescapeLoopText s noNul turns enough (Nat.le_refl p) holds

end

/- The text that is left in the buffer, and whether the end was an unescaped terminator. -/
def Unescaped.text (r : Unescaped) (buffer : Nat) : Bytes × Bool := (read r.mem buffer (r.q + 1 - buffer),r.ret.isSome)

theorem unescapedText {mem : Nat → UInt8} {buffer : Nat} (text : Bytes) (ret : Option Nat) :
    Unescaped.text ⟨store mem buffer (text ++ [0]),buffer + text.length,ret⟩ buffer = (text ++ [0],ret.isSome) := by
  unfold Unescaped.text
  rw [show buffer + text.length + 1 - buffer = (text ++ [0]).length by simp; omega,readInside (Nat.le_refl _),List.take_length]

/- Escaping is idempotent and is undone by unescaping, and the output is cut to the buffer. -/
theorem escapeLaws (s : Bytes) (noNul : 0 ∉ s) (terminator : UInt8) (known : terminator = 0 ∨ terminator = 59) :
    (∀ bufsize, urlEscapeUnsafe (escaped s) bufsize = urlEscapeUnsafe s bufsize) ∧
    (∀ mem mem' buffer buffer', Holds mem buffer s → Holds mem' buffer' (escaped s) → ∃ turns r r',
      urlUnescape turns mem buffer terminator = some r ∧ urlUnescape turns mem' buffer' terminator = some r' ∧
      r'.text buffer' = r.text buffer) ∧
    ∀ bufsize, 1 ≤ bufsize → (urlEscapeUnsafe s bufsize).1.length ≤ bufsize ∧
      (urlEscapeUnsafe s bufsize).1 = (escaped s).take (bufsize - 1) ++ [0] ∧
      (urlEscapeUnsafe s bufsize).2 = (escaped s).length := by
  have safe : terminator = 0 ∨ ¬ Unsafe terminator := known.imp_right fun same => by rw [same]; decide
  have noPercent : terminator ≠ percent := by rcases known with rfl | rfl <;> decide
  refine ⟨fun bufsize => ?_,fun mem mem' buffer buffer' holds holds' => ?_,fun bufsize positive => ?_⟩
  · rw [escapeFits,escapeFits,escapedTwice]
  · have noNul' : 0 ∉ escaped s := fun mem => escapedSafe mem (by decide)
    obtain ⟨ret,ran,eq⟩ := @urlUnescapeText terminator mem buffer s noNul holds (s.length + (escaped s).length + 1) (by omega)
    obtain ⟨ret',ran',eq'⟩ :=
      @urlUnescapeText terminator mem' buffer' (escaped s) noNul' holds' (s.length + (escaped s).length + 1) (by omega)
    refine ⟨_,_,_,ran,ran',?_⟩
    rw [unescapedText,unescapedText,eq,eq',unescapeEscaped safe noPercent s noNul]
    simp
  · rw [escapeFits]
    refine ⟨?_,rfl,rfl⟩
    rw [List.length_append,List.length_take,List.length_singleton]
    omega

/- A malformed escape in front of an escaped byte. -/
theorem escapeLawsMalformed : 0 ∉ ([37,52,128] : Bytes) ∧
    ∀ bufsize, urlEscapeUnsafe (escaped [37,52,128]) bufsize = urlEscapeUnsafe [37,52,128] bufsize :=
  ⟨by decide,(escapeLaws [37,52,128] (by decide) 59 (Or.inr rfl)).1⟩

end Syslinux.UrlEscape
