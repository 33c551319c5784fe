import Mathlib.Data.List.TakeWhile
import Syslinux.TftpOack
import Syslinux.UrlEscape

/-! The option parser of tftp_open, over the bytes of the reply: the cursor p, and the counter
buffersize. A read or a write behind the packet has no defined result: none. -/
namespace Syslinux.TftpOptions
open Tftp

/- The buffer, p, how many bytes of the packet there are from p on, and buffersize. -/
structure Cursor where
  mem : Nat → UInt8
  p : Nat
  left : Nat
  buffersize : Int

/- To the NUL that ends a name. -/
def nameLoop : Nat → (Nat → UInt8) → Nat → Int → Option Cursor
  | left,mem,p,buffersize =>
      if buffersize = 0 then some ⟨mem,p,left,buffersize⟩
      else match left with
        | 0 => none
        | left+1 =>
            if mem p = 0 then some ⟨mem,p,left + 1,buffersize⟩
            else nameLoop left (store mem p [lower (mem p)]) (p + 1) (buffersize - 1)

/- opdata, none for what is not a digit. The counter is taken down before the loop ends. -/
def numberLoop (mem : Nat → UInt8) : Nat → Nat → Int → Nat → Option (Option Nat × Cursor)
  | left,p,buffersize,opdata =>
      if buffersize = 0 then some (some opdata,⟨mem,p,left,buffersize - 1⟩)
      else match left with
        | 0 => none
        | left+1 =>
            let d := mem p
            if d = 0 then some (some opdata,⟨mem,p + 1,left,buffersize - 1⟩)
            else if 9 < d - 48 then some (none,⟨mem,p + 1,left,buffersize - 1⟩)
            else numberLoop mem left (p + 1) (buffersize - 1) ((opdata*10 + (d - 48).toNat) % 2^64)

/- strcmp(opt,name) = 0, with the bytes of the packet from opt on. -/
def strcmpSame (mem : Nat → UInt8) : Nat → Nat → List UInt8 → Option Bool
  | 0,_,_ => none
  | _+1,opt,[] => some (mem opt = 0)
  | left+1,opt,c::name => if mem opt = c then strcmpSame mem left (opt + 1) name else some false

/- goto done, goto err_reply, or the end of the loop. -/
inductive Verdict where
  | done | errReply | parsed
  deriving DecidableEq, Repr

def setOption (mem : Nat → UInt8) (left opt opdata : Nat) (sock : Socket) : Option (Option Socket) :=
  (strcmpSame mem left opt tsizeName).bind fun tsize =>
    if tsize then some (some { sock with size := opdata })
    else (strcmpSame mem left opt blksizeName).map fun blksize =>
      if blksize then some { sock with blksize := opdata % 2^32 } else none

def optionLoop : Nat → Socket → Cursor → Option (Verdict × Socket × Cursor)
  | 0,_,_ => none
  | turns+1,sock,c =>
      if c.buffersize = 0 then some (.parsed,sock,c)
      else if c.left = 0 then none
      else if c.mem c.p = 0 then some (.done,sock,c)
      else (nameLoop c.left c.mem c.p c.buffersize).bind fun v =>
        if v.buffersize = 0 then some (.parsed,sock,v)
        else if v.buffersize - 1 = 0 then some (.parsed,sock,⟨v.mem,v.p + 1,v.left - 1,v.buffersize - 1⟩)
        else (numberLoop v.mem (v.left - 1) (v.p + 1) (v.buffersize - 1) 0).bind fun (opdata,w) =>
          match opdata with
          | none => some (.errReply,sock,w)
          | some opdata => (setOption w.mem c.left c.p opdata sock).bind fun set =>
              match set with
              | some sock => optionLoop turns sock w
              | none => some (.errReply,sock,w)

/- The options are what comes behind the opcode; a turn takes one byte of them at least. -/
def parseOack (mem : Nat → UInt8) (bufLen : Nat) (sock : Socket) : Option (Verdict × Socket × Cursor) :=
  optionLoop (bufLen - 2 + 1) sock ⟨mem,2,bufLen - 2,(bufLen : Int) - 2⟩

section
variable {mem : Nat → UInt8} {p n : Nat} {rest name digits : List UInt8} {sock : Socket}

def At (mem : Nat → UInt8) (p : Nat) (rest : List UInt8) : Prop := read mem p rest.length = rest

theorem atAppend {more : List UInt8} : At mem p (rest ++ more) ↔ At mem p rest ∧ At mem (p + rest.length) more := by
  unfold At
  rw [List.length_append,readAppend]
  exact ⟨fun eq => List.append_inj eq (by simp),fun ⟨eq,eq'⟩ => by rw [eq,eq']⟩

theorem atCons {c : UInt8} : At mem p (c::rest) ↔ mem p = c ∧ At mem (p + 1) rest := by
  rw [← List.singleton_append,atAppend]
  simp [At,read]

theorem atStore {bytes : List UInt8} {q : Nat} (here : At mem p rest) (apart : q + bytes.length ≤ p) :
    At (store mem q bytes) p rest := by
  unfold At
  rwa [readApart (Or.inr apart)]

theorem atStored {bytes : List UInt8} : At (store mem p bytes) p bytes := by
  unfold At
  rw [readInside (Nat.le_refl _),List.take_length]

theorem nameLoopEnds (noNul : 0 ∉ name) (here : At mem p (name ++ 0::rest)) :
    nameLoop (name ++ 0::rest).length mem p (name ++ 0::rest).length =
      some ⟨store mem p (name.map lower),p + name.length,rest.length + 1,rest.length + 1⟩ := by
  induction name generalizing mem p with
  | nil =>
    have zero := (atCons.1 here).1
    simp only [List.nil_append,List.length_cons,List.map_nil,storeNothing,List.length_nil]
    rw [nameLoop,if_neg (by omega)]
    simp [zero]
  | cons c name ih =>
    obtain ⟨first,later⟩ := atCons.1 here
    have other : c ≠ 0 := fun nul => noNul (by simp [nul])
    have next := ih (fun mem => noNul (by simp [mem])) (atStore later (Nat.le_refl _) : At (store mem p [lower c]) _ _)
    simp only [List.cons_append,List.length_cons,List.map_cons] at next ⊢
    rw [nameLoop,if_neg (by omega)]
    simp only [first,if_neg other]
    rw [show ((name ++ 0::rest).length + 1 : Nat) - (1 : Int) = (name ++ 0::rest).length by omega,next,
      ← List.singleton_append (l := name.map lower)]
    congr 2
    · exact storeAppend
    · omega

theorem nameLoopOpen (noNul : 0 ∉ name) (here : At mem p name) :
    ∃ mem', nameLoop name.length mem p name.length = some ⟨mem',p + name.length,0,0⟩ := by
  induction name generalizing mem p with
  | nil => exact ⟨mem,by simp [nameLoop]⟩
  | cons c name ih =>
    obtain ⟨first,later⟩ := atCons.1 here
    have other : c ≠ 0 := fun nul => noNul (by simp [nul])
    obtain ⟨mem',next⟩ := ih (fun mem => noNul (by simp [mem])) (atStore later (Nat.le_refl _) : At (store mem p [lower c]) _ _)
    refine ⟨mem',?_⟩
    simp only [List.length_cons]
    rw [nameLoop,if_neg (by omega)]
    simp only [first,if_neg other]
    rw [show (name.length + 1 : Nat) - (1 : Int) = name.length by omega,next,show p + 1 + name.length = p + (name.length + 1) by omega]

def Digits (digits : List UInt8) : Prop := ∀ d ∈ digits, 48 ≤ d.toNat ∧ d.toNat ≤ 57

theorem digitTurn {d : UInt8} (digit : 48 ≤ d.toNat ∧ d.toNat ≤ 57) : d ≠ 0 ∧ ¬ 9 < d - 48 ∧ (d - 48).toNat = d.toNat - 48 := by
  have value : (d - 48).toNat = d.toNat - 48 := UInt8.toNat_sub_of_le d 48 (UInt8.le_iff_toNat_le.mpr digit.1)
  refine ⟨?_,?_,value⟩
  · rintro rfl
    exact absurd digit.1 (by decide)
  · rw [UInt8.lt_iff_toNat_lt,value]
    show ¬ 9 < d.toNat - 48
    omega

theorem numberLoopDigits (all : Digits digits) (here : At mem p (digits ++ rest)) :
    numberLoop mem (digits ++ rest).length p (digits ++ rest).length n =
      numberLoop mem rest.length (p + digits.length) rest.length (readNumber digits n) := by
  induction digits generalizing p n with
  | nil => rfl
  | cons d digits ih =>
    obtain ⟨first,later⟩ := atCons.1 here
    obtain ⟨other,digit,value⟩ := digitTurn (all d (by simp))
    have next := ih (n := (n*10 + (d.toNat - 48)) % 2^64) (fun e mem => all e (by simp [mem])) later
    simp only [List.cons_append,List.length_cons] at next ⊢
    rw [numberLoop,if_neg (by omega)]
    simp only [first,if_neg other,if_neg digit,value]
    rw [show ((digits ++ rest).length + 1 : Nat) - (1 : Int) = (digits ++ rest).length by omega,next,
      show p + 1 + digits.length = p + (digits.length + 1) by omega]
    rfl

theorem numberLoopEnd : numberLoop mem 0 p 0 n = some (some n,⟨mem,p,0,-1⟩) := by
  rw [numberLoop]
  rfl

set_option maxRecDepth 8000 in
theorem numberLoopStop {d : UInt8} {left : Nat} (first : mem p = d) (other : ¬ (48 ≤ d.toNat ∧ d.toNat ≤ 57)) :
    numberLoop mem (left + 1) p (left + 1 : Nat) n = some (if d = 0 then some n else none,⟨mem,p + 1,left,left⟩) := by
  have counter : ((left + 1 : Nat) : Int) - 1 = left := by omega
  rw [numberLoop,if_neg (by omega)]
  simp only [first,counter]
  by_cases nul : d = 0
  · rw [if_pos nul,if_pos nul]
  · rw [if_neg nul,if_neg nul,if_pos (UrlEscape.eachByte (P := fun d => ¬ (48 ≤ d.toNat ∧ d.toNat ≤ 57) → 9 < d - 48) (by decide) d other)]

theorem strcmpSameName {target : List UInt8} (noNul : 0 ∉ name) (noNul' : 0 ∉ target) (here : At mem p (name ++ [0]))
    {left : Nat} (inside : name.length < left) : strcmpSame mem left p target = some (decide (name = target)) := by
  induction target generalizing name p left with
  | nil =>
    obtain ⟨left,rfl⟩ : ∃ k, left = k + 1 := ⟨left - 1,by omega⟩
    rw [strcmpSame]
    cases name with
    | nil => simp [(atCons.1 here).1]
    | cons c name =>
      have other : c ≠ 0 := fun nul => noNul (by simp [nul])
      simp [(atCons.1 here).1,other]
  | cons d target ih =>
    obtain ⟨left,rfl⟩ : ∃ k, left = k + 1 := ⟨left - 1,by omega⟩
    rw [strcmpSame]
    cases name with
    | nil =>
      have other : (0 : UInt8) ≠ d := fun nul => noNul' (by simp [nul])
      simp [(atCons.1 here).1,other]
    | cons c name =>
      obtain ⟨first,later⟩ := atCons.1 here
      have next := ih (fun mem => noNul (by simp [mem])) (fun mem => noNul' (by simp [mem])) later
        (show name.length < left by simpa using inside)
      rw [first,next]
      by_cases same : c = d
      · simp [same]
      · simp [same]

set_option maxRecDepth 8000 in
theorem lowerNotZero (c : UInt8) : lower c ≠ 0 := UrlEscape.eachByte (P := fun c => lower c ≠ 0) (by decide) c

theorem lowerNoNul (name : List UInt8) : 0 ∉ name.map lower := by
  intro mem
  obtain ⟨c,_,zero⟩ := List.mem_map.mp mem
  exact lowerNotZero c zero

/- What an option with this name and value sets; none for a name that was not asked for. -/
def setting (name : List UInt8) (opdata : Nat) (sock : Socket) : Option Socket :=
  if name.map lower = tsizeName then some { sock with size := opdata }
  else if name.map lower = blksizeName then some { sock with blksize := opdata % 2^32 } else none

theorem setOptionSetting {left opdata : Nat} (here : At mem p (name.map lower ++ [0])) (inside : name.length < left) :
    setOption mem left p opdata sock = some (setting name opdata sock) := by
  have compared {target : List UInt8} (noNul : 0 ∉ target) :=
    strcmpSameName (lowerNoNul name) noNul here (by simpa using inside)
  rw [setOption,compared (by decide),compared (by decide),setting]
  simp only [Option.bind_some,decide_eq_true_eq,Option.map_some]
  split
  · rfl
  · split <;> rfl

theorem numberLoopKeeps {left : Nat} {buffersize : Int} {r : Option Nat × Cursor}
    (ran : numberLoop mem left p buffersize n = some r) : r.2.mem = mem := by
  induction left generalizing p buffersize n with
  | zero =>
    rw [numberLoop] at ran
    split at ran
    · rw [← Option.some.inj ran]
    · cases ran
  | succ left ih =>
    rw [numberLoop] at ran
    split at ran
    · rw [← Option.some.inj ran]
    · simp only at ran
      split at ran
      · rw [← Option.some.inj ran]
      · split at ran
        · rw [← Option.some.inj ran]
        · exact ih ran

theorem nameFirst (some' : name ≠ []) (noNul : 0 ∉ name) (here : At mem p name) : mem p ≠ 0 := by
  cases name with
  | nil => exact absurd rfl some'
  | cons c name =>
    rw [(atCons.1 here).1]
    exact fun nul => noNul (by simp [nul])

theorem optionEnds (sock : Socket) {tail : List UInt8} (some' : name ≠ []) (noNul : 0 ∉ name) (last : tail = [] ∨ tail = [0])
    (here : At mem p (name ++ tail)) (turns : Nat) :
    ∃ c, optionLoop (turns + 1) sock ⟨mem,p,(name ++ tail).length,(name ++ tail).length⟩ = some (.parsed,sock,c) ∧ c.buffersize = 0 := by
  have length : 0 < (name ++ tail).length := List.length_pos_iff.mpr (by simp [some'])
  have first := nameFirst some' noNul (atAppend.1 here).1
  rw [optionLoop,if_neg (show ¬ ((name ++ tail).length : Int) = 0 by omega),if_neg (Nat.ne_of_gt length),if_neg first]
  rcases last with rfl | rfl
  · rw [List.append_nil] at here ⊢
    obtain ⟨mem',named⟩ := nameLoopOpen noNul here
    rw [named,Option.bind_some,if_pos rfl]
    exact ⟨_,rfl,rfl⟩
  · rw [nameLoopEnds noNul here,Option.bind_some,if_neg (by simp),if_pos (by simp)]
    exact ⟨_,rfl,by simp⟩

theorem optionTurn (sock : Socket) {value : List UInt8} (some' : name ≠ []) (noNul : 0 ∉ name) (more : value ≠ [])
    (here : At mem p (name ++ 0::value)) (turns : Nat) : ∃ mem', At mem' (p + name.length + 1) value ∧
      optionLoop (turns + 1) sock ⟨mem,p,(name ++ 0::value).length,(name ++ 0::value).length⟩ =
        (numberLoop mem' value.length (p + name.length + 1) value.length 0).bind fun r =>
          match r.1 with
          | none => some (.errReply,sock,r.2)
          | some opdata => match setting name opdata sock with
              | some sock => optionLoop turns sock r.2
              | none => some (.errReply,sock,r.2) := by
  obtain ⟨name',behind⟩ := atAppend.1 here
  obtain ⟨nul,value'⟩ := atCons.1 behind
  have first := nameFirst some' noNul name'
  have length := List.length_pos_iff.mpr more
  have kept : At mem (p + name.length) [0] := atCons.2 ⟨nul,rfl⟩
  have lowered : At (store mem p (name.map lower)) p (name.map lower ++ [0]) := by
    refine atAppend.2 ⟨atStored,?_⟩
    rw [List.length_map]
    exact atStore kept (by simp)
  refine ⟨store mem p (name.map lower),atStore value' (by simp),?_⟩
  rw [optionLoop,if_neg (by simp; omega),if_neg (by simp),if_neg first,nameLoopEnds noNul here,Option.bind_some,
    if_neg (by simp; omega),if_neg (by simp; omega)]
  have counter : ((value.length : Int) + 1 - 1) = value.length := by omega
  simp only [Nat.add_sub_cancel,counter]
  refine Option.bind_congr fun r ran => ?_
  obtain ⟨opdata,w⟩ := r
  cases opdata with
  | none => rfl
  | some opdata =>
    have unchanged : w.mem = store mem p (name.map lower) := numberLoopKeeps ran
    simp only [unchanged]
    rw [setOptionSetting lowered (by simp),Option.bind_some]

/- What a loop leaves behind: the cursor further on in the same packet, and no byte changed in
front of where it started or behind the packet. -/
structure Within (c c' : Cursor) : Prop where
  forward : c.p ≤ c'.p
  left : c'.p + c'.left = c.p + c.left
  kept : ∀ a, a < c.p ∨ c.p + c.left ≤ a → c'.mem a = c.mem a

theorem withinTrans {c c' d : Cursor} (one : Within c c') (two : Within c' d) : Within c d where
  forward := Nat.le_trans one.forward two.forward
  left := two.left.trans one.left
  kept a outside := by
    have := one.forward
    have := one.left
    rw [two.kept a (by omega),one.kept a outside]

theorem nameLoopWithin {left : Nat} {buffersize : Int} {v : Cursor} (ran : nameLoop left mem p buffersize = some v) :
    Within ⟨mem,p,left,buffersize⟩ v ∧ (v.buffersize ≠ 0 → 0 < v.left) := by
  induction left generalizing mem p buffersize with
  | zero =>
    rw [nameLoop] at ran
    split at ran
    case isTrue nothing =>
      rw [← Option.some.inj ran]
      exact ⟨⟨Nat.le_refl _,rfl,fun _ _ => rfl⟩,fun more => absurd nothing more⟩
    case isFalse => cases ran
  | succ left ih =>
    rw [nameLoop] at ran
    split at ran
    · rw [← Option.some.inj ran]
      exact ⟨⟨Nat.le_refl _,rfl,fun _ _ => rfl⟩,fun _ => Nat.succ_pos _⟩
    · split at ran
      · rw [← Option.some.inj ran]
        exact ⟨⟨Nat.le_refl _,rfl,fun _ _ => rfl⟩,fun _ => Nat.succ_pos _⟩
      · obtain ⟨later,inside⟩ := ih ran
        have : v.p + v.left = p + 1 + left := later.left
        refine ⟨⟨Nat.le_of_succ_le later.forward,by simp only; omega,fun a outside => ?_⟩,inside⟩
        simp only at outside
        rw [later.kept a (by simp only; omega)]
        exact storeOutside (by simp; omega)

theorem numberLoopWithin {left : Nat} {buffersize : Int} {r : Option Nat × Cursor}
    (ran : numberLoop mem left p buffersize n = some r) : Within ⟨mem,p,left,buffersize⟩ r.2 := by
  induction left generalizing p buffersize n with
  | zero =>
    rw [numberLoop] at ran
    split at ran
    · rw [← Option.some.inj ran]
      exact ⟨Nat.le_refl _,rfl,fun _ _ => rfl⟩
    · cases ran
  | succ left ih =>
    have next : Within ⟨mem,p,left + 1,buffersize⟩ ⟨mem,p + 1,left,buffersize - 1⟩ :=
      ⟨Nat.le_succ p,by simp only; omega,fun _ _ => rfl⟩
    rw [numberLoop] at ran
    split at ran
    · rw [← Option.some.inj ran]
      exact ⟨Nat.le_refl _,rfl,fun _ _ => rfl⟩
    · simp only at ran
      split at ran
      · rw [← Option.some.inj ran]
        exact next
      · split at ran
        · rw [← Option.some.inj ran]
          exact next
        · exact withinTrans next (ih ran)

theorem optionLoopWithin {turns : Nat} {c : Cursor} {v : Verdict} {sock' : Socket} {c' : Cursor}
    (ran : optionLoop turns sock c = some (v,sock',c')) : Within c c' := by
  induction turns generalizing sock c with
  | zero => cases ran
  | succ turns ih =>
    have same : Within c c := ⟨Nat.le_refl _,rfl,fun _ _ => rfl⟩
    have stays {u : Verdict} {sock'' : Socket} {d : Cursor} (reaches : Within c d)
        (eq : some (u,sock'',d) = some (v,sock',c')) : Within c c' := by
      have last : d = c' := congrArg (fun r => r.2.2) (Option.some.inj eq)
      rwa [← last]
    rw [optionLoop] at ran
    split at ran
    · exact stays same ran
    · split at ran
      · cases ran
      · split at ran
        · exact stays same ran
        · obtain ⟨w,named,ran⟩ := Option.bind_eq_some_iff.mp ran
          obtain ⟨toName,inside⟩ := nameLoopWithin named
          split at ran
          · exact stays toName ran
          case isFalse more =>
            have := inside more
            have past := withinTrans toName (d := ⟨w.mem,w.p + 1,w.left - 1,w.buffersize - 1⟩)
              ⟨Nat.le_succ _,by simp only; omega,fun _ _ => rfl⟩
            split at ran
            · exact stays past ran
            · obtain ⟨⟨opdata,x⟩,number,ran⟩ := Option.bind_eq_some_iff.mp ran
              have toEnd := withinTrans past (withinTrans ⟨Nat.le_refl _,rfl,fun _ _ => rfl⟩ (numberLoopWithin number))
              cases opdata with
              | none => exact stays toEnd ran
              | some opdata =>
                obtain ⟨set,_,ran⟩ := Option.bind_eq_some_iff.mp ran
                cases set with
                | none => exact stays toEnd ran
                | some sock => exact withinTrans toEnd (ih ran)

theorem partUnique {P : UInt8 → Prop} {a b s t : List UInt8} (one : ∀ c ∈ a, P c) (two : ∀ c ∈ b, P c)
    (stop : ∀ c ∈ s.head?, ¬ P c) (stop' : ∀ c ∈ t.head?, ¬ P c) (eq : a ++ s = b ++ t) : a = b ∧ s = t := by
  induction a generalizing b with
  | nil =>
    cases b with
    | nil => exact ⟨rfl,eq⟩
    | cons c b => exact absurd (two c (by simp)) (stop c (by rw [← List.nil_append s,eq]; rfl))
  | cons c a ih =>
    cases b with
    | nil => exact absurd (one c (by simp)) (stop' c (by rw [← List.nil_append t,← eq]; rfl))
    | cons d b =>
      obtain ⟨first,later⟩ := List.cons.inj eq
      obtain ⟨same,rest⟩ := ih (fun c m => one c (by simp [m])) (fun c m => two c (by simp [m])) later
      exact ⟨by rw [first,same],rest⟩

theorem partExists (P : UInt8 → Prop) (s : List UInt8) :
    ∃ a t, s = a ++ t ∧ (∀ c ∈ a, P c) ∧ ∀ c ∈ t.head?, ¬ P c := by
  induction s with
  | nil => exact ⟨[],[],rfl,by simp,by simp⟩
  | cons c s ih =>
    by_cases here : P c
    · obtain ⟨a,t,rfl,all,stop⟩ := ih
      exact ⟨c::a,t,rfl,by simpa [here] using all,stop⟩
    · exact ⟨[],c::s,rfl,by simp,by simpa using here⟩

def Asked (o : Opt) : Prop := (o.name.map lower = tsizeName ∨ o.isBlksize) ∧ Digits o.value

/- The packet ends in the value of an option: behind options that were asked for there are a name
with its NUL and at least one digit, and no other byte. -/
def Unterminated (options : List UInt8) : Prop :=
  ∃ (offer : List Opt) (name digits : List UInt8), (∀ o ∈ offer, Asked o) ∧ (name ≠ [] ∧ 0 ∉ name) ∧
    (digits ≠ [] ∧ Digits digits) ∧ options = offer.flatMap Opt.encode ++ (name ++ 0::digits)

theorem unterminatedName {options : List UInt8} (cut : Unterminated options) :
    ∃ name value, name ≠ [] ∧ 0 ∉ name ∧ options = name ++ 0::value := by
  obtain ⟨offer,name,digits,asked,⟨some',noNul⟩,_,rfl⟩ := cut
  cases offer with
  | nil => exact ⟨name,digits,some',noNul,rfl⟩
  | cons o offer =>
    have known := (asked o (by simp)).1
    exact ⟨o.name,o.value ++ 0::(offer.flatMap Opt.encode ++ (name ++ 0::digits)),nameNotEmpty known,
      fun nul => nameNotZero known 0 nul rfl,by simp [Opt.encode]⟩

theorem nameSame {name' value value' : List UInt8} (noNul : 0 ∉ name) (noNul' : 0 ∉ name')
    (eq : name ++ 0::value = name' ++ 0::value') : name = name' ∧ value = value' := by
  have free {name : List UInt8} (noNul : 0 ∉ name) : ∀ c ∈ name, c ≠ 0 := fun c mem zero => noNul (zero ▸ mem)
  obtain ⟨same,behind⟩ := partUnique (free noNul) (free noNul') (by simp) (by simp) eq
  exact ⟨same,(List.cons.inj behind).2⟩

theorem offerStep {value tail : List UInt8} {o : Opt} {offer : List Opt} (noNul : 0 ∉ name) (all : Digits digits)
    (stop : ∀ c ∈ tail.head?, ¬ (48 ≤ c.toNat ∧ c.toNat ≤ 57)) (parts : value = digits ++ tail) (asked : Asked o)
    (eq : name ++ 0::value = (o::offer).flatMap Opt.encode ++ rest) :
    o = ⟨name,digits⟩ ∧ tail = 0::(offer.flatMap Opt.encode ++ rest) := by
  have eq' : name ++ 0::value = o.name ++ 0::(o.value ++ 0::(offer.flatMap Opt.encode ++ rest)) := by
    rw [eq]
    simp [Opt.encode]
  obtain ⟨same,behind⟩ := nameSame noNul (fun nul => nameNotZero asked.1 0 nul rfl) eq'
  obtain ⟨same',behind'⟩ := partUnique all asked.2 stop (by simp) (parts.symm.trans behind)
  exact ⟨by rw [same,same'],behind'⟩

theorem unterminatedStep {value tail : List UInt8} (some' : name ≠ []) (noNul : 0 ∉ name) (all : Digits digits)
    (stop : ∀ c ∈ tail.head?, ¬ (48 ≤ c.toNat ∧ c.toNat ≤ 57)) (parts : value = digits ++ tail) :
    Unterminated (name ++ 0::value) ↔ (digits ≠ [] ∧ tail = []) ∨
      ((name.map lower = tsizeName ∨ name.map lower = blksizeName) ∧ ∃ rest, tail = 0::rest ∧ Unterminated rest) := by
  constructor
  · rintro ⟨offer,name',digits',asked,⟨named,free⟩,⟨more,all'⟩,eq⟩
    cases offer with
    | nil =>
      obtain ⟨_,same⟩ := nameSame noNul free eq
      obtain ⟨same',nothing⟩ := partUnique (t := []) all all' stop (by simp) (by rw [← parts,same,List.append_nil])
      exact Or.inl ⟨same'.symm ▸ more,nothing⟩
    | cons o offer =>
      obtain ⟨rfl,behind⟩ := offerStep noNul all stop parts (asked o (by simp)) eq
      exact Or.inr ⟨(asked ⟨name,digits⟩ (by simp)).1,_,behind,offer,name',digits',fun p mem => asked p (by simp [mem]),⟨named,free⟩,⟨more,all'⟩,rfl⟩
  · rintro (⟨more,nothing⟩ | ⟨known,rest,behind,offer,name',digits',asked,named,numeric,eq⟩)
    · exact ⟨[],name,digits,by simp,⟨some',noNul⟩,⟨more,all⟩,by rw [parts,nothing]; simp⟩
    · refine ⟨⟨name,digits⟩::offer,name',digits',?_,named,numeric,?_⟩
      · intro o mem
        rcases List.mem_cons.mp mem with rfl | mem
        · exact ⟨known,all⟩
        · exact asked o mem
      · rw [parts,behind,eq]
        simp [Opt.encode]

theorem settingKnown {opdata : Nat} : setting name opdata sock ≠ none ↔ name.map lower = tsizeName ∨ name.map lower = blksizeName := by
  unfold setting
  split
  · simp [*]
  · split <;> simp [*]

/- What the loop does with the options of a packet: the label it goes to with the socket and the
counter, none for an access behind the packet. -/
inductive Reading : List UInt8 → Socket → Option (Verdict × Socket × Int) → Prop where
  | nothing {sock : Socket} : Reading [] sock (some (.parsed,sock,0))
  | null {sock : Socket} {garbage : List UInt8} : Reading (0::garbage) sock (some (.done,sock,garbage.length + 1))
  | noValue {sock : Socket} {name tail : List UInt8} (some' : name ≠ []) (noNul : 0 ∉ name) (last : tail = [] ∨ tail = [0]) :
      Reading (name ++ tail) sock (some (.parsed,sock,0))
  | notDigit {sock : Socket} {name digits rest : List UInt8} {d : UInt8} (some' : name ≠ []) (noNul : 0 ∉ name) (all : Digits digits)
      (other : ¬ (48 ≤ d.toNat ∧ d.toNat ≤ 57)) (notNul : d ≠ 0) :
      Reading (name ++ 0::(digits ++ d::rest)) sock (some (.errReply,sock,rest.length))
  | unknown {sock : Socket} {name digits rest : List UInt8} (some' : name ≠ []) (noNul : 0 ∉ name) (all : Digits digits)
      (refused : setting name (readNumber digits 0) sock = none) :
      Reading (name ++ 0::(digits ++ 0::rest)) sock (some (.errReply,sock,rest.length))
  | known {sock sock' : Socket} {name digits rest : List UInt8} {r : Option (Verdict × Socket × Int)} (some' : name ≠ [])
      (noNul : 0 ∉ name) (all : Digits digits) (set : setting name (readNumber digits 0) sock = some sock')
      (later : Reading rest sock' r) : Reading (name ++ 0::(digits ++ 0::rest)) sock r
  | unknownCut {sock : Socket} {name digits : List UInt8} (some' : name ≠ []) (noNul : 0 ∉ name) (all : Digits digits)
      (more : digits ≠ []) (refused : setting name (readNumber digits 0) sock = none) :
      Reading (name ++ 0::digits) sock (some (.errReply,sock,-1))
  | knownCut {sock sock' : Socket} {name digits : List UInt8} (some' : name ≠ []) (noNul : 0 ∉ name) (all : Digits digits)
      (more : digits ≠ []) (set : setting name (readNumber digits 0) sock = some sock') : Reading (name ++ 0::digits) sock none

/- By the first option of the packet; what follows a complete one is told by the induction. -/
theorem optionLoopReading (sock : Socket) {options : List UInt8} {turns : Nat} (enough : options.length < turns) (here : At mem p options) :
    Reading options sock ((optionLoop turns sock ⟨mem,p,options.length,options.length⟩).map fun r => (r.1,r.2.1,r.2.2.buffersize)) := by
  induction turns generalizing options mem p sock with
  | zero => omega
  | succ turns ih =>
    obtain ⟨name,tail,parts,free,stop⟩ := partExists (fun c => c ≠ 0) options
    have noNul : 0 ∉ name := fun nul => free 0 nul rfl
    have stop' : ∀ c ∈ tail.head?, c = 0 := fun c mem => Decidable.not_not.mp (stop c mem)
    subst parts
    by_cases some' : name = []
    · -- An empty packet, or a null option.
      subst some'
      cases tail with
      | nil =>
        rw [optionLoop,if_pos (by simp)]
        exact .nothing
      | cons c value =>
        obtain rfl := stop' c rfl
        rw [optionLoop,if_neg (by simp; omega),if_neg (by simp),if_pos (atCons.1 here).1]
        exact .null
    · cases tail with
      | nil =>
        obtain ⟨c,ran,counted⟩ := optionEnds sock some' noNul (Or.inl rfl) here turns
        rw [ran,Option.map_some,counted]
        exact .noValue some' noNul (Or.inl rfl)
      | cons c value =>
        obtain rfl := stop' c rfl
        obtain ⟨digits,behind,parts,all,stopped⟩ := partExists (fun d => 48 ≤ d.toNat ∧ d.toNat ≤ 57) value
        by_cases more : value = []
        · -- No option data.
          subst more
          obtain ⟨c,ran,counted⟩ := optionEnds sock some' noNul (Or.inr rfl) here turns
          rw [ran,Option.map_some,counted]
          exact .noValue some' noNul (Or.inr rfl)
        · obtain ⟨mem',value',turn⟩ := optionTurn sock some' noNul more here turns
          subst parts
          rw [turn,numberLoopDigits all value']
          cases behind with
          | nil =>
            -- The counter is taken below zero.
            rw [List.append_nil] at more ⊢
            rw [List.length_nil,Int.natCast_zero,numberLoopEnd,Option.bind_some]
            simp only
            cases set : setting name (readNumber digits 0) sock with
            | none => exact .unknownCut some' noNul all more set
            | some sock' =>
              have behind : optionLoop turns sock' ⟨mem',p + name.length + 1 + digits.length,0,-1⟩ = none := by
                cases turns <;> rfl
              simp only [behind,Option.map_none]
              exact .knownCut some' noNul all more set
          | cons d behind =>
            have first := (atCons.1 (atAppend.1 value').2).1
            rw [List.length_cons,numberLoopStop first (stopped d rfl),Option.bind_some]
            by_cases nul : d = 0
            · subst nul
              have rest := (atCons.1 (atAppend.1 value').2).2
              have fewer : behind.length < turns := by
                simp only [List.length_append,List.length_cons] at enough
                omega
              simp only [if_true]
              cases set : setting name (readNumber digits 0) sock with
              | none => exact .unknown some' noNul all set
              | some sock' => exact .known some' noNul all set (ih _ fewer rest)
            · simp only [if_neg nul]
              exact .notDigit some' noNul all (stopped d rfl) nul

theorem readingSafe {options : List UInt8} {r : Option (Verdict × Socket × Int)} (reading : Reading options sock r) :
    (∃ v sock' counter, r = some (v,sock',counter) ∧ 0 ≤ counter) ↔ ¬ Unterminated options := by
  induction reading with
  | nothing => exact iff_of_true ⟨_,_,_,rfl,Int.le_refl _⟩ fun cut => by simpa using unterminatedName cut
  | null =>
    refine iff_of_true ⟨_,_,_,rfl,by omega⟩ fun cut => ?_
    obtain ⟨name,value,more,noNul,eq⟩ := unterminatedName cut
    exact more (partUnique (P := fun c => c ≠ 0) (a := []) (by simp) (fun c mem nul => noNul (nul ▸ mem)) (by simp) (by simp) eq).1.symm
  | @noValue name _ tail some' noNul last =>
    refine iff_of_true ⟨_,_,_,rfl,Int.le_refl _⟩ fun cut => ?_
    rcases last with rfl | rfl
    · obtain ⟨_,_,_,_,eq⟩ := unterminatedName cut
      rw [List.append_nil] at eq
      exact noNul (by rw [eq]; simp)
    · simpa using (unterminatedStep some' noNul (by simp [Digits]) (by simp) (List.append_nil []).symm).mp cut
  | notDigit some' noNul all other notNul =>
    refine iff_of_true ⟨_,_,_,rfl,Int.natCast_nonneg _⟩ ?_
    rw [unterminatedStep some' noNul all (by simpa using other) rfl]
    simp [notNul]
  | unknown some' noNul all refused =>
    refine iff_of_true ⟨_,_,_,rfl,Int.natCast_nonneg _⟩ ?_
    rw [unterminatedStep some' noNul all (by simp) rfl]
    have not' := mt settingKnown.2 (not_not.mpr refused)
    simp [not']
  | known some' noNul all set later ih =>
    have asked := settingKnown.1 (by rw [set]; exact Option.some_ne_none _)
    rw [ih,unterminatedStep some' noNul all (by simp) rfl]
    simp [asked]
  | unknownCut some' noNul all more refused =>
    refine iff_of_false (by simp) ?_
    rw [unterminatedStep some' noNul all (by simp) (List.append_nil _).symm]
    simp [more]
  | knownCut some' noNul all more set =>
    refine iff_of_false (by simp) ?_
    rw [unterminatedStep some' noNul all (by simp) (List.append_nil _).symm]
    simp [more]

theorem parseOackReading (mem : Nat → UInt8) (n : Nat) (sock : Socket) :
    Reading (read mem 2 n) sock ((parseOack mem (2 + n) sock).map fun r => (r.1,r.2.1,r.2.2.buffersize)) := by
  have here : At mem 2 (read mem 2 n) := by rw [At,readLength]
  have reading := optionLoopReading sock (by rw [readLength]; exact Nat.lt_succ_self n : (read mem 2 n).length < n + 1) here
  have counter : ((2 + n : Nat) : Int) - 2 = n := by omega
  rw [readLength] at reading
  rwa [parseOack,Nat.add_sub_cancel_left,counter]

theorem parseOackSafe (mem : Nat → UInt8) (n : Nat) (sock : Socket) :
    (∃ v sock' c, parseOack mem (2 + n) sock = some (v,sock',c) ∧ 0 ≤ c.buffersize ∧ c.p ≤ 2 + n ∧
      ∀ a, a < 2 ∨ 2 + n ≤ a → c.mem a = mem a) ↔ ¬ Unterminated (read mem 2 n) := by
  have reading := parseOackReading mem n sock
  rw [← readingSafe reading]
  constructor
  · rintro ⟨v,sock',c,ran,counted,_⟩
    exact ⟨v,sock',c.buffersize,by rw [ran]; rfl,counted⟩
  · rintro ⟨v,sock',counter,eq,counted⟩
    obtain ⟨⟨v,sock',c⟩,ran,same⟩ := Option.map_eq_some_iff.mp eq
    obtain ⟨_,_,rfl⟩ : _ ∧ _ ∧ c.buffersize = counter := by simpa using same
    have within := optionLoopWithin ran
    have left : c.p + c.left = 2 + (2 + n - 2) := within.left
    exact ⟨v,sock',c,ran,counted,by omega,fun a outside => within.kept a (by simp only; omega)⟩

/- An OACK with the name tsize and the digits of its value, without the NUL behind them. -/
theorem digitsToTheEnd : ¬ ∃ v sock' c, parseOack (store (fun _ => 0) 0 (word opOack ++ (tsizeName ++ [0,49,48,48]))) (2 + 9)
      ⟨0,512,0,0,0,false,none,0⟩ = some (v,sock',c) ∧ 0 ≤ c.buffersize ∧ c.p ≤ 2 + 9 ∧
    ∀ a, a < 2 ∨ 2 + 9 ≤ a → c.mem a = store (fun _ => 0) 0 (word opOack ++ (tsizeName ++ [0,49,48,48])) a := by
  rintro ⟨v,sock',c,ran,_⟩
  have behind : (parseOack (store (fun _ => 0) 0 (word opOack ++ (tsizeName ++ [0,49,48,48]))) (2 + 9)
    ⟨0,512,0,0,0,false,none,0⟩).isNone := by decide
  rw [ran] at behind
  cases behind

end

set_option maxRecDepth 8000 in
theorem parseNumberOther {digits : List UInt8} {d : UInt8} (all : Digits digits) (rest : List UInt8)
    (other : ¬ (48 ≤ d.toNat ∧ d.toNat ≤ 57)) (notNul : d ≠ 0) (n : Nat) :
    parseNumber (digits ++ d::rest) n = .notDigit := by
  induction digits generalizing n with
  | nil =>
    have large : 9 < d - 48 := UrlEscape.eachByte (P := fun d => ¬ (48 ≤ d.toNat ∧ d.toNat ≤ 57) → 9 < d - 48) (by decide) d other
    rw [List.nil_append,parseNumber,if_neg notNul,if_pos large]
  | cons e digits ih =>
    obtain ⟨notZero,digit,_⟩ := digitTurn (all e (by simp))
    rw [List.cons_append,parseNumber,if_neg notZero,if_neg digit,ih fun f mem => all f (by simp [mem])]

theorem parseNumberCut {digits : List UInt8} (all : Digits digits) (n : Nat) : parseNumber digits n = .overrun := by
  induction digits generalizing n with
  | nil => rfl
  | cons e digits ih =>
    obtain ⟨notZero,digit,_⟩ := digitTurn (all e (by simp))
    rw [parseNumber,if_neg notZero,if_neg digit,ih fun f mem => all f (by simp [mem])]

theorem parseOption {name value : List UInt8} {turns : Nat} (sock : Socket) (some' : name ≠ []) (noNul : 0 ∉ name)
    (more : value ≠ []) : parseOptions (turns + 1) (name ++ 0::value) sock =
      match parseNumber value 0 with
      | .overrun => none
      | .notDigit => some (.refused sock)
      | .value n rest => match setting name n sock with
          | some sock => parseOptions turns rest sock
          | none => some (.refused sock) := by
  obtain ⟨c,cs,rfl⟩ := List.exists_cons_of_ne_nil some'
  obtain ⟨v,vs,rfl⟩ := List.exists_cons_of_ne_nil more
  obtain ⟨taken,dropped⟩ := takeName (v::vs) fun d mem nul => noNul (nul ▸ mem)
  have first : c ≠ 0 := fun nul => noNul (by simp [nul])
  rw [List.cons_append] at taken dropped ⊢
  rw [parseOptions]
  simp only [if_neg first,taken,dropped]
  cases parseNumber (v::vs) 0 with
  | overrun => rfl
  | notDigit => rfl
  | value n rest =>
    simp only [setting]
    split_ifs <;> rfl

def Parsed.said : Parsed → Verdict × Socket
  | .accepted sock => (.parsed,sock)
  | .discarded sock => (.done,sock)
  | .refused sock => (.errReply,sock)

theorem readingOptions {options : List UInt8} {sock : Socket} {r : Option (Verdict × Socket × Int)}
    (reading : Reading options sock r) {turns : Nat} (enough : options.length ≤ turns) {parsed : Parsed}
    (ran : parseOptions turns options sock = some parsed) : r.map (fun r => (r.1,r.2.1)) = some (Parsed.said parsed) := by
  induction reading generalizing turns with
  | nothing => cases turns <;> cases ran <;> rfl
  | null =>
    obtain ⟨turns,rfl⟩ : ∃ k, turns = k + 1 := ⟨turns - 1,by simp at enough; omega⟩
    rw [parseOptions,if_pos rfl] at ran
    cases ran
    rfl
  | @noValue sock name tail some' noNul last =>
    obtain ⟨turns,rfl⟩ : ∃ k, turns = k + 1 :=
      ⟨turns - 1,by have := List.length_pos_iff.mpr some'; simp only [List.length_append] at enough; omega⟩
    obtain ⟨c,cs,rfl⟩ := List.exists_cons_of_ne_nil some'
    have first : c ≠ 0 := fun nul => noNul (by simp [nul])
    have free : ∀ d ∈ c::cs, d ≠ 0 := fun d mem nul => noNul (nul ▸ mem)
    rw [List.cons_append,parseOptions] at ran
    simp only [if_neg first] at ran
    rw [← List.cons_append] at ran
    rcases last with rfl | rfl
    · rw [List.append_nil,List.dropWhile_eq_nil_iff.mpr (by simpa using free)] at ran
      cases ran
      rfl
    · rw [(takeName [] free).2] at ran
      cases ran
      rfl
  | notDigit some' noNul all other notNul =>
    obtain ⟨turns,rfl⟩ : ∃ k, turns = k + 1 := ⟨turns - 1,by simp at enough; omega⟩
    rw [parseOption _ some' noNul (by simp),parseNumberOther all _ other notNul] at ran
    cases ran
    rfl
  | unknown some' noNul all refused =>
    obtain ⟨turns,rfl⟩ : ∃ k, turns = k + 1 := ⟨turns - 1,by simp at enough; omega⟩
    rw [parseOption _ some' noNul (by simp),parseNumberDigits _ all] at ran
    simp only [refused] at ran
    cases ran
    rfl
  | known some' noNul all set later ih =>
    obtain ⟨turns,rfl⟩ : ∃ k, turns = k + 1 := ⟨turns - 1,by simp at enough; omega⟩
    rw [parseOption _ some' noNul (by simp),parseNumberDigits _ all] at ran
    simp only [set] at ran
    exact ih (by simp only [List.length_append,List.length_cons] at enough; omega) ran
  | unknownCut some' noNul all more refused =>
    obtain ⟨turns,rfl⟩ : ∃ k, turns = k + 1 := ⟨turns - 1,by simp at enough; omega⟩
    rw [parseOption _ some' noNul more,parseNumberCut all] at ran
    cases ran
  | knownCut some' noNul all more set =>
    obtain ⟨turns,rfl⟩ : ∃ k, turns = k + 1 := ⟨turns - 1,by simp at enough; omega⟩
    rw [parseOption _ some' noNul more,parseNumberCut all] at ran
    cases ran

end Syslinux.TftpOptions
