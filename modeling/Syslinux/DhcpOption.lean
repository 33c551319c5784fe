import Syslinux.Machine

/-! parse_dhcp_options of core/fs/pxe/dhcp_option.c over handlers that are given. The memory that
option points into is pkt, and a pointer is an offset in it; a handler that has no defined result
is none. -/
namespace Syslinux.DhcpOption

abbrev Bytes := List UInt8

/- The opt_num of the dhcp_opts. -/
def dhcpOpts : List Nat := [1,3,6,15,43,52,54,61,67,97,209,210,211]

def vendorEncaps : Nat := 43

/- Called with opt_num, data and opt_len. -/
abbrev Handler (σ : Type) := Nat → Nat → Nat → σ → Option σ

section
variable {σ : Type}

def parseLoop (handler : Handler σ) (pkt : Bytes) (optFilter : Nat) : Nat → Nat → Int → σ → Option σ
  | 0,_,_,_ => none
  | turns+1,p,size,s =>
      if size < 2 then some s
      else pkt[p]?.bind fun optNum =>
        if optNum = 0 then parseLoop handler pkt optFilter turns (p + 1) (size - 1) s
        else if optNum = 0xff then some s
        else pkt[p + 1]?.bind fun optLen =>
          let size := size - 1 - (optLen.toNat + 1)
          if size < 0 then some s
          else (if optFilter ≤ optNum.toNat ∧ optNum.toNat ∈ dhcpOpts then handler optNum.toNat (p + 2) optLen.toNat s
            else some s).bind (parseLoop handler pkt optFilter turns (p + 2 + optLen.toNat) size)

/- vendor_encaps comes back to the parser; so many calls of it may be open at a time. -/
def parseDhcpOptions (handler : Handler σ) (pkt : Bytes) : Nat → Nat → Int → Nat → σ → Option σ
  | 0,_,_,_,_ => none
  | depth+1,option,size,optFilter,s =>
      parseLoop (fun optNum data optLen s => (handler optNum data optLen s).bind fun s =>
        if optNum = vendorEncaps then parseDhcpOptions handler pkt depth data optLen 208 s else some s)
        pkt optFilter (size.toNat + 1) option size s

end

inductive Item where
  | pad
  | option (num : UInt8) (data : Bytes)
  deriving DecidableEq, Repr

def Item.encode : Item → Bytes
  | .pad => [0]
  | .option num data => num::UInt8.ofNat data.length::data

def Item.WellFormed : Item → Prop
  | .pad => True
  | .option num data => num ≠ 0 ∧ num ≠ 0xff ∧ data.length ≤ 255

def encode (items : List Item) : Bytes := items.flatMap Item.encode

structure Longest (bytes : Bytes) (items : List Item) : Prop where
  wellFormed : ∀ i ∈ items, i.WellFormed
  prefix' : ∃ rest, bytes = encode items ++ rest ∧ ∀ i : Item, i.WellFormed → ¬ i.encode <+: rest

def items : Bytes → List Item
  | [] => []
  | [num] => if num = 0 then [.pad] else []
  | num::len::rest =>
      if num = 0 then .pad::items (len::rest)
      else if num = 0xff then []
      else if len.toNat ≤ rest.length then .option num (rest.take len.toNat)::items (rest.drop len.toNat) else []
termination_by bytes => bytes.length
decreasing_by all_goals (simp; try omega)

/- A call: opt_num, data, and the bytes there. -/
structure Call where
  num : Nat
  data : Nat
  bytes : Bytes
  deriving DecidableEq, Repr

def calledAt (optFilter : Nat) : Nat → List Item → List Call
  | _,[] => []
  | p,.pad::items => calledAt optFilter (p + 1) items
  | p,.option num data::items =>
      (if optFilter ≤ num.toNat ∧ num.toNat ∈ dhcpOpts then [⟨num.toNat,p + 2,data⟩] else []) ++
        calledAt optFilter (p + 2 + data.length) items

/- The calls of the handlers: behind a call of vendor_encaps stand those for its own options. -/
def calls (optFilter p : Nat) (bytes : Bytes) : List Call :=
  (calledAt optFilter p (items bytes)).flatMap fun c =>
    c::if c.num = vendorEncaps then calledAt 208 c.data (items c.bytes) else []

def runCalls {σ : Type} (handler : Handler σ) (calls : List Call) (s : σ) : Option σ :=
  calls.foldlM (fun s c => handler c.num c.data c.bytes.length s) s

section
variable {items' more : List Item} {bytes rest pkt : Bytes} {i j : Item}

theorem lengthByte {data : Bytes} (short : data.length ≤ 255) : (UInt8.ofNat data.length).toNat = data.length := by
  rw [UInt8.toNat_ofNat']
  omega

theorem encodeSame (ok : i.WellFormed) (ok' : j.WellFormed) {a b : Bytes} (same : i.encode ++ a = j.encode ++ b) : i = j := by
  cases i with
  | pad =>
    cases j with
    | pad => rfl
    | option num data =>
      injection same with head
      exact absurd head.symm ok'.1
  | option num data =>
    cases j with
    | pad =>
      injection same with head
      exact absurd head ok.1
    | option num' data' =>
      injection same with head tail
      injection tail with len tail
      have eq : data.length = data'.length := by rw [← lengthByte ok.2.2,len,lengthByte ok'.2.2]
      rw [head,(List.append_inj tail eq).1]

theorem longestCons (ok : i.WellFormed) (longest : Longest rest more) : Longest (i.encode ++ rest) (i::more) := by
  obtain ⟨all,last,rfl,stuck⟩ := longest
  exact ⟨by simpa using ⟨ok,all⟩,last,by simp [encode],stuck⟩

theorem longestStuck (stuck : ∀ i : Item, i.WellFormed → ¬ i.encode <+: bytes) : Longest bytes [] :=
  ⟨by simp,bytes,by simp [encode],stuck⟩

theorem beginsOption {num : UInt8} (other : num ≠ 0) (ok : i.WellFormed) (here : i.encode <+: num::rest) :
    ∃ data, i = .option num data ∧ num ≠ 0xff ∧ UInt8.ofNat data.length::data <+: rest := by
  cases i with
  | pad => exact absurd (List.cons_prefix_cons.mp here).1.symm other
  | option n data =>
    obtain ⟨rfl,later⟩ := List.cons_prefix_cons.mp here
    exact ⟨data,rfl,ok.2.1,later⟩

theorem longestItems (bytes : Bytes) : Longest bytes (items bytes) := by
  induction bytes using items.induct with
  | case1 =>
    rw [items]
    exact longestStuck fun i _ => by cases i <;> simp [Item.encode]
  | case2 =>
    rw [items,if_pos rfl]
    exact longestCons (i := .pad) trivial (longestStuck fun i _ => by cases i <;> simp [Item.encode])
  | case3 num other =>
    rw [items,if_neg other]
    refine longestStuck fun i ok here => ?_
    obtain ⟨data,_,_,later⟩ := beginsOption other ok here
    simp at later
  | case4 len rest ih =>
    rw [items,if_pos rfl]
    exact longestCons (i := .pad) trivial ih
  | case5 len rest other =>
    rw [items,if_neg other,if_pos rfl]
    refine longestStuck fun i ok here => ?_
    obtain ⟨_,_,noEnd,_⟩ := beginsOption other ok here
    exact noEnd rfl
  | case6 num len rest other noEnd fits ih =>
    have short := len.toNat_lt
    have length : (rest.take len.toNat).length = len.toNat := by simp [fits]
    have cut := longestCons (i := .option num (rest.take len.toNat)) ⟨other,noEnd,by omega⟩ ih
    rw [items,if_neg other,if_neg noEnd,if_pos fits]
    simpa [Item.encode,length] using cut
  | case7 num len rest other noEnd long =>
    rw [items,if_neg other,if_neg noEnd,if_neg long]
    refine longestStuck fun i ok here => ?_
    obtain ⟨data,rfl,_,later⟩ := beginsOption other ok here
    obtain ⟨same,inside⟩ := List.cons_prefix_cons.mp later
    have := inside.length_le
    rw [← same,lengthByte ok.2.2] at long
    exact long this

theorem longestUnique (longest : Longest bytes items') (longest' : Longest bytes more) : items' = more := by
  induction items' generalizing bytes more with
  | nil =>
    obtain ⟨_,rest,eq,stuck⟩ := longest
    obtain ⟨ok,rest',same,_⟩ := longest'
    cases more with
    | nil => rfl
    | cons j more =>
      refine absurd ?_ (stuck j (ok j (by simp)))
      rw [show rest = j.encode ++ (encode more ++ rest') by simpa [encode] using eq.symm.trans same]
      exact List.prefix_append _ _
  | cons i items' ih =>
    obtain ⟨ok,rest,rfl,stuck⟩ := longest
    obtain ⟨ok',rest',same,stuck'⟩ := longest'
    cases more with
    | nil =>
      refine absurd ?_ (stuck' i (ok i (by simp)))
      rw [show rest' = i.encode ++ (encode items' ++ rest) by simpa [encode] using same.symm]
      exact List.prefix_append _ _
    | cons j more =>
      have same : i.encode ++ (encode items' ++ rest) = j.encode ++ (encode more ++ rest') := by simpa [encode] using same
      cases encodeSame (ok i (by simp)) (ok' j (by simp)) same
      have tail := List.append_cancel_left same
      rw [ih ⟨fun k mem => ok k (by simp [mem]),rest,rfl,stuck⟩ ⟨fun k mem => ok' k (by simp [mem]),rest',tail,stuck'⟩]

end

section
variable {σ : Type} {handler : Handler σ} {pkt bytes : Bytes} {optFilter p : Nat}

def At (pkt : Bytes) (p : Nat) (bytes : Bytes) : Prop := bytes <+: pkt.drop p

theorem atCons {c : UInt8} : At pkt p (c::bytes) ↔ pkt[p]? = some c ∧ At pkt (p + 1) bytes := by
  unfold At
  cases here : pkt.drop p with
  | nil =>
    have := List.drop_eq_nil_iff.mp here
    simp [List.getElem?_eq_none this]
  | cons d later =>
    rw [List.cons_prefix_cons,← List.head?_drop,here,← List.drop_drop,here]
    simp [eq_comm]

theorem atDrop {n : Nat} (here : At pkt p bytes) : At pkt (p + n) (bytes.drop n) := by
  obtain ⟨t,eq⟩ := here
  unfold At
  rw [← List.drop_drop,← eq,List.drop_append]
  exact List.prefix_append _ _

theorem atTake {n : Nat} (here : At pkt p bytes) : At pkt p (bytes.take n) := (List.take_prefix n bytes).trans here

theorem runCallsAppend (first later : List Call) (s : σ) :
    runCalls handler (first ++ later) s = (runCalls handler first s).bind (runCalls handler later) := List.foldlM_append

theorem runOne (c : Call) (s : σ) : runCalls handler [c] s = handler c.num c.data c.bytes.length s := by
  simp [runCalls]

theorem parseLoopOption {num len : UInt8} {rest : Bytes} (here : At pkt p (num::len::rest)) (other : num ≠ 0) (noEnd : num ≠ 0xff)
    (turns : Nat) (s : σ) : parseLoop handler pkt optFilter (turns + 1) p (num::len::rest).length s =
      if rest.length < len.toNat then some s
      else (if optFilter ≤ num.toNat ∧ num.toNat ∈ dhcpOpts then handler num.toNat (p + 2) len.toNat s else some s).bind
        (parseLoop handler pkt optFilter turns (p + 2 + len.toNat) (rest.drop len.toNat).length) := by
  obtain ⟨first,later⟩ := atCons.1 here
  have second := (atCons.1 later).1
  rw [parseLoop,if_neg (by simp),first,Option.bind_some,if_neg other,if_neg noEnd,second,Option.bind_some]
  by_cases long : rest.length < len.toNat
  · rw [if_pos (by simp; omega),if_pos long]
  · rw [if_neg (by simp; omega),if_neg long]
    congr 2
    simp
    omega

theorem parseLoopItems (here : At pkt p bytes) {turns : Nat} (enough : bytes.length < turns) (s : σ) :
    parseLoop handler pkt optFilter turns p bytes.length s = runCalls handler (calledAt optFilter p (items bytes)) s := by
  obtain ⟨turns,rfl⟩ : ∃ k, turns = k + 1 := ⟨turns - 1,by omega⟩
  induction bytes using items.induct generalizing p turns s with
  | case1 => rw [items]; rfl
  | case2 => rw [items]; rfl
  | case3 num other => rw [items,if_neg other]; rfl
  | case4 len rest ih =>
    obtain ⟨first,later⟩ := atCons.1 here
    obtain ⟨turns,rfl⟩ : ∃ k, turns = k + 1 := ⟨turns - 1,by simp at enough; omega⟩
    rw [items,if_pos rfl,calledAt,parseLoop,if_neg (by simp),first,Option.bind_some,if_pos rfl]
    have next := ih later s turns (by simpa using enough)
    simpa using next
  | case5 len rest other =>
    rw [items,if_neg other,if_pos rfl,parseLoop,if_neg (by simp),(atCons.1 here).1,Option.bind_some,if_neg other,if_pos rfl]
    rfl
  | case6 num len rest other noEnd fits ih =>
    obtain ⟨turns,rfl⟩ : ∃ k, turns = k + 1 := ⟨turns - 1,by simp at enough; omega⟩
    have later : At pkt (p + 2 + len.toNat) (rest.drop len.toNat) := by
      have := atDrop (n := len.toNat + 2) here
      rw [show p + 2 + len.toNat = p + (len.toNat + 2) by omega]
      simpa using this
    have length : (rest.take len.toNat).length = len.toNat := by simp [fits]
    rw [parseLoopOption here other noEnd,if_neg (by omega),items,if_neg other,if_neg noEnd,if_pos fits,calledAt,length,runCallsAppend]
    have next := fun s => ih later s turns (by simp at enough ⊢; omega)
    split
    · rw [runOne,length]
      exact Option.bind_congr fun s _ => next s
    · exact next s
  | case7 num len rest other noEnd long =>
    rw [parseLoopOption here other noEnd,if_pos (by omega),items,if_neg other,if_neg noEnd,if_neg long]
    rfl

theorem calledAtSplit {items' : List Item} {c : Call} : c ∈ calledAt optFilter p items' ↔
    ∃ first num data later, items' = first ++ .option num data::later ∧ optFilter ≤ num.toNat ∧ num.toNat ∈ dhcpOpts ∧
      c = ⟨num.toNat,p + (encode first).length + 2,data⟩ := by
  induction items' generalizing p with
  | nil => simp [calledAt]
  | cons i more ih =>
    have shift : ∀ first : List Item, p + i.encode.length + (encode first).length = p + (encode (i::first)).length := fun first => by
      simp [encode,Nat.add_assoc]
    have rest : c ∈ calledAt optFilter (p + i.encode.length) more ↔ ∃ first num data later,
        i::more = i::first ++ .option num data::later ∧ optFilter ≤ num.toNat ∧ num.toNat ∈ dhcpOpts ∧
          c = ⟨num.toNat,p + (encode (i::first)).length + 2,data⟩ := by
      simp [ih,shift]
    constructor
    · intro mem
      cases i with
      | pad =>
        obtain ⟨first,num,data,later,all⟩ := rest.1 mem
        exact ⟨.pad::first,num,data,later,all⟩
      | option num data =>
        rcases List.mem_append.mp mem with mem | mem
        · split at mem
          next called => exact ⟨[],num,data,more,rfl,called.1,called.2,List.mem_singleton.mp mem⟩
          next => cases mem
        · rw [show p + 2 + data.length = p + (Item.option num data).encode.length by simp [Item.encode]; omega] at mem
          obtain ⟨first,num',data',later,all⟩ := rest.1 mem
          exact ⟨.option num data::first,num',data',later,all⟩
    · rintro ⟨first,num,data,later,eq,above,known,rfl⟩
      cases first with
      | nil =>
        injection eq with head tail
        subst head
        exact List.mem_append_left _ (by simp [above,known,encode])
      | cons j first =>
        injection eq with head tail
        subst head
        have mem := rest.2 ⟨first,num,data,later,by rw [tail]; rfl,above,known,rfl⟩
        cases i with
        | pad => exact mem
        | option num' data' =>
          refine List.mem_append_right _ ?_
          rwa [show p + 2 + data'.length = p + (Item.option num' data').encode.length by simp [Item.encode]; omega]

theorem calledAtBytes {c : Call} (here : At pkt p bytes) (mem : c ∈ calledAt optFilter p (items bytes)) :
    At pkt c.data c.bytes ∧ optFilter ≤ c.num ∧ c.bytes.length ≤ 255 ∧ c.data + c.bytes.length ≤ p + bytes.length := by
  obtain ⟨first,num,data,later,eq,above,_,rfl⟩ := calledAtSplit.1 mem
  obtain ⟨ok,rest,whole,_⟩ := longestItems bytes
  have split : bytes = encode first ++ (num::UInt8.ofNat data.length::data ++ (encode later ++ rest)) := by
    rw [whole,eq]
    simp [encode,Item.encode]
  have wellFormed := ok (.option num data) (by simp [eq])
  have after := atDrop (n := (encode first).length + 2) here
  rw [split,← List.drop_drop,List.drop_left,← Nat.add_assoc] at after
  refine ⟨?_,above,wellFormed.2.2,?_⟩
  · simpa [List.take_append] using atTake (n := data.length) after
  · rw [split]
    simp
    omega

theorem callsBytes {c : Call} (here : At pkt p bytes) (mem : c ∈ calls optFilter p bytes) :
    At pkt c.data c.bytes ∧ c.bytes.length ≤ 255 ∧ c.data + c.bytes.length ≤ p + bytes.length := by
  obtain ⟨d,mem,part⟩ := List.mem_flatMap.mp mem
  obtain ⟨at',_,short,inside⟩ := calledAtBytes here mem
  rcases List.mem_cons.mp part with rfl | nested
  · exact ⟨at',short,inside⟩
  · split at nested
    · obtain ⟨at₁,_,short₁,inside₁⟩ := calledAtBytes at' nested
      exact ⟨at₁,short₁,by omega⟩
    · cases nested

theorem runFlat {handler' : Handler σ} {more : Call → List Call} {calls : List Call}
    (each : ∀ c ∈ calls, ∀ s, handler' c.num c.data c.bytes.length s = runCalls handler (c::more c) s) (s : σ) :
    runCalls handler' calls s = runCalls handler (calls.flatMap fun c => c::more c) s := by
  induction calls generalizing s with
  | nil => rfl
  | cons c calls ih =>
    rw [List.flatMap_cons,runCallsAppend,← each c (by simp) s]
    exact Option.bind_congr fun s _ => ih (fun d mem => each d (by simp [mem])) s

theorem parseOnce (depth p : Nat) (size : Int) (s : σ) : parseDhcpOptions handler pkt (depth + 1) p size optFilter s =
    parseLoop (fun optNum data optLen s => (handler optNum data optLen s).bind fun s =>
      if optNum = vendorEncaps then parseDhcpOptions handler pkt depth data optLen 208 s else some s)
      pkt optFilter (size.toNat + 1) p size s := rfl

theorem nestedCalls (here : At pkt p bytes) (depth : Nat) (s : σ) :
    parseDhcpOptions handler pkt (depth + 1) p bytes.length 208 s = runCalls handler (calledAt 208 p (items bytes)) s := by
  rw [parseOnce,Int.toNat_natCast,parseLoopItems here (Nat.lt_succ_self _),
    @runFlat σ handler _ (fun _ => []) _ ?_ s,List.flatMap_singleton']
  intro c mem s
  have above := (calledAtBytes here mem).2.1
  have other : c.num ≠ vendorEncaps := by unfold vendorEncaps; omega
  simp [runOne,other]

theorem parseCalls (here : At pkt p bytes) (depth : Nat) (s : σ) :
    parseDhcpOptions handler pkt (depth + 2) p bytes.length optFilter s = runCalls handler (calls optFilter p bytes) s := by
  rw [parseOnce,Int.toNat_natCast,parseLoopItems here (Nat.lt_succ_self _),calls]
  refine runFlat (fun c mem s => ?_) s
  have at' := (calledAtBytes here mem).1
  rw [show c::(if c.num = vendorEncaps then calledAt 208 c.data (items c.bytes) else []) =
    [c] ++ if c.num = vendorEncaps then calledAt 208 c.data (items c.bytes) else [] from rfl,runCallsAppend,runOne]
  refine Option.bind_congr fun s _ => ?_
  split
  · exact nestedCalls at' depth s
  · rfl

theorem parseNothing {size : Int} (nothing : size < 2) (depth : Nat) (s : σ) :
    parseDhcpOptions handler pkt (depth + 1) p size optFilter s = some s := by
  rw [parseOnce,parseLoop,if_pos nothing]

end

/- The handlers are called for the options of the longest well-formed prefix and, behind a call of
vendor_encaps, for those of its own bytes from 208 on; two parsers are open at most. -/
theorem parseDhcpOptionsCalls (pkt : Bytes) (option : Nat) (size : Int) (optFilter : Nat) (inside : option + size ≤ pkt.length) :
    Longest ((pkt.drop option).take size.toNat) (items ((pkt.drop option).take size.toNat)) ∧
    (∀ items', Longest ((pkt.drop option).take size.toNat) items' → items' = items ((pkt.drop option).take size.toNat)) ∧
    (∀ c ∈ calls optFilter option ((pkt.drop option).take size.toNat), (pkt.drop c.data).take c.bytes.length = c.bytes) ∧
    ∀ (σ : Type) (handler : Handler σ) (depth : Nat) (s : σ), parseDhcpOptions handler pkt (depth + 2) option size optFilter s =
      runCalls handler (calls optFilter option ((pkt.drop option).take size.toNat)) s := by
  have here : At pkt option ((pkt.drop option).take size.toNat) := List.take_prefix _ _
  refine ⟨longestItems _,fun _ longest => longestUnique longest (longestItems _),fun c mem => ?_,fun σ handler depth s => ?_⟩
  · exact (List.prefix_iff_eq_take.mp (callsBytes here mem).1).symm
  · rcases le_or_gt 0 size with positive | negative
    · have length : (((pkt.drop option).take size.toNat).length : Int) = size := by
        rw [List.length_take,List.length_drop]
        omega
      have ran : parseDhcpOptions handler pkt (depth + 2) option ((pkt.drop option).take size.toNat).length optFilter s = _ :=
        parseCalls here depth s
      rwa [length] at ran
    · rw [parseNothing (by omega),show size.toNat = 0 by omega,List.take_zero,calls,items]
      rfl

/- An option of vendor_encaps with a configuration file in it, and a truncated one. -/
theorem nestedConfigfile : (0 : Nat) + (9 : Int) ≤ ([0,43,3,209,1,65,67,9,66] : Bytes).length ∧
    calls 0 0 [0,43,3,209,1,65,67,9,66] = [⟨43,3,[209,1,65]⟩,⟨209,5,[65]⟩] ∧
    ∀ (σ : Type) (handler : Handler σ) (depth : Nat) (s : σ), parseDhcpOptions handler [0,43,3,209,1,65,67,9,66] (depth + 2) 0 9 0 s =
      runCalls handler (calls 0 0 [0,43,3,209,1,65,67,9,66]) s := by
  refine ⟨by decide,?_,(parseDhcpOptionsCalls [0,43,3,209,1,65,67,9,66] 0 9 0 (by decide)).2.2.2⟩
  simp [calls,items,calledAt,dhcpOpts,vendorEncaps]

end Syslinux.DhcpOption
