import Syslinux.DnsReply

/-! The query that dns_resolv makes of a name: dns_mangle, the domain behind a name without a dot,
and the question. A byte written behind DNSSendBuf has no defined result: none. -/
namespace Syslinux.DnsQuery
open DnsReply

/- *q++ = c. -/
def put (send : Nat → UInt8) (q : Nat) (c : UInt8) : Option (Nat → UInt8) :=
  if q < pktbufSize then some (store send q [c]) else none

/- The name is what the string has in front of its NUL. -/
def mangleLoop : Bytes → (Nat → UInt8) → Nat → Nat → Nat → Option ((Nat → UInt8) × Nat × Nat × Nat)
  | [],send,countPtr,q,dots => some (send,countPtr,q,dots)
  | c::p,send,countPtr,q,dots =>
      if c = 58 ∨ c = 47 then some (send,countPtr,q,dots)
      else if c = 46 then (put send q 0).bind fun send => mangleLoop p send q (q + 1) (dots + 1)
      else (put (store send countPtr [send countPtr + 1]) q c).bind fun send => mangleLoop p send countPtr (q + 1) dots

def dnsMangle (send : Nat → UInt8) (q : Nat) (name : Bytes) : Option ((Nat → UInt8) × Nat × Nat) :=
  (put send q 0).bind fun send => (mangleLoop name send q (q + 1) 0).bind fun (send,countPtr,q,dots) =>
    if send countPtr ≠ 0 then (put send q 0).map fun send => (send,q + 1,dots) else some (send,q,dots)

def stpcpy (send : Nat → UInt8) (q : Nat) (src : Bytes) : Option ((Nat → UInt8) × Nat) :=
  if q + src.length + 1 ≤ pktbufSize then some (store send q (src ++ [0]),q + src.length) else none

/- struct dnsquery: TYPE_A and CLASS_IN in network byte order. -/
def question : Bytes := [0,1,0,1]

def fillQuery (send : Nat → UInt8) (name localDomain : Bytes) : Option ((Nat → UInt8) × Nat) :=
  (dnsMangle send headerSize name).bind fun (send,p,dots) =>
    (if dots = 0 then stpcpy send (p - 1) localDomain else some (send,p)).bind fun (send,p) =>
      if p + question.length ≤ pktbufSize then some (store send p question,p + question.length) else none

/- The labels of a name in the wire format, up to its root and what is behind it. -/
inductive Decodes (rest : Bytes) : Bytes → List Bytes → Prop where
  | root : Decodes rest (0::rest) []
  | label {label bytes : Bytes} {labels : List Bytes} (some' : label ≠ []) (short : label.length ≤ 63) (later : Decodes rest bytes labels) :
      Decodes rest (UInt8.ofNat label.length::(label ++ bytes)) (label::labels)

/- A name as it stands in a URL: labels with dots between them, and then the end of the string, a
port or a path. -/
structure HostName where
  first : Bytes
  more : List Bytes
  tail : Bytes
  plain : ∀ label ∈ first::more, label ≠ [] ∧ label.length ≤ 63 ∧ ∀ c ∈ label, c ≠ 0 ∧ c ≠ 46 ∧ c ≠ 58 ∧ c ≠ 47
  ended : ∀ c ∈ tail.head?, c = 58 ∨ c = 47

def HostName.labels (host : HostName) : List Bytes := host.first::host.more
def HostName.text (host : HostName) : Bytes := host.first ++ (host.more.flatMap (fun label => 46::label) ++ host.tail)

def wire (labels : List Bytes) : Bytes := labels.flatMap fun label => UInt8.ofNat label.length::label

section
variable {send : Nat → UInt8} {a q dots : Nat} {front cur label rest : Bytes}

theorem putInside {c : UInt8} (inside : q < pktbufSize) : put send q c = some (store send q [c]) := if_pos inside
theorem putOutside {c : UInt8} (outside : pktbufSize ≤ q) : put send q c = none := if_neg (Nat.not_lt.mpr outside)

theorem storeSet {x y : UInt8} : store (store send a (front ++ x::cur)) (a + front.length) [y] = store send a (front ++ y::cur) := by
  rw [← storeAppend,← storeAppend]
  generalize store send a front = base
  funext b
  by_cases here : b = a + front.length
  · subst here
    have stored (bytes : Bytes) (z : UInt8) (mem : Nat → UInt8) : store mem (a + front.length) (z::bytes) (a + front.length) = z := by
      simp [store]
    rw [stored,stored]
  · rw [storeOutside (by simp; omega)]
    by_cases before : b < a + front.length
    · rw [storeOutside (Or.inl before),storeOutside (Or.inl before)]
    · unfold store
      rw [if_neg before,if_neg before]
      obtain ⟨k,rfl⟩ : ∃ k, b = a + front.length + (k + 1) := ⟨b - (a + front.length) - 1,by omega⟩
      simp

theorem mangleLabel (plain : ∀ c ∈ label, c ≠ 46 ∧ c ≠ 58 ∧ c ≠ 47) (inside : a + (front.length + 1 + cur.length) ≤ pktbufSize) :
    mangleLoop (label ++ rest) (store send a (front ++ UInt8.ofNat cur.length::cur)) (a + front.length)
        (a + (front.length + 1 + cur.length)) dots =
      if a + (front.length + 1 + (cur ++ label).length) ≤ pktbufSize then
        mangleLoop rest (store send a (front ++ UInt8.ofNat (cur ++ label).length::(cur ++ label))) (a + front.length)
          (a + (front.length + 1 + (cur ++ label).length)) dots
      else none := by
  induction label generalizing cur with
  | nil => rw [List.append_nil,List.nil_append,if_pos inside]
  | cons c label ih =>
    obtain ⟨notDot,notColon,notSlash⟩ := plain c (by simp)
    have counted : store send a (front ++ UInt8.ofNat cur.length::cur) (a + front.length) + 1 = UInt8.ofNat (cur ++ [c]).length := by
      have count : store send a (front ++ UInt8.ofNat cur.length::cur) (a + front.length) = UInt8.ofNat cur.length := by
        simp [store]
      rw [count,List.length_append,List.length_singleton,UInt8.ofNat_add]
      rfl
    rw [List.cons_append,mangleLoop,if_neg (by simp [notColon,notSlash]),if_neg notDot,counted,storeSet]
    by_cases room : a + (front.length + 1 + cur.length) < pktbufSize
    · have length : front.length + 1 + (cur ++ [c]).length = front.length + 1 + cur.length + 1 := by simp; omega
      rw [putInside room,Option.bind_some]
      have stored : store (store send a (front ++ UInt8.ofNat (cur ++ [c]).length::cur)) (a + (front.length + 1 + cur.length)) [c] =
          store send a (front ++ UInt8.ofNat (cur ++ [c]).length::(cur ++ [c])) := by
        have written : (front ++ UInt8.ofNat (cur ++ [c]).length::cur).length = front.length + 1 + cur.length := by simp; omega
        rw [storeParts written,List.append_assoc,List.cons_append]
      have room' : a + (front.length + 1 + (cur ++ [c]).length) ≤ pktbufSize := by rw [length]; omega
      have next := ih (fun d mem => plain d (by simp [mem])) room'
      rw [length] at next
      rw [stored,show a + (front.length + 1 + cur.length) + 1 = a + (front.length + 1 + cur.length + 1) by omega,next,List.append_assoc]
      rfl
    · rw [putOutside (Nat.le_of_not_lt room),Option.bind_none,if_neg]
      simp
      omega

theorem wireCons (label : Bytes) (labels : List Bytes) : wire (label::labels) = UInt8.ofNat label.length::label ++ wire labels := rfl

theorem mangleMore {more : List Bytes} {tail : Bytes} (plain : ∀ label ∈ more, ∀ c ∈ label, c ≠ 46 ∧ c ≠ 58 ∧ c ≠ 47)
    (ended : ∀ c ∈ tail.head?, c = 58 ∨ c = 47) (inside : a + (front.length + 1 + cur.length) ≤ pktbufSize) :
    mangleLoop (more.flatMap (fun label => 46::label) ++ tail) (store send a (front ++ UInt8.ofNat cur.length::cur)) (a + front.length)
        (a + (front.length + 1 + cur.length)) dots =
      if a + (front ++ wire (cur::more)).length ≤ pktbufSize then
        some (store send a (front ++ wire (cur::more)),a + (front ++ wire (cur::more).dropLast).length,
          a + (front ++ wire (cur::more)).length,dots + more.length)
      else none := by
  induction more generalizing front cur dots with
  | nil =>
    have length : (front ++ wire [cur]).length = front.length + 1 + cur.length := by simp [wire]; omega
    have last : mangleLoop tail (store send a (front ++ UInt8.ofNat cur.length::cur)) (a + front.length)
        (a + (front.length + 1 + cur.length)) dots = some (store send a (front ++ UInt8.ofNat cur.length::cur),a + front.length,
          a + (front.length + 1 + cur.length),dots) := by
      cases tail with
      | nil => rfl
      | cons c tail => rw [mangleLoop,if_pos (ended c rfl)]
    rw [List.flatMap_nil,List.nil_append,last,length,if_pos inside]
    simp [wire]
  | cons label more ih =>
    have flat : (label::more).flatMap (fun label => 46::label) ++ tail = 46::(label ++ (more.flatMap (fun label => 46::label) ++ tail)) := by simp
    rw [flat,mangleLoop,if_neg (by decide),if_pos rfl]
    by_cases room : a + (front.length + 1 + cur.length) < pktbufSize
    · -- The labels so far are in front of the next one.
      have front' : (front ++ UInt8.ofNat cur.length::cur).length = front.length + 1 + cur.length := by simp; omega
      have whole : front ++ wire (cur::label::more) = (front ++ UInt8.ofNat cur.length::cur) ++ wire (label::more) := by
        rw [wireCons]
        simp
      have before : front ++ wire (cur::label::more).dropLast = (front ++ UInt8.ofNat cur.length::cur) ++ wire (label::more).dropLast := by
        rw [List.dropLast_cons_of_ne_nil (by simp),wireCons]
        simp
      have begins : a + ((front ++ UInt8.ofNat cur.length::cur).length + 1 + ([] : Bytes).length) ≤ pktbufSize := by
        rw [front',List.length_nil]
        omega
      have start := @mangleLabel send a (dots + 1) (front ++ UInt8.ofNat cur.length::cur) [] label
        (more.flatMap (fun label => 46::label) ++ tail) (plain label (by simp)) begins
      rw [front',List.nil_append,List.length_nil,Nat.add_zero] at start
      rw [putInside room,Option.bind_some,storeParts front',show a + (front.length + 1 + cur.length) + 1 = a + (front.length + 1 + cur.length + 1) by omega]
      rw [show ([0] : Bytes) = [UInt8.ofNat 0] by rfl,start]
      by_cases fits : a + (front.length + 1 + cur.length + 1 + label.length) ≤ pktbufSize
      · have fits' : a + ((front ++ UInt8.ofNat cur.length::cur).length + 1 + label.length) ≤ pktbufSize := by rwa [front']
        have next : mangleLoop _ (store send a ((front ++ UInt8.ofNat cur.length::cur) ++ UInt8.ofNat label.length::label)) _ _ (dots + 1) = _ :=
          ih (fun l mem => plain l (by simp [mem])) fits'
        rw [front'] at next
        rw [if_pos fits,next,whole,before,show dots + 1 + more.length = dots + (label::more).length by simp; omega]
      · rw [if_neg fits,if_neg]
        simp [wire]
        omega
    · rw [putOutside (Nat.le_of_not_lt room),Option.bind_none,if_neg]
      simp [wire]
      omega

theorem wireAppend (labels more : List Bytes) : wire (labels ++ more) = wire labels ++ wire more := List.flatMap_append

theorem lastCount (host : HostName) :
    store send a (wire host.labels) (a + (wire host.labels.dropLast).length) ≠ 0 := by
  have some' : host.labels ≠ [] := List.cons_ne_nil _ _
  obtain ⟨full,short,_⟩ := host.plain _ (List.getLast_mem some')
  have length := List.length_pos_iff.mpr full
  have parts : wire host.labels = wire host.labels.dropLast ++ UInt8.ofNat (host.labels.getLast some').length::host.labels.getLast some' := by
    conv_lhs => rw [← List.dropLast_append_getLast some',wireAppend]
    simp [wire]
  have count : store send a (wire host.labels) (a + (wire host.labels.dropLast).length) = UInt8.ofNat (host.labels.getLast some').length := by
    rw [parts]
    simp [store]
  rw [count]
  intro zero
  have value := congrArg UInt8.toNat zero
  rw [UInt8.toNat_ofNat'] at value
  change _ = 0 at value
  omega

theorem mangleHost (host : HostName) (inside : a < pktbufSize) : dnsMangle send a host.text =
    if a + (wire host.labels).length + 1 ≤ pktbufSize then
      some (store send a (wire host.labels ++ [0]),a + (wire host.labels).length + 1,host.more.length)
    else none := by
  have plain (label : Bytes) (mem : label ∈ host.first::host.more) : ∀ c ∈ label, c ≠ 46 ∧ c ≠ 58 ∧ c ≠ 47 :=
    fun c byte => ((host.plain label mem).2.2 c byte).2
  have start := @mangleLabel send a 0 [] [] host.first (host.more.flatMap (fun label => 46::label) ++ host.tail) (plain _ (by simp)) inside
  simp only [List.nil_append,List.length_nil,Nat.zero_add,Nat.add_zero] at start
  have zero : ([0] : Bytes) = [UInt8.ofNat 0] := by rfl
  rw [dnsMangle,putInside inside,Option.bind_some,HostName.text,zero,start]
  have wired : (wire host.labels).length = 1 + host.first.length + (wire host.more).length := by
    rw [HostName.labels,wireCons]
    simp
    omega
  by_cases first : a + (1 + host.first.length) ≤ pktbufSize
  · have first' : a + (([] : Bytes).length + 1 + host.first.length) ≤ pktbufSize := by simpa using first
    have more := @mangleMore send a 0 [] host.first host.more host.tail (fun l mem => plain l (by simp [mem])) host.ended first'
    simp only [List.nil_append,List.length_nil,Nat.zero_add,Nat.add_zero] at more
    rw [show host.first::host.more = host.labels by rfl] at more
    rw [if_pos first,more]
    by_cases fits : a + (wire host.labels).length ≤ pktbufSize
    · rw [if_pos fits,Option.bind_some]
      simp only
      rw [if_pos (lastCount host)]
      by_cases root : a + (wire host.labels).length + 1 ≤ pktbufSize
      · rw [putInside root,if_pos root,Option.map_some,storeAppend]
        rfl
      · rw [putOutside (Nat.le_of_not_lt root),if_neg root,Option.map_none]
    · rw [if_neg fits,if_neg (by omega),Option.bind_none]
  · rw [if_neg first,if_neg (by omega),Option.bind_none]

theorem fillDotted (host : HostName) (localDomain : Bytes) (dotted : host.more ≠ []) : fillQuery send host.text localDomain =
    if headerSize + (wire host.labels ++ 0::question).length ≤ pktbufSize then
      some (store send headerSize (wire host.labels ++ 0::question),headerSize + (wire host.labels ++ 0::question).length)
    else none := by
  have dots : host.more.length ≠ 0 := fun none' => dotted (List.length_eq_zero_iff.mp none')
  have length : headerSize + (wire host.labels ++ 0::question).length = headerSize + (wire host.labels).length + 1 + question.length := by
    simp
    omega
  rw [fillQuery,mangleHost host (by decide),length]
  by_cases name : headerSize + (wire host.labels).length + 1 ≤ pktbufSize
  · rw [if_pos name,Option.bind_some]
    simp only [if_neg dots,Option.bind_some]
    refine if_congr Iff.rfl ?_ rfl
    have whole : wire host.labels ++ 0::question = (wire host.labels ++ [0]) ++ question := by simp
    have written : (wire host.labels ++ [0]).length = (wire host.labels).length + 1 := by simp
    rw [whole,Nat.add_assoc headerSize,storeParts written]
  · rw [if_neg name,if_neg (by omega),Option.bind_none]

theorem fillDotless (host : HostName) (localDomain : Bytes) (dotless : host.more = []) {r : (Nat → UInt8) × Nat}
    (filled : fillQuery send host.text localDomain = some r) :
    r = (store send headerSize (wire host.labels ++ localDomain ++ question),headerSize + (wire host.labels ++ localDomain ++ question).length) := by
  rw [fillQuery,mangleHost host (by decide)] at filled
  by_cases name : headerSize + (wire host.labels).length + 1 ≤ pktbufSize
  · rw [if_pos name,Option.bind_some,dotless] at filled
    simp only [List.length_nil,if_true,Nat.add_sub_cancel] at filled
    obtain ⟨⟨mem,p⟩,copied,filled⟩ := Option.bind_eq_some_iff.mp filled
    unfold stpcpy at copied
    split at copied
    · obtain ⟨rfl,rfl⟩ := Prod.mk.inj (Option.some.inj copied)
      simp only at filled
      split at filled
      · have length : headerSize + (wire host.labels ++ (localDomain ++ question)).length =
            headerSize + (wire host.labels).length + localDomain.length + question.length := by simp; omega
        have over' : localDomain ++ question ≠ [] := by simp [question]
        rw [← Option.some.inj filled,storeOver (show question ≠ [] by decide),storeOver over',List.append_assoc,length]
      · cases filled
    · cases copied
  · rw [if_neg name] at filled
    cases filled

theorem decodesWire {labels : List Bytes} (plain : ∀ label ∈ labels, label ≠ [] ∧ label.length ≤ 63) : Decodes rest (wire labels ++ 0::rest) labels := by
  induction labels with
  | nil => exact .root
  | cons label labels ih =>
    obtain ⟨some',short⟩ := plain label (by simp)
    rw [wireCons,List.cons_append,List.cons_append,List.append_assoc]
    exact .label some' short (ih fun l mem => plain l (by simp [mem]))

theorem decodesRoot {bytes : Bytes} {labels : List Bytes} (decodes : Decodes rest bytes labels) : ∃ front, bytes = front ++ 0::rest := by
  induction decodes with
  | root => exact ⟨[],rfl⟩
  | @label label _ _ _ _ _ ih =>
    obtain ⟨front,rfl⟩ := ih
    exact ⟨UInt8.ofNat label.length::(label ++ front),by simp⟩

theorem textNotRoot {text : Bytes} {labels : List Bytes} {c : UInt8} (notNul : c ≠ 0) : ¬ Decodes rest (text ++ [c] ++ rest) labels := by
  intro decodes
  obtain ⟨front,eq⟩ := decodesRoot decodes
  rw [show front ++ 0::rest = (front ++ [0]) ++ rest by simp] at eq
  have last : [c] = [0] := (List.append_inj' (List.append_cancel_right eq) rfl).2
  exact notNul (List.cons.inj last).1

theorem fillFits {name localDomain : Bytes} {send' : Nat → UInt8} {p : Nat} (filled : fillQuery send name localDomain = some (send',p)) :
    p ≤ pktbufSize := by
  obtain ⟨⟨mem,q,dots⟩,_,filled⟩ := Option.bind_eq_some_iff.mp filled
  obtain ⟨⟨mem,q⟩,_,filled⟩ := Option.bind_eq_some_iff.mp filled
  simp only at filled
  split at filled
  case isTrue fits =>
    rw [← (Prod.mk.inj (Option.some.inj filled)).2]
    exact fits
  case isFalse => cases filled

theorem dotlessNotDecoded (host : HostName) {localDomain : Bytes} (noNul : 0 ∉ localDomain) (dotless : host.more = []) (labels : List Bytes) :
    ¬ Decodes question (wire host.labels ++ localDomain ++ question) labels := by
  have notNul {text part : Bytes} {c : UInt8} (free : ∀ d ∈ part, d ≠ 0) (parts : part = text ++ [c]) : c ≠ 0 := free c (by rw [parts]; simp)
  rcases List.eq_nil_or_concat localDomain with rfl | ⟨text,c,rfl⟩
  · obtain ⟨some',_,plain⟩ := host.plain host.first (by simp)
    obtain ⟨text,c,parts⟩ := (List.eq_nil_or_concat host.first).resolve_left some'
    rw [List.concat_eq_append] at parts
    have named : wire host.labels = UInt8.ofNat host.first.length::text ++ [c] := by
      rw [HostName.labels,dotless,wireCons,parts]
      simp [wire]
    rw [List.append_nil,named]
    exact textNotRoot (notNul (fun d mem => (plain d mem).1) parts)
  · rw [List.concat_eq_append] at noNul ⊢
    rw [← List.append_assoc]
    exact textNotRoot (notNul (fun d mem zero => noNul (zero ▸ mem)) rfl)

end
end Syslinux.DnsQuery
