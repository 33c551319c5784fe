import Syslinux.Loops
import Syslinux.Machine

/-! The replies that dns_resolv parses: dns_compare, dns_copylabel and dns_skiplabel over the bytes
of the datagram. A byte that is read behind the datagram or behind DNSSendBuf, and a byte that is
written behind DNSSendBuf, have no defined result: none. -/
namespace Syslinux.DnsReply
open Loops

abbrev Bytes := List UInt8

def pktbufSize : Nat := 2048
/- sizeof(struct dnshdr) and sizeof(struct dnsrr). -/
def headerSize : Nat := 12
def rrSize : Nat := 10

def classIn : Nat := 1
def typeA : Nat := 1
def typeCname : Nat := 5

section
variable (send : Nat → UInt8) (bytes : Bytes)

def sendByte (q : Nat) : Option UInt8 := if q < pktbufSize then some (send q) else none

/- memcmp(q,p,count) = 0; it ends at the first difference. -/
def memcmpSame : Nat → Nat → Nat → Option Bool
  | 0,_,_ => some true
  | count+1,q,p => (sendByte send q).bind fun a => (bytes[p]?).bind fun b =>
      if a = b then memcmpSame count (q + 1) (p + 1) else some false

def target (c0 c1 : UInt8) : Nat := (c0.toNat - 0xc0)*256 + c1.toNat

def dnsCompare : Nat → Nat → Nat → Option Bool
  | 0,_,_ => none
  | turns+1,q,p => (bytes[p]?).bind fun c0 =>
      if 0xc0 ≤ c0 then (bytes[p + 1]?).bind fun c1 => dnsCompare turns q (target c0 c1)
      else if c0 ≠ 0 then (memcmpSame send bytes (c0.toNat + 1) q p).bind fun same =>
        if same then dnsCompare turns (q + (c0.toNat + 1)) (p + (c0.toNat + 1)) else some false
      else (sendByte send q).map fun a => decide (a = 0)

def memcpy (q p count : Nat) : Option (Nat → UInt8) :=
  if p + count ≤ bytes.length ∧ q + count ≤ pktbufSize then some (store send q ((bytes.drop p).take count)) else none

end

section
variable (bytes : Bytes)

def dnsCopylabel : Nat → (Nat → UInt8) → Nat → Nat → Option (Nat → UInt8)
  | 0,_,_,_ => none
  | turns+1,send,q,p => (bytes[p]?).bind fun c0 =>
      if 0xc0 ≤ c0 then (bytes[p + 1]?).bind fun c1 => dnsCopylabel turns send q (target c0 c1)
      else if c0 ≠ 0 then (memcpy send bytes q p (c0.toNat + 1)).bind fun send =>
        dnsCopylabel turns send (q + (c0.toNat + 1)) (p + (c0.toNat + 1))
      else if q < pktbufSize then some (store send q [0]) else none

def dnsSkiplabel : Nat → Nat → Option Nat
  | 0,_ => none
  | turns+1,label => (bytes[label]?).bind fun c =>
      if 0xc0 ≤ c then some (label + 2)
      else if c = 0 then some (label + 1)
      else dnsSkiplabel turns (label + 1 + c.toNat)

/- A 16-bit field in network byte order. -/
def field (i : Nat) : Option Nat := (bytes[i]?).bind fun a => (bytes[i + 1]?).map fun b => a.toNat*256 + b.toNat

/- (hd2->flags ^ 0x80) & htons(0xf80f), by the two bytes as they lie in memory. -/
def badFlags (a b : UInt8) : Prop := (a ^^^ 0x80) &&& 0xf8 ≠ 0 ∨ b &&& 0x0f ≠ 0
instance (a b : UInt8) : Decidable (badFlags a b) := by unfold badFlags; infer_instance

/- goto badness before anything is parsed, goto done, or the end of the replies with the cursor p. -/
inductive Parsed where
  | badness
  | done (send : Nat → UInt8) (result : Bytes)
  | noAnswer (send : Nat → UInt8) (p : Nat)

def questions (turns : Nat) : Nat → Nat → Option Nat
  | 0,p => some p
  | ques+1,p => (dnsSkiplabel bytes turns p).bind fun p => questions turns ques (p + 4)

/- A record with the name that is looked for; next is the rest of the loop. -/
def sameName (turns : Nat) (send : Nat → UInt8) (rr rdLen : Nat) (next : (Nat → UInt8) → Option Parsed) : Option Parsed :=
  (field bytes (rr + 2)).bind fun rrClass =>
    if rrClass = classIn then (field bytes rr).bind fun rrType =>
      if rrType = typeA ∧ rdLen = 4 then
        if rr + rrSize + 4 ≤ bytes.length then some (.done send ((bytes.drop (rr + rrSize)).take 4)) else none
      else if rrType = typeCname then (dnsCopylabel bytes turns send headerSize (rr + rrSize)).bind next
      else next send
    else next send

def replies (turns : Nat) : Nat → (Nat → UInt8) → Nat → Option Parsed
  | 0,send,p => some (.noAnswer send p)
  | reps+1,send,p => (dnsCompare send bytes turns headerSize p).bind fun same =>
      (dnsSkiplabel bytes turns p).bind fun rr => (field bytes (rr + 8)).bind fun rdLen =>
        if same then sameName bytes turns send rr rdLen fun send => replies turns reps send (rr + (rrSize + rdLen))
        else replies turns reps send (rr + (rrSize + rdLen))

def parseReply (turns : Nat) (send : Nat → UInt8) : Option Parsed :=
  (bytes[2]?).bind fun a => (bytes[3]?).bind fun b =>
    if badFlags a b then some .badness
    else (field bytes 4).bind fun ques => (field bytes 6).bind fun reps =>
      (questions bytes turns ques headerSize).bind fun p => replies bytes turns reps send p

end

/- The labels of a name from p on, with the pointers followed, up to p'. All of their bytes are
inside of the datagram. -/
inductive Walk (bytes : Bytes) : Nat → List Bytes → Nat → Prop where
  | here {p : Nat} : Walk bytes p [] p
  | pointer {p p' : Nat} {labels : List Bytes} {c d : UInt8} (first : bytes[p]? = some c) (big : 0xc0 ≤ c)
      (second : bytes[p + 1]? = some d) (later : Walk bytes (target c d) labels p') : Walk bytes p labels p'
  | label {p p' : Nat} {labels : List Bytes} {c : UInt8} (first : bytes[p]? = some c) (small : ¬ 0xc0 ≤ c) (more : c ≠ 0)
      (inside : p + (c.toNat + 1) ≤ bytes.length) (later : Walk bytes (p + (c.toNat + 1)) labels p') :
      Walk bytes p ((bytes.drop p).take (c.toNat + 1)::labels) p'

def Expands (bytes : Bytes) (p : Nat) (labels : List Bytes) : Prop := ∃ p', Walk bytes p labels p' ∧ bytes[p']? = some 0

/- Where a name ends at its place: behind its root, or behind its first pointer. -/
inductive Ends (bytes : Bytes) : Nat → Nat → Prop where
  | root {p : Nat} (first : bytes[p]? = some 0) : Ends bytes p (p + 1)
  | pointer {p : Nat} {c : UInt8} (first : bytes[p]? = some c) (big : 0xc0 ≤ c) : Ends bytes p (p + 2)
  | label {p p' : Nat} {c : UInt8} (first : bytes[p]? = some c) (small : ¬ 0xc0 ≤ c) (more : c ≠ 0)
      (later : Ends bytes (p + 1 + c.toNat) p') : Ends bytes p p'

section
variable {bytes : Bytes} {send : Nat → UInt8} {p q : Nat}

theorem skipLasting (p : Nat) : Lasting fun n => dnsSkiplabel bytes n p := by
  intro n
  induction n generalizing p with
  | zero => intro x here; cases here
  | succ n ih =>
    unfold dnsSkiplabel
    refine keepsBind (keepsSelf _) fun c => ?_
    split
    · exact keepsSelf _
    · split
      · exact keepsSelf _
      · exact ih _

theorem skipGives {p' : Nat} : Gives (fun n => dnsSkiplabel bytes n p) p' ↔ Ends bytes p p' := by
  constructor
  · rintro ⟨n,here⟩
    induction n generalizing p with
    | zero => cases here
    | succ n ih =>
      obtain ⟨c,first,rest⟩ := Option.bind_eq_some_iff.mp here
      split at rest
      case isTrue big =>
        rw [← Option.some.inj rest]
        exact .pointer first big
      case isFalse small =>
        split at rest
        case isTrue zero =>
          rw [← Option.some.inj rest]
          exact .root (zero ▸ first)
        case isFalse more => exact .label first small more (ih rest)
  · intro ends
    induction ends with
    | root first => exact ⟨1,by simp [dnsSkiplabel,first]⟩
    | pointer first big => exact ⟨1,by simp [dnsSkiplabel,first,big]⟩
    | label first small more later ih =>
      obtain ⟨n,here⟩ := ih
      exact ⟨n + 1,by show dnsSkiplabel bytes (n + 1) _ = _; rw [dnsSkiplabel,first,Option.bind_some,if_neg small,if_neg more]; exact here⟩

theorem compareLasting (q p : Nat) : Lasting fun n => dnsCompare send bytes n q p := by
  intro n
  induction n generalizing q p with
  | zero => intro x here; cases here
  | succ n ih =>
    unfold dnsCompare
    refine keepsBind (keepsSelf _) fun c => ?_
    split
    · exact keepsBind (keepsSelf _) fun d => ih _ _
    · split
      · refine keepsBind (keepsSelf _) fun same => ?_
        split
        · exact ih _ _
        · exact keepsSelf _
      · exact keepsSelf _

theorem copyLasting (send : Nat → UInt8) (q p : Nat) : Lasting fun n => dnsCopylabel bytes n send q p := by
  intro n
  induction n generalizing send q p with
  | zero => intro x here; cases here
  | succ n ih =>
    unfold dnsCopylabel
    refine keepsBind (keepsSelf _) fun c => ?_
    split
    · exact keepsBind (keepsSelf _) fun d => ih _ _ _
    · split
      · exact keepsBind (keepsSelf _) fun send => ih _ _ _
      · exact keepsSelf _

theorem partLength {count : Nat} (inside : p + count ≤ bytes.length) : ((bytes.drop p).take count).length = count := by
  rw [List.length_take,List.length_drop]
  omega

theorem storeParts {part rest : Bytes} {count : Nat} (length : part.length = count) :
    store (store send q part) (q + count) rest = store send q (part ++ rest) := by
  rw [← storeAppend,length]

theorem memcpySome {count : Nat} {mem : Nat → UInt8} : memcpy send bytes q p count = some mem ↔
    (p + count ≤ bytes.length ∧ q + count ≤ pktbufSize) ∧ store send q ((bytes.drop p).take count) = mem := by
  unfold memcpy
  split
  case isTrue inside => simp [inside]
  case isFalse outside => simp [outside]

theorem copyGives {send' : Nat → UInt8} : Gives (fun n => dnsCopylabel bytes n send q p) send' ↔
    ∃ labels, Expands bytes p labels ∧ q + (labels.flatten.length + 1) ≤ pktbufSize ∧ send' = store send q (labels.flatten ++ [0]) := by
  constructor
  · rintro ⟨n,here⟩
    induction n generalizing send q p with
    | zero => cases here
    | succ n ih =>
      obtain ⟨c,first,rest⟩ := Option.bind_eq_some_iff.mp here
      split at rest
      case isTrue big =>
        obtain ⟨d,second,rest⟩ := Option.bind_eq_some_iff.mp rest
        obtain ⟨labels,⟨p',walk,root⟩,fits,copied⟩ := ih rest
        exact ⟨labels,⟨p',.pointer first big second walk,root⟩,fits,copied⟩
      case isFalse small =>
        split at rest
        case isTrue more =>
          obtain ⟨mem,copied,rest⟩ := Option.bind_eq_some_iff.mp rest
          obtain ⟨⟨inside,_⟩,rfl⟩ := memcpySome.1 copied
          obtain ⟨labels,⟨p',walk,root⟩,fits,rfl⟩ := ih rest
          have length := partLength inside
          refine ⟨_,⟨p',.label first small more inside walk,root⟩,?_,?_⟩
          · rw [List.flatten_cons,List.length_append,length]
            omega
          · rw [List.flatten_cons,List.append_assoc]
            exact storeParts length
        case isFalse zero =>
          split at rest
          case isTrue fits =>
            refine ⟨[],⟨p,.here,?_⟩,fits,(Option.some.inj rest).symm⟩
            rw [first,Decidable.not_not.mp zero]
          case isFalse => cases rest
  · rintro ⟨labels,⟨p',walk,root⟩,fits,rfl⟩
    induction walk generalizing send q with
    | here =>
      have inside : q < pktbufSize := fits
      exact ⟨1,by simp [dnsCopylabel,root,inside]⟩
    | pointer first big second later ih =>
      obtain ⟨n,here⟩ := ih root fits
      exact ⟨n + 1,by
        show dnsCopylabel bytes (n + 1) send q _ = _
        rw [dnsCopylabel,first,Option.bind_some,if_pos big,second]
        exact here⟩
    | @label p p' labels c first small more inside later ih =>
      have length := partLength inside
      rw [List.flatten_cons,List.length_append,length] at fits
      have fits' : q + (c.toNat + 1) + (labels.flatten.length + 1) ≤ pktbufSize := by omega
      obtain ⟨n,here⟩ := ih root fits'
      refine ⟨n + 1,?_⟩
      show dnsCopylabel bytes (n + 1) send q _ = _
      rw [dnsCopylabel,first,Option.bind_some,if_neg small,if_pos more,memcpySome.2 ⟨⟨inside,by omega⟩,rfl⟩,Option.bind_some]
      rw [List.flatten_cons,List.append_assoc,← storeParts length]
      exact here

/- The bytes from q on in the send buffer and from p on in the datagram, count of them. -/
def Agree (send : Nat → UInt8) (bytes : Bytes) (q p count : Nat) : Prop :=
  ∀ i < count, q + i < pktbufSize ∧ bytes[p + i]? = some (send (q + i))

def Differ (send : Nat → UInt8) (bytes : Bytes) (q p : Nat) : Prop :=
  q < pktbufSize ∧ ∃ b, bytes[p]? = some b ∧ b ≠ send q

theorem agreeStep {count : Nat} : Agree send bytes q p (count + 1) ↔
    (q < pktbufSize ∧ bytes[p]? = some (send q)) ∧ Agree send bytes (q + 1) (p + 1) count := by
  have moved (a i : Nat) : a + 1 + i = a + (i + 1) := by omega
  constructor
  · intro agree
    refine ⟨by simpa using agree 0 (Nat.succ_pos _),fun i less => ?_⟩
    rw [moved,moved]
    exact agree (i + 1) (by omega)
  · rintro ⟨first,later⟩ i less
    cases i with
    | zero => simpa using first
    | succ i =>
      have here := later i (by omega)
      rwa [moved,moved] at here

theorem agreeZero : Agree send bytes q p 0 := fun i less => absurd less (Nat.not_lt_zero i)

theorem memcmpTurn {count : Nat} {same : Bool} : memcmpSame send bytes (count + 1) q p = some same ↔
    (same = false ∧ Differ send bytes q p) ∨
      ((q < pktbufSize ∧ bytes[p]? = some (send q)) ∧ memcmpSame send bytes count (q + 1) (p + 1) = some same) := by
  rw [memcmpSame,sendByte]
  unfold Differ
  by_cases inside : q < pktbufSize
  · rw [if_pos inside,Option.bind_some]
    cases byte : bytes[p]? with
    | none => simp
    | some b =>
      rw [Option.bind_some]
      by_cases agree : send q = b
      · simp [agree,inside]
      · have other : b ≠ send q := fun eq => agree eq.symm
        simp [agree,other,inside,eq_comm]
  · simp [inside]

theorem memcmpTrue {count : Nat} : memcmpSame send bytes count q p = some true ↔ Agree send bytes q p count := by
  induction count generalizing q p with
  | zero => exact iff_of_true rfl agreeZero
  | succ count ih =>
    rw [memcmpTurn,agreeStep,ih]
    simp

theorem memcmpFalse {count : Nat} : memcmpSame send bytes count q p = some false ↔
    ∃ i < count, Agree send bytes q p i ∧ Differ send bytes (q + i) (p + i) := by
  have moved (a i : Nat) : a + 1 + i = a + (i + 1) := by omega
  induction count generalizing q p with
  | zero =>
    refine iff_of_false (by simp [memcmpSame]) ?_
    rintro ⟨i,less,_⟩
    exact Nat.not_lt_zero i less
  | succ count ih =>
    rw [memcmpTurn]
    constructor
    · rintro (⟨_,differ⟩ | ⟨first,later⟩)
      · exact ⟨0,Nat.succ_pos _,agreeZero,differ⟩
      · obtain ⟨i,less,agree,differ⟩ := ih.mp later
        rw [moved,moved] at differ
        exact ⟨i + 1,by omega,agreeStep.2 ⟨first,agree⟩,differ⟩
    · rintro ⟨i,less,agree,differ⟩
      cases i with
      | zero => exact Or.inl ⟨rfl,differ⟩
      | succ i =>
        obtain ⟨first,later⟩ := agreeStep.1 agree
        rw [← moved q,← moved p] at differ
        exact Or.inr ⟨first,ih.mpr ⟨i,by omega,later,differ⟩⟩

/- The name at p has the same labels as what is in the send buffer from q on. -/
def Spells (send : Nat → UInt8) (q : Nat) (labels : List Bytes) : Prop :=
  read send q labels.flatten.length = labels.flatten ∧ q + labels.flatten.length ≤ pktbufSize

def Same (send : Nat → UInt8) (bytes : Bytes) (q p : Nat) : Prop :=
  ∃ labels, Expands bytes p labels ∧ Spells send q labels ∧ q + labels.flatten.length < pktbufSize ∧
    send (q + labels.flatten.length) = 0

/- Behind labels that are the same, the name at p ends first, or a byte of its next label differs. -/
def Other (send : Nat → UInt8) (bytes : Bytes) (q p : Nat) : Prop :=
  ∃ labels p', Walk bytes p labels p' ∧ Spells send q labels ∧
    ((bytes[p']? = some 0 ∧ q + labels.flatten.length < pktbufSize ∧ send (q + labels.flatten.length) ≠ 0) ∨
      ∃ c, bytes[p']? = some c ∧ ¬ 0xc0 ≤ c ∧ c ≠ 0 ∧ ∃ i ≤ c.toNat,
        Agree send bytes (q + labels.flatten.length) p' i ∧ Differ send bytes (q + labels.flatten.length + i) (p' + i))

theorem agreeSpells {count : Nat} {labels : List Bytes} (inside : p + count ≤ bytes.length) :
    Spells send q ((bytes.drop p).take count::labels) ↔ Agree send bytes q p count ∧ Spells send (q + count) labels := by
  have length := partLength inside
  unfold Spells
  rw [List.flatten_cons,List.length_append,length,readAppend]
  have part : read send q count = (bytes.drop p).take count ↔ ∀ i < count, bytes[p + i]? = some (send (q + i)) := by
    constructor
    · intro eq i less
      have at' : (read send q count)[i]? = ((bytes.drop p).take count)[i]? := by rw [eq]
      rw [List.getElem?_take,if_pos less,List.getElem?_drop] at at'
      rw [← at']
      simp [read,less]
    · intro each
      refine List.ext_getElem? fun i => ?_
      by_cases less : i < count
      · rw [List.getElem?_take,if_pos less,List.getElem?_drop,each i less]
        simp [read,less]
      · rw [List.getElem?_eq_none (by simp; omega),List.getElem?_eq_none (by rw [length]; omega)]
  constructor
  · rintro ⟨eq,fits⟩
    obtain ⟨first,later⟩ := List.append_inj eq (by rw [readLength,length])
    exact ⟨fun i less => ⟨by omega,part.1 first i less⟩,later,by omega⟩
  · rintro ⟨agree,later,fits⟩
    exact ⟨by rw [part.2 fun i less => (agree i less).2,later],by omega⟩

/- The turn that ends dns_compare. -/
def Last (send : Nat → UInt8) (bytes : Bytes) (q p : Nat) (same : Bool) : Prop :=
  (bytes[p]? = some 0 ∧ q < pktbufSize ∧ same = decide (send q = 0)) ∨
    (same = false ∧ ∃ c, bytes[p]? = some c ∧ ¬ 0xc0 ≤ c ∧ c ≠ 0 ∧ ∃ i ≤ c.toNat, Agree send bytes q p i ∧ Differ send bytes (q + i) (p + i))

theorem spellsNothing : Spells send q [] ↔ q ≤ pktbufSize := by simp [Spells,read]

theorem compareGives {same : Bool} : Gives (fun n => dnsCompare send bytes n q p) same ↔
    ∃ labels p', Walk bytes p labels p' ∧ Spells send q labels ∧ Last send bytes (q + labels.flatten.length) p' same := by
  constructor
  · rintro ⟨n,here⟩
    induction n generalizing q p with
    | zero => cases here
    | succ n ih =>
      obtain ⟨c,first,rest⟩ := Option.bind_eq_some_iff.mp here
      split at rest
      case isTrue big =>
        obtain ⟨d,second,rest⟩ := Option.bind_eq_some_iff.mp rest
        obtain ⟨labels,p',walk,spells,last⟩ := ih rest
        exact ⟨labels,p',.pointer first big second walk,spells,last⟩
      case isFalse small =>
        split at rest
        case isTrue more =>
          obtain ⟨agrees,compared,rest⟩ := Option.bind_eq_some_iff.mp rest
          cases agrees with
          | true =>
            have agree := memcmpTrue.1 compared
            have inside : p + (c.toNat + 1) ≤ bytes.length := by
              have last := (List.getElem?_eq_some_iff.mp (agree c.toNat (Nat.lt_succ_self _)).2).1
              omega
            obtain ⟨labels,p',walk,spells,last⟩ := ih rest
            refine ⟨_,p',.label first small more inside walk,(agreeSpells inside).mpr ⟨agree,spells⟩,?_⟩
            rwa [List.flatten_cons,List.length_append,partLength inside,← Nat.add_assoc]
          | false =>
            obtain ⟨i,less,agree,differ⟩ := memcmpFalse.1 compared
            have before : q ≤ pktbufSize := by
              have := differ.1
              omega
            exact ⟨[],p,.here,spellsNothing.2 before,Or.inr ⟨(Option.some.inj rest).symm,c,first,small,more,i,by omega,agree,differ⟩⟩
        case isFalse zero =>
          obtain ⟨a,byte,rfl⟩ := Option.map_eq_some_iff.mp rest
          unfold sendByte at byte
          split at byte
          case isTrue inside =>
            rw [Decidable.not_not.mp zero] at first
            rw [← Option.some.inj byte]
            exact ⟨[],p,.here,spellsNothing.2 (Nat.le_of_lt inside),Or.inl ⟨first,inside,rfl⟩⟩
          case isFalse => cases byte
  · rintro ⟨labels,p',walk,spells,last⟩
    induction walk generalizing q with
    | here =>
      rcases last with ⟨root,inside,rfl⟩ | ⟨rfl,c,first,small,more,i,less,agree,differ⟩
      · exact ⟨1,by simp [dnsCompare,root,sendByte,show q < pktbufSize from inside]⟩
      · refine ⟨1,?_⟩
        show dnsCompare send bytes 1 q _ = _
        have compared := memcmpFalse.2 ⟨i,Nat.lt_succ_of_le less,agree,differ⟩
        rw [dnsCompare,first,Option.bind_some,if_neg small,if_pos more]
        simp only [List.flatten_nil,List.length_nil,Nat.add_zero] at compared
        rw [compared]
        rfl
    | pointer first big second later ih =>
      obtain ⟨n,here⟩ := ih spells last
      refine ⟨n + 1,?_⟩
      show dnsCompare send bytes (n + 1) q _ = _
      rw [dnsCompare,first,Option.bind_some,if_pos big,second]
      exact here
    | label first small more inside later ih =>
      obtain ⟨agree,spells⟩ := (agreeSpells inside).mp spells
      rw [List.flatten_cons,List.length_append,partLength inside,← Nat.add_assoc] at last
      obtain ⟨n,here⟩ := ih spells last
      refine ⟨n + 1,?_⟩
      show dnsCompare send bytes (n + 1) q _ = _
      rw [dnsCompare,first,Option.bind_some,if_neg small,if_pos more,memcmpTrue.2 agree]
      exact here

theorem compareSame : Gives (fun n => dnsCompare send bytes n q p) true ↔ Same send bytes q p := by
  rw [compareGives]
  constructor
  · rintro ⟨labels,p',walk,spells,⟨root,inside,zero⟩ | ⟨different,_⟩⟩
    · exact ⟨labels,⟨p',walk,root⟩,spells,inside,by simpa using zero.symm⟩
    · cases different
  · rintro ⟨labels,⟨p',walk,root⟩,spells,inside,zero⟩
    exact ⟨labels,p',walk,spells,Or.inl ⟨root,inside,(decide_eq_true zero).symm⟩⟩

theorem compareOther : Gives (fun n => dnsCompare send bytes n q p) false ↔ Other send bytes q p := by
  rw [compareGives]
  refine exists_congr fun labels => exists_congr fun p' => and_congr_right fun _ => and_congr_right fun _ => ?_
  simp [Last,eq_comm]

inductive Questions (bytes : Bytes) : Nat → Nat → Nat → Prop where
  | none {p : Nat} : Questions bytes 0 p p
  | question {p name p' ques : Nat} (ends : Ends bytes p name) (later : Questions bytes ques (name + 4) p') :
      Questions bytes (ques + 1) p p'

/- The record at rr is one that dns_resolv looks for. -/
def Wanted (bytes : Bytes) (rr rdLen : Nat) : Prop :=
  field bytes (rr + 2) = some classIn ∧ ((field bytes rr = some typeA ∧ rdLen = 4) ∨ field bytes rr = some typeCname)

/- The records of a reply: their names end and can be told from the name in the send buffer, their
fields are inside of the datagram, and so is the address of the one that answers; a name that takes
the place of the one in the send buffer ends and fits there. -/
inductive Records (bytes : Bytes) : Nat → (Nat → UInt8) → Nat → Prop where
  | none {send : Nat → UInt8} {p : Nat} : Records bytes 0 send p
  | answer {reps p rr : Nat} {send : Nat → UInt8} (same : Same send bytes headerSize p) (ends : Ends bytes p rr)
      (rrClass : field bytes (rr + 2) = some classIn) (rrType : field bytes rr = some typeA) (length : field bytes (rr + 8) = some 4)
      (inside : rr + rrSize + 4 ≤ bytes.length) : Records bytes (reps + 1) send p
  | cname {reps p rr rdLen : Nat} {send : Nat → UInt8} {labels : List Bytes} (same : Same send bytes headerSize p) (ends : Ends bytes p rr)
      (rrClass : field bytes (rr + 2) = some classIn) (rrType : field bytes rr = some typeCname)
      (length : field bytes (rr + 8) = some rdLen) (expands : Expands bytes (rr + rrSize) labels)
      (fits : headerSize + (labels.flatten.length + 1) ≤ pktbufSize)
      (later : Records bytes reps (store send headerSize (labels.flatten ++ [0])) (rr + (rrSize + rdLen))) :
      Records bytes (reps + 1) send p
  | other {reps p rr rdLen : Nat} {send : Nat → UInt8} (told : Same send bytes headerSize p ∨ Other send bytes headerSize p)
      (ends : Ends bytes p rr) (length : field bytes (rr + 8) = some rdLen) (unwanted : ¬ (Same send bytes headerSize p ∧ Wanted bytes rr rdLen))
      (later : Records bytes reps send (rr + (rrSize + rdLen))) : Records bytes (reps + 1) send p

theorem questionsLasting (ques p : Nat) : Lasting fun n => questions bytes n ques p := by
  induction ques generalizing p with
  | zero => exact lastingConst _
  | succ ques ih =>
    intro n
    exact keepsBind (skipLasting p n) fun name => ih (name + 4) n

theorem questionsGives {ques p' : Nat} : Gives (fun n => questions bytes n ques p) p' ↔ Questions bytes ques p p' := by
  induction ques generalizing p with
  | zero =>
    refine givesConst.trans ⟨fun eq => Option.some.inj eq ▸ .none,fun questions => ?_⟩
    cases questions
    rfl
  | succ ques ih =>
    refine (givesBind (skipLasting p) fun name => questionsLasting ques (name + 4)).trans ?_
    simp only [skipGives,ih]
    constructor
    · rintro ⟨name,ends,later⟩
      exact .question ends later
    · intro questions
      cases questions with
      | question ends later => exact ⟨_,ends,later⟩

theorem fieldBefore {rr rdLen i : Nat} (length : field bytes (rr + 8) = some rdLen) (before : i ≤ 8) :
    ∃ v, field bytes (rr + i) = some v := by
  obtain ⟨a,_,rest⟩ := Option.bind_eq_some_iff.mp length
  obtain ⟨b,last,_⟩ := Option.map_eq_some_iff.mp rest
  have inside := (List.getElem?_eq_some_iff.mp last).1
  unfold field
  rw [List.getElem?_eq_getElem (by omega),List.getElem?_eq_getElem (by omega)]
  exact ⟨_,rfl⟩

section
variable {rr rdLen : Nat} {next : Nat → (Nat → UInt8) → Option Parsed}

theorem sameNameLasting (lasting : ∀ send, Lasting fun n => next n send) :
    Lasting fun n => sameName bytes n send rr rdLen (next n) := by
  intro n
  refine keepsBind (keepsSelf _) fun rrClass => ?_
  split
  · refine keepsBind (keepsSelf _) fun rrType => ?_
    split
    · exact keepsSelf _
    · split
      · exact keepsBind (copyLasting _ _ _ n) fun send => lasting send n
      · exact lasting send n
  · exact lasting send n

theorem sameNameAnswers (lasting : ∀ send, Lasting fun n => next n send) (length : field bytes (rr + 8) = some rdLen) :
    Answers (fun n => sameName bytes n send rr rdLen (next n)) ↔
      (field bytes (rr + 2) = some classIn ∧ field bytes rr = some typeA ∧ rdLen = 4 ∧ rr + rrSize + 4 ≤ bytes.length) ∨
      (field bytes (rr + 2) = some classIn ∧ field bytes rr = some typeCname ∧ ∃ labels, Expands bytes (rr + rrSize) labels ∧
        headerSize + (labels.flatten.length + 1) ≤ pktbufSize ∧ Answers fun n => next n (store send headerSize (labels.flatten ++ [0]))) ∨
      (¬ Wanted bytes rr rdLen ∧ Answers fun n => next n send) := by
  obtain ⟨rrClass,classAt⟩ := fieldBefore length (by decide : 2 ≤ 8)
  obtain ⟨rrType,typeAt⟩ := fieldBefore length (by decide : 0 ≤ 8)
  simp only [Nat.add_zero] at typeAt
  unfold sameName Wanted
  rw [classAt,typeAt]
  simp only [Option.bind_some,Option.some.injEq]
  by_cases inClass : rrClass = classIn
  · by_cases address : rrType = typeA ∧ rdLen = 4
    · obtain ⟨rfl,rfl⟩ := address
      by_cases inside : rr + rrSize + 4 ≤ bytes.length
      · simp [inClass,inside,Answers]
      · simp [inClass,inside,Answers,typeA,typeCname]
    · by_cases cname : rrType = typeCname
      · simp only [if_pos inClass,if_neg address,if_pos cname]
        rw [answersAfter (copyLasting _ _ _) lasting]
        simp only [copyGives]
        constructor
        · rintro ⟨_,⟨labels,expands,fits,rfl⟩,rest⟩
          exact Or.inr (Or.inl ⟨inClass,cname,labels,expands,fits,rest⟩)
        · rintro (⟨_,isAddress,four,_⟩ | ⟨_,_,labels,expands,fits,rest⟩ | ⟨unwanted,_⟩)
          · exact absurd ⟨isAddress,four⟩ address
          · exact ⟨_,⟨labels,expands,fits,rfl⟩,rest⟩
          · exact absurd ⟨inClass,Or.inr cname⟩ unwanted
      · simp only [if_pos inClass,if_neg address,if_neg cname]
        constructor
        · intro rest
          exact Or.inr (Or.inr ⟨fun wanted => wanted.2.elim address cname,rest⟩)
        · rintro (⟨_,isAddress,four,_⟩ | ⟨_,isCname,_⟩ | ⟨_,rest⟩)
          · exact absurd ⟨isAddress,four⟩ address
          · exact absurd isCname cname
          · exact rest
  · simp [inClass]

end

theorem repliesLasting (reps : Nat) (send : Nat → UInt8) (p : Nat) : Lasting fun n => replies bytes n reps send p := by
  induction reps generalizing send p with
  | zero => exact lastingConst _
  | succ reps ih =>
    intro n
    refine keepsBind (compareLasting _ _ n) fun same => keepsBind (skipLasting _ n) fun rr => keepsBind (keepsSelf _) fun rdLen => ?_
    split
    · exact sameNameLasting (fun send => ih send _) n
    · exact ih send _ n

theorem repliesAnswers {reps : Nat} : Answers (fun n => replies bytes n reps send p) ↔ Records bytes reps send p := by
  induction reps generalizing send p with
  | zero => exact iff_of_true (answersConst.2 rfl) .none
  | succ reps ih =>
    have rest (rr rdLen : Nat) (send : Nat → UInt8) : Lasting fun n => replies bytes n reps send (rr + (rrSize + rdLen)) :=
      repliesLasting reps send _
    let go (n : Nat) (same : Bool) (rr rdLen : Nat) : Option Parsed :=
      if same then sameName bytes n send rr rdLen fun send => replies bytes n reps send (rr + (rrSize + rdLen))
      else replies bytes n reps send (rr + (rrSize + rdLen))
    have record (same : Bool) (rr rdLen : Nat) : Lasting fun n => go n same rr rdLen := by
      cases same with
      | true => exact sameNameLasting (rest rr rdLen)
      | false => exact rest rr rdLen send
    have afterName (same : Bool) (rr : Nat) : Lasting fun n => (field bytes (rr + 8)).bind fun rdLen => go n same rr rdLen :=
      fun n => keepsBind (keepsSelf _) fun rdLen => record same rr rdLen n
    have afterCompare (same : Bool) : Lasting fun n => (dnsSkiplabel bytes n p).bind fun rr =>
        (field bytes (rr + 8)).bind fun rdLen => go n same rr rdLen :=
      fun n => keepsBind (skipLasting p n) fun rr => afterName same rr n
    have parts : Answers (fun n => replies bytes n (reps + 1) send p) ↔ ∃ same, Gives (fun n => dnsCompare send bytes n headerSize p) same ∧
        ∃ rr, Ends bytes p rr ∧ ∃ rdLen, field bytes (rr + 8) = some rdLen ∧ Answers fun n => go n same rr rdLen := by
      refine (answersAfter (compareLasting headerSize p) afterCompare).trans ?_
      refine exists_congr fun same => and_congr_right fun _ => (answersAfter (skipLasting p) (afterName same)).trans ?_
      refine exists_congr fun rr => and_congr skipGives ((answersAfter (lastingConst _) (record same rr)).trans ?_)
      exact exists_congr fun rdLen => and_congr givesConst Iff.rfl
    rw [parts]
    constructor
    · rintro ⟨same,compared,rr,ends,rdLen,length,later⟩
      cases same with
      | false =>
        have other := compareOther.1 compared
        refine .other (Or.inr other) ends length (fun same => ?_) (ih.mp later)
        exact Bool.noConfusion (givesOnly (compareLasting _ _) compared (compareSame.2 same.1))
      | true =>
        have same := compareSame.1 compared
        rcases (sameNameAnswers (rest rr rdLen) length).mp later with
          ⟨rrClass,rrType,rfl,inside⟩ | ⟨rrClass,rrType,labels,expands,fits,later⟩ | ⟨unwanted,later⟩
        · exact .answer same ends rrClass rrType length inside
        · exact .cname same ends rrClass rrType length expands fits (ih.mp later)
        · exact .other (Or.inl same) ends length (fun wanted => unwanted wanted.2) (ih.mp later)
    · intro records
      cases records with
      | answer same ends rrClass rrType length inside =>
        exact ⟨true,compareSame.2 same,_,ends,_,length,(sameNameAnswers (rest _ _) length).mpr (Or.inl ⟨rrClass,rrType,rfl,inside⟩)⟩
      | cname same ends rrClass rrType length expands fits later =>
        exact ⟨true,compareSame.2 same,_,ends,_,length,
          (sameNameAnswers (rest _ _) length).mpr (Or.inr (Or.inl ⟨rrClass,rrType,_,expands,fits,ih.mpr later⟩))⟩
      | other told ends length unwanted later =>
        rcases told with same | other
        · exact ⟨true,compareSame.2 same,_,ends,_,length,
            (sameNameAnswers (rest _ _) length).mpr (Or.inr (Or.inr ⟨fun wanted => unwanted ⟨same,wanted⟩,ih.mpr later⟩))⟩
        · exact ⟨false,compareOther.2 other,_,ends,_,length,ih.mpr later⟩

/- The buffer afterwards has other bytes only behind its header and in front of its end. -/
def Kept (send : Nat → UInt8) : Parsed → Prop
  | .badness => True
  | .done send' _ | .noAnswer send' _ => ∀ a, a < headerSize ∨ pktbufSize ≤ a → send' a = send a

theorem keptAfter {send' : Nat → UInt8} {parsed : Parsed} (same : ∀ a, a < headerSize ∨ pktbufSize ≤ a → send' a = send a)
    (kept : Kept send' parsed) : Kept send parsed := by
  cases parsed with
  | badness => exact True.intro
  | done mem result => exact fun a outside => (kept a outside).trans (same a outside)
  | noAnswer mem p => exact fun a outside => (kept a outside).trans (same a outside)

theorem repliesKept {reps turns : Nat} {parsed : Parsed} (ran : replies bytes turns reps send p = some parsed) : Kept send parsed := by
  induction reps generalizing send p with
  | zero =>
    rw [← Option.some.inj ran]
    exact fun _ _ => rfl
  | succ reps ih =>
    obtain ⟨same,_,ran⟩ := Option.bind_eq_some_iff.mp ran
    obtain ⟨rr,_,ran⟩ := Option.bind_eq_some_iff.mp ran
    obtain ⟨rdLen,_,ran⟩ := Option.bind_eq_some_iff.mp ran
    split at ran
    · obtain ⟨rrClass,_,ran⟩ := Option.bind_eq_some_iff.mp ran
      split at ran
      · obtain ⟨rrType,_,ran⟩ := Option.bind_eq_some_iff.mp ran
        split at ran
        · split at ran
          · rw [← Option.some.inj ran]
            exact fun _ _ => rfl
          · cases ran
        · split at ran
          · obtain ⟨mem,copied,ran⟩ := Option.bind_eq_some_iff.mp ran
            obtain ⟨labels,_,fits,rfl⟩ := copyGives.1 ⟨turns,copied⟩
            refine keptAfter (fun a outside => storeOutside ?_) (ih ran)
            simp only [List.length_append,List.length_singleton]
            omega
          · exact ih ran
      · exact ih ran
    · exact ih ran

/- The flags are bad, or the questions and the records are as they should be. -/
def WellFormed (send : Nat → UInt8) (bytes : Bytes) : Prop :=
  ∃ a b, bytes[2]? = some a ∧ bytes[3]? = some b ∧ (badFlags a b ∨ ∃ ques reps p,
    field bytes 4 = some ques ∧ field bytes 6 = some reps ∧ Questions bytes ques headerSize p ∧ Records bytes reps send p)

/- The parser ends and stays inside of both buffers. -/
theorem parseReplyInside (send : Nat → UInt8) (bytes : Bytes) :
    (∃ turns parsed, parseReply bytes turns send = some parsed ∧ Kept send parsed) ↔ WellFormed send bytes := by
  have behind (ques reps : Nat) : Answers (fun n => (questions bytes n ques headerSize).bind fun p => replies bytes n reps send p) ↔
      ∃ p, Questions bytes ques headerSize p ∧ Records bytes reps send p := by
    refine (answersAfter (questionsLasting ques headerSize) fun p => repliesLasting reps send p).trans ?_
    exact exists_congr fun p => and_congr questionsGives repliesAnswers
  unfold WellFormed parseReply
  cases first : bytes[2]? with
  | none => simp
  | some a =>
    cases second : bytes[3]? with
    | none => simp
    | some b =>
      by_cases bad : badFlags a b
      · simp [bad,Kept]
      simp only [Option.bind_some,if_neg bad,Option.some.injEq]
      constructor
      · rintro ⟨turns,parsed,ran,_⟩
        obtain ⟨ques,quesAt,ran⟩ := Option.bind_eq_some_iff.mp ran
        obtain ⟨reps,repsAt,ran⟩ := Option.bind_eq_some_iff.mp ran
        obtain ⟨p,counted,records⟩ := (behind ques reps).mp ⟨turns,parsed,ran⟩
        exact ⟨a,b,rfl,rfl,Or.inr ⟨ques,reps,p,quesAt,repsAt,counted,records⟩⟩
      · rintro ⟨_,_,rfl,rfl,flags | ⟨ques,reps,p,quesAt,repsAt,counted,records⟩⟩
        · exact absurd flags bad
        · obtain ⟨turns,parsed,ran⟩ := (behind ques reps).mpr ⟨p,counted,records⟩
          obtain ⟨p',_,ran'⟩ := Option.bind_eq_some_iff.mp ran
          exact ⟨turns,parsed,by rw [quesAt,repsAt]; exact ran,repliesKept ran'⟩

def ownPointer : Bytes := [0,1,0x81,0x80,0,0,0,1,0,0,0,0,0xc0,12]

theorem ownPointerLoops : ¬ ∃ turns parsed, parseReply ownPointer turns (store (fun _ => 0) headerSize [1,97,1,98,0]) = some parsed ∧
    Kept (store (fun _ => 0) headerSize [1,97,1,98,0]) parsed := by
  rintro ⟨turns,parsed,ran,_⟩
  have never (turns : Nat) (send : Nat → UInt8) : dnsCompare send ownPointer turns headerSize headerSize = none := by
    induction turns with
    | zero => rfl
    | succ turns ih => exact ih
  rw [parseReply,show ownPointer[2]? = some 0x81 by rfl,show ownPointer[3]? = some 0x80 by rfl,show field ownPointer 4 = some 0 by rfl,
    show field ownPointer 6 = some 1 by rfl,Option.bind_some,Option.bind_some,if_neg (by decide)] at ran
  simp only [Option.bind_some,questions,replies,never,Option.bind_none] at ran
  cases ran

end
end Syslinux.DnsReply
