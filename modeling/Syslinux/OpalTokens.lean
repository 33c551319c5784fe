import Syslinux.OpalSession

/-! What unlockOpal makes of a SyncSession response: the format has an atom for small numbers and
atoms of one to four bytes, and the code reads some of them. -/
namespace Syslinux.Opal

inductive Atom
  | tiny (n : UInt8) (small : n < 64)
  | short (bytes : List UInt8) (some : bytes ≠ []) (few : bytes.length ≤ 4)

namespace Atom

def size : Atom → Nat
  | tiny .. => 0
  | short bytes .. => bytes.length

def encode : Atom → List UInt8
  | tiny n _ => [n]
  | short bytes .. => UInt8.ofNat (0x80 + bytes.length)::bytes

def value : Atom → Nat
  | tiny n _ => n.toNat
  | short bytes .. => bytes.foldl (fun v b => 2^8*v + b.toNat) 0

end Atom

def Holds (resp : Buffer) (off : Nat) (bytes : List UInt8) : Prop :=
  ∀ i (inside : i < bytes.length), resp (off+i) = bytes[i]

/- A response that is there: a call with its two names and a list that begins with both numbers. -/
structure SyncSession (hsn tsn : Atom) (resp : Buffer) : Prop where
  ready : outstandingData resp = 0 ∨ minTransfer resp ≠ 0
  call : resp sizeofHeader = 0xf8
  invoking : resp (sizeofHeader + 1) = 0xa8
  method : resp (sizeofHeader + 10) = 0xa8
  list : resp (sizeofHeader + 19) = 0xf0
  elements : Holds resp (sizeofHeader + 20) (hsn.encode ++ tsn.encode)

/- What the session still sends, with a TSN of four big-endian bytes. -/
def sessionPackets (d : DiskInfo) (tsn : Nat) : List Buffer :=
  [setTsn tsn (command unlock (comidOf d))] ++
  (if d.lockingMBREnabled then [setTsn tsn (command mbrDone (comidOf d))] else []) ++
  [setTsn tsn (command endSession (comidOf d))]

/- Whatever the drive does after this response, the unlock follows, and each packet carries the
number of the second element. -/
def GoesOn (resp : Buffer) (tsn : Atom) : Prop :=
  ∀ hash pass d p rest code p', exchange p.replies = some (some resp,rest) →
    unlockOpal hash pass d p = some (code,p') → ∃ packets,
      p'.sent = p.sent ++ setHash (hash (pass.take 256) d.serialNum) (command startSession (comidOf d))::packets ∧
      packets ≠ [] ∧ packets <+: sessionPackets d tsn.value ∧ ∀ packet ∈ packets, be32 packet 20 = tsn.value

def Readable (hsn tsn : Atom) : Prop := hsn.size ≠ 0 ∧ (tsn.size = 1 ∨ tsn.size = 2 ∨ tsn.size = 4)

section
variable {resp : Buffer} {off : Nat} {bytes more : List UInt8} {hsn tsn : Atom}

theorem holdsHead {b : UInt8} (holds : Holds resp off (b::bytes)) : resp off = b :=
  holds 0 (by simp)

theorem holdsTail {b : UInt8} (holds : Holds resp off (b::bytes)) : Holds resp (off+1) bytes := by
  intro i inside
  have at1 := holds (i+1) (by simpa using inside)
  rwa [List.getElem_cons_succ,show off + (i+1) = off + 1 + i by omega] at at1

theorem holdsBehind (holds : Holds resp off (bytes ++ more)) : Holds resp (off + bytes.length) more := by
  induction bytes generalizing off with
  | nil => exact holds
  | cons b bytes ih =>
    have later := ih (holdsTail holds)
    rwa [List.length_cons,show off + (bytes.length+1) = off + 1 + bytes.length by omega]

theorem tinyHeader {n : UInt8} (small : n < 64) : n &&& 0xf0 ≠ 0x80 := by
  intro same
  have numbers : n.toNat &&& 240 = 128 := by simpa using congrArg UInt8.toNat same
  have below : n.toNat &&& 240 ≤ n.toNat := Nat.and_le_left
  have least : n.toNat < 64 := small
  omega

theorem shortHeader {k : Nat} (few : k ≤ 4) :
    UInt8.ofNat (0x80 + k) &&& 0xf0 = 0x80 ∧ UInt8.ofNat (0x80 + k) &&& 0x0f = UInt8.ofNat k := by
  interval_cases k <;> decide

def readSecond (resp : Buffer) (pos : Nat) : Except Nat Nat :=
  if resp pos &&& 0xf0 ≠ 0x80 then .error 14 else
  if resp pos &&& 0x0f = 1 then .ok (resp (pos+1)).toNat
  else if resp pos &&& 0x0f = 2 then .ok (be16 resp (pos+1))
  else if resp pos &&& 0x0f = 4 then .ok (be32 resp (pos+1))
  else .error 15

theorem secondReads {pos : Nat} (holds : Holds resp pos tsn.encode) :
    readSecond resp pos = .ok tsn.value ∧ (tsn.size = 1 ∨ tsn.size = 2 ∨ tsn.size = 4) ∨
    (∃ code, readSecond resp pos = .error code) ∧ ¬ (tsn.size = 1 ∨ tsn.size = 2 ∨ tsn.size = 4) := by
  cases tsn with
  | tiny n small =>
    refine .inr ⟨⟨14,?_⟩,by simp [Atom.size]⟩
    rw [readSecond,holdsHead holds,if_pos (tinyHeader small)]
  | short bytes some few =>
    obtain ⟨top,length⟩ := shortHeader few
    have behind := holdsTail holds
    rw [readSecond,holdsHead holds,top,length]
    -- one case for each length
    match bytes,some,few,behind with
    | [a],_,_,behind =>
      have first := holdsHead behind
      exact .inl ⟨by simp [first,Atom.value],by simp [Atom.size]⟩
    | [a,b],_,_,behind =>
      have first := holdsHead behind
      have second := holdsHead (holdsTail behind)
      refine .inl ⟨?_,by simp [Atom.size]⟩
      simp [be16,first,second,Atom.value]
    | [a,b,c],_,_,_ => exact .inr ⟨⟨15,by simp⟩,by simp [Atom.size]⟩
    | [a,b,c,d],_,_,behind =>
      have first := holdsHead behind
      have second := holdsHead (holdsTail behind)
      have third := holdsHead (holdsTail (holdsTail behind))
      have fourth := holdsHead (holdsTail (holdsTail (holdsTail behind)))
      refine .inl ⟨?_,by simp [Atom.size]⟩
      simp [be32,first,second,third,fourth,Atom.value]
      omega

theorem readTsnReads (sync : SyncSession hsn tsn resp) :
    readTsn resp = .ok tsn.value ∧ Readable hsn tsn ∨ (∃ code, readTsn resp = .error code) ∧ ¬ Readable hsn tsn := by
  have call := sync.call
  have list := sync.list
  have elements := sync.elements
  cases hsn with
  | tiny n small =>
    refine .inr ⟨⟨13,?_⟩,fun readable => readable.1 rfl⟩
    have header : resp (sizeofHeader + 20) = n := holdsHead elements
    simp only [readTsn,call,list,header,ne_eq,not_true_eq_false,if_false]
    rw [if_pos (tinyHeader small)]
  | short bytes some few =>
    obtain ⟨top,length⟩ := shortHeader few
    have header : resp (sizeofHeader + 20) = UInt8.ofNat (0x80 + bytes.length) := holdsHead elements
    have second := holdsBehind elements
    have step : (UInt8.ofNat bytes.length).toNat = bytes.length := by
      rw [UInt8.toNat_ofNat']
      omega
    have reads : readTsn resp = readSecond resp (sizeofHeader + 20 + (bytes.length + 1)) := by
      simp only [readTsn,call,list,header,top,length,step,ne_eq,not_true_eq_false,if_false]
      rfl
    have sized : (Atom.short bytes some few).size ≠ 0 := by simpa [Atom.size] using some
    rw [reads]
    rcases secondReads second with ⟨read,known⟩ | ⟨refused,unknown⟩
    · exact .inl ⟨read,sized,known⟩
    · exact .inr ⟨refused,fun readable => unknown readable.2⟩

variable {hash : List UInt8 → List UInt8 → List UInt8} {pass : List UInt8} {d : DiskInfo} {p p' : Port}
variable {code n : Nat}

theorem closeSends (closed : closeSession (comidOf d) n p = some (code,p')) :
    p'.sent = p.sent ++ [setTsn n (command endSession (comidOf d))] := (closeSpec closed).1

theorem unlockSends (ran : unlockOpal hash pass d p = some (code,p')) {rest : List Reply}
    (answer : exchange p.replies = some (some resp,rest)) (read : readTsn resp = .ok n) : ∃ packets,
    p'.sent = p.sent ++ setHash (hash (pass.take 256) d.serialNum) (command startSession (comidOf d))::packets ∧
    packets ≠ [] ∧ packets <+: sessionPackets d n := by
  obtain ⟨⟨rc,got,p1⟩,first,ran⟩ := Option.bind_eq_some_iff.mp ran
  obtain ⟨sent1,answer1⟩ := execSpec first
  rw [answer] at answer1
  simp only [Option.some.injEq,Prod.mk.injEq] at answer1
  simp only at ran
  by_cases fine : rc = 0
  · rw [if_pos fine] at answer1
    obtain ⟨rfl⟩ := Option.some.inj answer1.1
    rw [if_neg (by simpa using fine),read] at ran
    obtain ⟨⟨rc2,resp2,p2⟩,second,ran⟩ := Option.bind_eq_some_iff.mp ran
    have sent2 := (execSpec second).1
    rw [sent1,List.append_assoc] at sent2
    -- the session stopped at the unlock
    have stopped : ∀ q : Port, q.sent = p2.sent → ∃ packets,
        q.sent = p.sent ++ setHash (hash (pass.take 256) d.serialNum) (command startSession (comidOf d))::packets ∧
        packets ≠ [] ∧ packets <+: sessionPackets d n := fun q same =>
      ⟨[setTsn n (command unlock (comidOf d))],by rw [same,sent2]; rfl,by simp,by simp [sessionPackets]⟩
    simp only at ran
    split at ran
    · cases ran
      exact stopped _ rfl
    split at ran
    · cases ran
      exact stopped _ rfl
    split at ran
    · cases ran
      exact stopped _ rfl
    split at ran
    · rename_i shadowed
      rcases mbrDoneSpec ran with ⟨_,_,sent3,_⟩ | ⟨_,sent3,_⟩
      · refine ⟨sessionPackets d n,?_,by simp [sessionPackets],List.prefix_rfl⟩
        rw [sent3,sent2,sessionPackets,if_pos shadowed]
        simp
      · refine ⟨[setTsn n (command unlock (comidOf d)),setTsn n (command mbrDone (comidOf d))],?_,by simp,?_⟩
        · rw [sent3,sent2]
          simp
        · rw [sessionPackets,if_pos shadowed]
          simp
    · rename_i plain
      refine ⟨sessionPackets d n,?_,by simp [sessionPackets],List.prefix_rfl⟩
      rw [closeSends ran,sent2,sessionPackets,if_neg plain]
      simp
  · rw [if_neg fine] at answer1
    cases answer1.1

theorem sessionCarries (small : n < 2^32) : ∀ packet ∈ sessionPackets d n, be32 packet 20 = n := by
  intro packet inside
  simp only [sessionPackets,List.mem_append,List.mem_singleton] at inside
  rcases inside with (rfl | mbr) | rfl
  · exact setTsnRead small _
  · split at mbr
    · rw [List.mem_singleton.mp mbr]
      exact setTsnRead small _
    · cases mbr
  · exact setTsnRead small _

def answering (resp : Buffer) : Port := ⟨[⟨0,resp⟩,⟨0,resp⟩],[],[]⟩

theorem answers (ready : outstandingData resp = 0 ∨ minTransfer resp ≠ 0) :
    exchange (answering resp).replies = some (some resp,[]) := by
  have done : ¬ (outstandingData resp ≠ 0 ∧ minTransfer resp = 0) := by
    rcases ready with none1 | some1
    · simp [none1]
    · simp [some1]
  simp [answering,exchange,receive,done]

theorem stopsUnread (ready : outstandingData resp = 0 ∨ minTransfer resp ≠ 0) (refused : readTsn resp = .error code)
    (hash : List UInt8 → List UInt8 → List UInt8) (pass : List UInt8) (d : DiskInfo) :
    ∃ p', unlockOpal hash pass d (answering resp) = some (code,p') ∧ p'.sent.length = 1 := by
  have done : ¬ (outstandingData resp ≠ 0 ∧ minTransfer resp = 0) := by
    rcases ready with none1 | some1
    · simp [none1]
    · simp [some1]
  simp [unlockOpal,answering,exec,receive,done,refused]

theorem stuck {tsn : Atom} (ready : outstandingData resp = 0 ∨ minTransfer resp ≠ 0)
    (refused : readTsn resp = .error code) : ¬ GoesOn resp tsn := by
  intro goesOn
  obtain ⟨p',ran,sent⟩ := stopsUnread ready refused (fun _ _ => []) [] opalDisk
  obtain ⟨packets,whole,some,-⟩ := goesOn _ _ _ _ [] _ _ (answers ready) ran
  rw [whole] at sent
  simp only [answering,List.nil_append,List.length_cons,Nat.add_eq_right,List.length_eq_zero_iff] at sent
  exact some sent

/- The unlock follows with the session's number unless an element is written in a way the code does
not know. -/
theorem goesOnIff (hsn tsn : Atom) (resp : Buffer) (sync : SyncSession hsn tsn resp) :
    GoesOn resp tsn ↔ Readable hsn tsn := by
  rcases readTsnReads sync with ⟨read,readable⟩ | ⟨⟨code,refused⟩,unreadable⟩
  · refine iff_of_true ?_ readable
    intro hash pass d p rest code p' answer ran
    obtain ⟨packets,sent,some,before⟩ := unlockSends ran answer read
    exact ⟨packets,sent,some,before,fun packet inside => sessionCarries (tsnSmall read) packet (before.subset inside)⟩
  · exact iff_of_false (stuck sync.ready refused) unreadable

end

def syncResponse (elements : List UInt8) : Buffer := fun i =>
  if i = 56 then 0xf8 else if i = 57 then 0xa8 else if i = 66 then 0xa8 else if i = 75 then 0xf0
  else if 76 ≤ i then elements.getD (i-76) 0 else 0

/- The session number 1 as a tiny atom behind the host's as a short one. -/
theorem tinyRefused : ¬ ∀ hsn tsn resp, SyncSession hsn tsn resp → GoesOn resp tsn := by
  intro all
  have sync : SyncSession (.short [0x69] (by decide) (by decide)) (.tiny 1 (by decide))
    (syncResponse [0x81,0x69,0x01]) := by
    refine ⟨by decide,by decide,by decide,by decide,by decide,?_⟩
    unfold Holds
    decide
  exact stuck sync.ready (show readTsn _ = .error 14 by rfl) (all _ _ _ sync)

/- Both numbers as short atoms, the second of four bytes. -/
theorem shortUnlocks :
    GoesOn (syncResponse [0x81,0x69,0x84,0x00,0x00,0x10,0x01]) (.short [0x00,0x00,0x10,0x01] (by decide) (by decide)) ↔
      Readable (.short [0x69] (by decide) (by decide)) (.short [0x00,0x00,0x10,0x01] (by decide) (by decide)) := by
  refine goesOnIff _ _ _ ⟨by decide,by decide,by decide,by decide,by decide,?_⟩
  unfold Holds
  decide

end Syslinux.Opal
