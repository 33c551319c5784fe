import Syslinux.DnsQuery

/-! dns_resolv between its calls: what it sends, to which server, and what it makes of the replies. -/
namespace Syslinux.DnsResolv
open DnsReply DnsQuery

def isDigit (c : UInt8) : Prop := 48 ≤ c ∧ c ≤ 57
instance (c : UInt8) : Decidable (isDigit c) := by unfold isDigit; infer_instance

/- The digits of a part, which is a uint8_t. -/
def takePart : Bytes → Nat → Nat × Bytes
  | [],part => (part,[])
  | c::p,part => if isDigit c then takePart p ((part*10 + (c.toNat - 48)) % 2^8) else (part,c::p)

/- The parts of the address that are left; none for return false in the loop. -/
def dotquadLoop : Nat → Bytes → Nat → Option (Nat × Bytes)
  | 0,p,ip => some (ip,p)
  | left+1,p,ip =>
      let (part,p) := takePart p 0
      if left = 0 then some (ip*2^8 + part,p)
      else if p.head? ≠ some 46 then none
      else dotquadLoop left p.tail (ip*2^8 + part)

def htonl (n : Nat) : Nat := n % 2^8*2^24 + n / 2^8 % 2^8*2^16 + n / 2^16 % 2^8*2^8 + n / 2^24 % 2^8

/- The answer, and what is in *res. -/
def parseDotquad (ipStr : Bytes) : Bool × Nat :=
  match dotquadLoop 4 ipStr 0 with
  | none => (false,0)
  | some (ip,p) => (decide (p = []),htonl ip)

/- A 32-bit word as it lies in memory. -/
def word32 : Bytes → Nat
  | [] => 0
  | c::bytes => c.toNat + 2^8*word32 bytes

/- The words from dns_server on, both buffers as the last call has left them, LocalDomain, how far
DNSRecvBuf is from DNSSendBuf, and a number of turns for the parser of a reply. -/
structure Setup where
  dnsServer : Nat → Nat
  sendBuf : Nat → UInt8
  recvBuf : Nat → UInt8
  localDomain : {text : Bytes // 0 ∉ text}
  apart : Nat
  parserTurns : Nat

def timeoutTable : List Nat :=
  [2,2,3,3,4,5,6,7,9,10,12,15,18,21,26,31,37,44,53,64,77,92,110,132,159,191,229,255,255,255,255,0]

/- Before PXENV_UDP_WRITE, in the loop of PXENV_UDP_READ, or through. -/
inductive Pc where
  | write
  | read (oldtime : Nat)
  | returned (result : Nat)
  | undefined
  deriving DecidableEq, Repr

/- p is counted from DNSSendBuf. Sent are the server and the datagram of every PXENV_UDP_WRITE. -/
structure State where
  pc : Pc
  send : Nat → UInt8
  recv : Nat → UInt8
  p : Nat
  timeout : Nat
  srvPtr : Nat
  result : Nat
  sent : List (Nat × Bytes)

/- What a call comes to: whether a write succeeds, the clock, and the datagram that a read gets. -/
structure Turn where
  written : Bool
  now : Nat
  packet : Option Bytes
  deriving DecidableEq, Repr

section
variable (setup : Setup)

/- hd1: the new id, recursion requested, one question. The id is in the order of the processor. -/
def header : Bytes :=
  let id := word32 (read setup.sendBuf 0 2) + 1
  [UInt8.ofNat id,UInt8.ofNat (id / 2^8),1,0,0,1,0,0,0,0,0,0]

def nothingSent (pc : Pc) : State := ⟨pc,setup.sendBuf,setup.recvBuf,0,0,0,0,[]⟩

def start (name : Bytes) : State :=
  if name = [] then nothingSent setup (.returned 0)
  else if (parseDotquad name).1 then nothingSent setup (.returned (parseDotquad name).2)
  else if setup.dnsServer 0 = 0 then nothingSent setup (.returned 0)
  else match fillQuery (store setup.sendBuf 0 (header setup)) name setup.localDomain with
    | none => nothingSent setup .undefined
    | some (send,p) => ⟨.write,send,setup.recvBuf,p,timeoutTable.headD 0,0,(parseDotquad name).2,[]⟩

/- srv = *srv_ptr++, and from the front again at an entry that is 0. -/
def nextServer (s : State) : Nat × Nat :=
  if setup.dnsServer s.srvPtr = 0 then (setup.dnsServer 0,1) else (setup.dnsServer s.srvPtr,s.srvPtr + 1)

/- while (timeout) as far as the write; continue if it fails. -/
def udpWrite (s : State) (t : Turn) : State :=
  if s.timeout = 0 then { s with pc := .returned s.result }
  else { s with
    srvPtr := (nextServer setup s).2
    sent := s.sent ++ [((nextServer setup s).1,read s.send 0 (s.p % 2^16))]
    pc := if t.written then .read (t.now % 2^32) else .write }

/- From the label badness on: hd2->flags == htons(0x480), by the two bytes in memory. -/
def badness (s : State) (bytes : Bytes) : State :=
  if bytes[2]? = some 0x04 ∧ bytes[3]? = some 0x80 then { s with pc := .write } else { s with pc := .returned s.result }

def reply (s : State) (bytes : Bytes) : State :=
  match parseReply bytes setup.parserTurns s.send with
  | none => { s with pc := .undefined }
  | some .badness => badness s bytes
  | some (.done send result) => { s with send := send, pc := .returned (word32 result) }
  | some (.noAnswer send p) => badness { s with send := send, p := setup.apart + p } bytes

/- DNSRecvBuf with a datagram, and whether its id is the one that was sent. -/
def received (s : State) (packet : Bytes) : State := { s with recv := store s.recv 0 (packet.take pktbufSize) }
def sameId (s : State) : Prop := read s.recv 0 2 = read s.send 0 2
instance (s : State) : Decidable (sameId s) := by unfold sameId; infer_instance

def udpRead (s : State) (oldtime : Nat) (t : Turn) : State :=
  if s.timeout ≤ sub32 (t.now % 2^32) oldtime then { s with pc := .write }
  else match t.packet with
    | none => s
    | some packet => if sameId (received s packet) then reply setup (received s packet) (packet.take pktbufSize) else received s packet

def step (s : State) (t : Turn) : State :=
  match s.pc with
  | .write => udpWrite setup s t
  | .read oldtime => udpRead setup s oldtime t
  | .returned _ | .undefined => s

def after (name : Bytes) (turns : List Turn) : State := turns.foldl (step setup) (start setup name)

end

def domainLabels (localDomain : Bytes) : List Bytes := if localDomain = [] then [] else localDomain.splitOn 46
def queried (host : HostName) (localDomain : Bytes) : List Bytes :=
  host.labels ++ if host.more = [] then domainLabels localDomain else []

def AsksFor (setup : Setup) (host : HostName) : Prop :=
  (start setup host.text).pc ≠ .undefined ∧ ∀ turns, ∀ d ∈ (after setup host.text turns).sent,
    Decodes question (d.2.drop headerSize) (queried host setup.localDomain) ∧ ∀ d' ∈ (after setup host.text turns).sent, d'.2 = d.2

section
variable {setup : Setup} {name : Bytes} {s : State} {t : Turn}

theorem startEarly {pc : Pc} (early : start setup name = nothingSent setup pc) (notWrite : pc ≠ .write) (notRead : ∀ oldtime, pc ≠ .read oldtime)
    (turns : List Turn) : after setup name turns = nothingSent setup pc := by
  unfold after
  rw [early]
  induction turns with
  | nil => rfl
  | cons t turns ih =>
    have stays : step setup (nothingSent setup pc) t = nothingSent setup pc := by
      cases pc with
      | write => exact absurd rfl notWrite
      | read oldtime => exact absurd rfl (notRead oldtime)
      | returned result => rfl
      | undefined => rfl
    rw [List.foldl_cons,stays,ih]

theorem noAnswerLast {bytes : Bytes} {turns p : Nat} {send send' : Nat → UInt8}
    (parsed : parseReply bytes turns send = some (.noAnswer send' p)) : ¬ (bytes[2]? = some 0x04 ∧ bytes[3]? = some 0x80) := by
  rintro ⟨first,second⟩
  rw [parseReply,first,second,Option.bind_some,Option.bind_some,if_pos (by decide)] at parsed
  cases parsed

structure Sending (send : Nat → UInt8) (p : Nat) (s : State) : Prop where
  query : (s.pc = .write ∨ ∃ oldtime, s.pc = .read oldtime) → s.send = send ∧ s.p = p
  sent : ∀ d ∈ s.sent, d.2 = read send 0 (p % 2^16)

theorem badnessSending {send : Nat → UInt8} {p : Nat} {bytes : Bytes} (sent : ∀ d ∈ s.sent, d.2 = read send 0 (p % 2^16))
    (again : bytes[2]? = some 0x04 ∧ bytes[3]? = some 0x80 → s.send = send ∧ s.p = p) : Sending send p (badness s bytes) := by
  unfold badness
  split
  case isTrue flags => exact ⟨fun _ => again flags,sent⟩
  case isFalse =>
    refine ⟨?_,sent⟩
    rintro (write | ⟨_,read⟩)
    · cases write
    · cases read

theorem replySending {send : Nat → UInt8} {p : Nat} {bytes : Bytes} (same : s.send = send ∧ s.p = p)
    (sent : ∀ d ∈ s.sent, d.2 = read send 0 (p % 2^16)) : Sending send p (reply setup s bytes) := by
  unfold reply
  split
  · exact ⟨by rintro (write | ⟨_,read⟩) <;> contradiction,sent⟩
  · exact badnessSending sent fun _ => same
  · exact ⟨by rintro (write | ⟨_,read⟩) <;> contradiction,sent⟩
  case h_4 parsed => exact badnessSending sent fun flags => absurd flags (noAnswerLast parsed)

theorem stepSending {send : Nat → UInt8} {p : Nat} (sending : Sending send p s) (t : Turn) : Sending send p (step setup s t) := by
  unfold step
  split
  case h_1 write =>
    have same := sending.query (Or.inl write)
    unfold udpWrite
    split
    · exact ⟨by rintro (write | ⟨_,read⟩) <;> contradiction,sending.sent⟩
    · refine ⟨fun _ => same,fun d mem => ?_⟩
      rcases List.mem_append.mp mem with before | now
      · exact sending.sent d before
      · rw [List.mem_singleton.mp now,same.1,same.2]
  case h_2 oldtime reading =>
    have same := sending.query (Or.inr ⟨oldtime,reading⟩)
    unfold udpRead
    split
    · exact ⟨fun _ => same,sending.sent⟩
    · split
      · exact sending
      · split
        · exact replySending same sending.sent
        · exact ⟨fun _ => same,sending.sent⟩
  case h_3 => exact sending
  case h_4 => exact sending

theorem afterSending {send : Nat → UInt8} {p : Nat} (sending : Sending send p (start setup name)) (turns : List Turn) :
    Sending send p (after setup name turns) := by
  unfold after
  revert sending
  generalize start setup name = s
  intro sending
  induction turns generalizing s with
  | nil => exact sending
  | cons t turns ih => exact ih _ (stepSending sending t)

theorem hostText (host : HostName) : host.text ≠ [] := by
  have first := (host.plain host.first (by simp)).1
  simp [HostName.text,first]

theorem startQuery (host : HostName) (notQuad : (parseDotquad host.text).1 = false) (server : setup.dnsServer 0 ≠ 0) :
    start setup host.text = match fillQuery (store setup.sendBuf 0 (header setup)) host.text setup.localDomain with
      | none => nothingSent setup .undefined
      | some (send,p) => ⟨.write,send,setup.recvBuf,p,timeoutTable.headD 0,0,(parseDotquad host.text).2,[]⟩ := by
  rw [start,if_neg (hostText host),if_neg (by simp [notQuad]),if_neg server]

theorem readQuestion {send : Nat → UInt8} {bytes : Bytes} (fits : headerSize + bytes.length ≤ pktbufSize) :
    (read (store send headerSize bytes) 0 ((headerSize + bytes.length) % 2^16)).drop headerSize = bytes := by
  unfold pktbufSize at fits
  rw [Nat.mod_eq_of_lt (by omega),readAppend,Nat.zero_add,List.drop_left' readLength,readInside (Nat.le_refl _),List.take_length]

theorem querySent (host : HostName) {send : Nat → UInt8} {p : Nat} (notQuad : (parseDotquad host.text).1 = false)
    (server : setup.dnsServer 0 ≠ 0) (filled : fillQuery (store setup.sendBuf 0 (header setup)) host.text setup.localDomain = some (send,p)) :
    (start setup host.text).pc = .write ∧ ∀ turns, ∀ d ∈ (after setup host.text turns).sent, d.2 = read send 0 (p % 2^16) := by
  have begins := startQuery host notQuad server
  rw [filled] at begins
  have sending : Sending send p (start setup host.text) := by
    rw [begins]
    exact ⟨fun _ => ⟨rfl,rfl⟩,by simp⟩
  exact ⟨by rw [begins],fun turns => (afterSending sending turns).sent⟩

theorem unfilledUnasked (host : HostName) (notQuad : (parseDotquad host.text).1 = false) (server : setup.dnsServer 0 ≠ 0)
    (none' : fillQuery (store setup.sendBuf 0 (header setup)) host.text setup.localDomain = none) : ¬ AsksFor setup host := by
  rintro ⟨defined,_⟩
  rw [startQuery host notQuad server,none'] at defined
  exact defined rfl

theorem dotlessUnasked (host : HostName) (notQuad : (parseDotquad host.text).1 = false) (server : setup.dnsServer 0 ≠ 0)
    (dotless : host.more = []) : ¬ AsksFor setup host := by
  cases filled : fillQuery (store setup.sendBuf 0 (header setup)) host.text setup.localDomain with
  | none => exact unfilledUnasked host notQuad server filled
  | some r =>
    rintro ⟨_,asks⟩
    obtain ⟨send,p⟩ := r
    have same := fillDotless host setup.localDomain dotless filled
    have fits := fillFits filled
    obtain ⟨rfl,rfl⟩ := Prod.mk.inj same
    obtain ⟨_,sent⟩ := querySent host notQuad server filled
    have begins := startQuery host notQuad server
    rw [filled] at begins
    have first : (after setup host.text [⟨false,0,none⟩]).sent ≠ [] := by
      rw [after,begins]
      exact List.append_ne_nil_of_right_ne_nil _ (List.cons_ne_nil _ _)
    obtain ⟨d,mem⟩ := List.exists_mem_of_ne_nil _ first
    have decoded := (asks _ d mem).1
    rw [sent _ d mem,readQuestion fits] at decoded
    exact dotlessNotDecoded host setup.localDomain.2 dotless _ decoded

theorem asksForIff (setup : Setup) (host : HostName) : AsksFor setup host ↔ (parseDotquad host.text).1 = true ∨ setup.dnsServer 0 = 0 ∨
    (host.more ≠ [] ∧ headerSize + (wire host.labels ++ 0::question).length ≤ pktbufSize) := by
  have nothing {result : Nat} (early : start setup host.text = nothingSent setup (.returned result)) : AsksFor setup host := by
    refine ⟨by rw [early]; simp [nothingSent],fun turns d mem => ?_⟩
    rw [startEarly early (by simp) (by simp)] at mem
    cases mem
  by_cases quad : (parseDotquad host.text).1 = true
  · exact iff_of_true (nothing (by rw [start,if_neg (hostText host),if_pos quad])) (Or.inl quad)
  by_cases server : setup.dnsServer 0 = 0
  · exact iff_of_true (nothing (by rw [start,if_neg (hostText host),if_neg quad,if_pos server])) (Or.inr (Or.inl server))
  have notQuad : (parseDotquad host.text).1 = false := by simpa using quad
  by_cases dotless : host.more = []
  · exact iff_of_false (dotlessUnasked host notQuad server dotless) (by simp [quad,server,dotless])
  have filled := @fillDotted (store setup.sendBuf 0 (header setup)) host setup.localDomain dotless
  by_cases fits : headerSize + (wire host.labels ++ 0::question).length ≤ pktbufSize
  · refine iff_of_true ?_ (Or.inr (Or.inr ⟨dotless,fits⟩))
    rw [if_pos fits] at filled
    obtain ⟨begins,sent⟩ := querySent host notQuad server filled
    refine ⟨by rw [begins]; simp,fun turns d mem => ⟨?_,fun d' mem' => ?_⟩⟩
    · rw [sent turns d mem,readQuestion fits,queried,if_neg dotless,List.append_nil]
      exact decodesWire fun label here => ⟨(host.plain label here).1,(host.plain label here).2.1⟩
    · rw [sent turns d mem,sent turns d' mem']
  · rw [if_neg fits] at filled
    exact iff_of_false (unfilledUnasked host notQuad server filled) fun or' => or'.elim quad fun or' => or'.elim server fun both => fits both.2

def shortHost : HostName where
  first := [97]
  more := []
  tail := []
  plain := by simp
  ended := by simp

theorem shortHostUnasked : ¬ AsksFor ⟨fun i => if i = 0 then 1 else 0,fun _ => 0,fun _ => 0,⟨[98],by decide⟩,2048,0⟩ shortHost :=
  dotlessUnasked shortHost (by decide) (by decide) rfl

/- The servers that are configured, and the words of memory behind dns_server[]. -/
structure Servers where
  ips : List Nat
  some' : ips ≠ []
  atMost : ips.length ≤ 4
  nonzero : 0 ∉ ips
  behind : Nat → Nat

def Servers.words (servers : Servers) (i : Nat) : Nat := if i < 4 then servers.ips.getD i 0 else servers.behind i

def stateAt (setup : Setup) (name : Bytes) (net : Nat → Turn) (n : Nat) : State := after setup name ((List.range n).map net)

def NoMatch (setup : Setup) (name : Bytes) (net : Nat → Turn) : Prop :=
  ∀ n oldtime packet, (stateAt setup name net n).pc = .read oldtime → (net n).packet = some packet →
    ¬ sameId (received (stateAt setup name net n) packet)

/- It comes back with 0, having sent to these servers only and no more often than the table has it. -/
def GivesUp (setup : Setup) (name : Bytes) (net : Nat → Turn) (ips : List Nat) : Prop :=
  (∃ n, (stateAt setup name net n).pc = .returned 0) ∧
    ∀ n, (stateAt setup name net n).sent.length ≤ timeoutTable.dropLast.length ∧ ∀ d ∈ (stateAt setup name net n).sent, d.1 ∈ ips

theorem stateNext (setup : Setup) (name : Bytes) (net : Nat → Turn) (n : Nat) :
    stateAt setup name net (n + 1) = step setup (stateAt setup name net n) (net n) := by
  simp [stateAt,after,List.range_succ]

structure Trying (s : State) : Prop where
  pc : s.pc = .write ∨ ∃ oldtime, s.pc = .read oldtime
  timeout : s.timeout ≠ 0

theorem stepTrying (trying : Trying s) (t : Turn)
    (noMatch : ∀ oldtime packet, s.pc = .read oldtime → t.packet = some packet → ¬ sameId (received s packet)) : Trying (step setup s t) := by
  obtain ⟨pc,timeout⟩ := trying
  unfold step
  rcases pc with write | ⟨oldtime,reading⟩
  · rw [write]
    simp only [udpWrite,if_neg timeout]
    refine ⟨?_,timeout⟩
    by_cases written : t.written = true
    · exact Or.inr ⟨_,if_pos written⟩
    · exact Or.inl (if_neg written)
  · rw [reading]
    simp only [udpRead]
    split
    · exact ⟨Or.inl rfl,timeout⟩
    · split
      · exact ⟨Or.inr ⟨oldtime,reading⟩,timeout⟩
      case h_2 packet got =>
        rw [if_neg (noMatch oldtime packet reading got)]
        exact ⟨Or.inr ⟨oldtime,reading⟩,timeout⟩

theorem tryingFor {net : Nat → Turn} (noMatch : NoMatch setup name net) (begins : Trying (start setup name)) (n : Nat) :
    Trying (stateAt setup name net n) := by
  induction n with
  | zero => exact begins
  | succ n ih =>
    rw [stateNext]
    exact stepTrying ih (net n) (noMatch n)

theorem tryingNotUp {net : Nat → Turn} {ips : List Nat} (noMatch : NoMatch setup name net) (begins : Trying (start setup name)) :
    ¬ GivesUp setup name net ips := by
  rintro ⟨⟨n,returned⟩,_⟩
  rcases (tryingFor noMatch begins n).pc with write | ⟨oldtime,reading⟩
  · rw [write] at returned
    cases returned
  · rw [reading] at returned
    cases returned

theorem givesUpIff (setup : Setup) (servers : Servers) (name : Bytes) (net : Nat → Turn) (dnsServer : setup.dnsServer = servers.words)
    (noMatch : NoMatch setup name net) :
    GivesUp setup name net servers.ips ↔ name = [] ∨ parseDotquad name = (true,0) := by
  have early {pc : Pc} (start' : start setup name = nothingSent setup pc) (notWrite : pc ≠ .write) (notRead : ∀ oldtime, pc ≠ .read oldtime) :
      GivesUp setup name net servers.ips ↔ pc = .returned 0 := by
    have stays (n : Nat) : stateAt setup name net n = nothingSent setup pc := startEarly start' notWrite notRead _
    unfold GivesUp
    simp [stays,nothingSent]
  by_cases empty : name = []
  · rw [early (by rw [start,if_pos empty]) (by simp) (by simp)]
    simp [empty]
  by_cases quad : (parseDotquad name).1 = true
  · rw [early (by rw [start,if_neg empty,if_pos quad]) (by simp) (by simp)]
    simp [empty,Prod.ext_iff,quad]
  refine iff_of_false ?_ (by simp [empty,Prod.ext_iff,quad])
  have server : setup.dnsServer 0 ≠ 0 := by
    obtain ⟨ip,ips,eq⟩ := List.exists_cons_of_ne_nil servers.some'
    have nonzero := servers.nonzero
    rw [eq] at nonzero
    rw [dnsServer,Servers.words,if_pos (by decide),eq]
    exact fun zero => nonzero (by simp [show ip = 0 from zero])
  cases filled : fillQuery (store setup.sendBuf 0 (header setup)) name setup.localDomain with
  | none =>
    rw [early (by rw [start,if_neg empty,if_neg quad,if_neg server,filled]) (by simp) (by simp)]
    simp
  | some r =>
    have begins : Trying (start setup name) := by
      rw [start,if_neg empty,if_neg quad,if_neg server,filled]
      exact ⟨Or.inl rfl,show timeoutTable.headD 0 ≠ 0 by decide⟩
    exact tryingNotUp noMatch begins

def oneServer : Servers where
  ips := [1]
  some' := by simp
  atMost := by decide
  nonzero := by decide
  behind := fun _ => 0

def oneSetup : Setup := ⟨oneServer.words,fun _ => 0,fun _ => 0,⟨[],by decide⟩,2048,0⟩
def silent (n : Nat) : Turn := ⟨true,n,none⟩

theorem silentNoMatch : NoMatch oneSetup [97,46,98] silent := by
  intro n oldtime packet _ got
  cases got

theorem givesUpIffSilent : GivesUp oneSetup [97,46,98] silent oneServer.ips ↔ ([97,46,98] : Bytes) = [] ∨ parseDotquad [97,46,98] = (true,0) :=
  givesUpIff oneSetup oneServer [97,46,98] silent rfl silentNoMatch

theorem silentNeverUp : ¬ GivesUp oneSetup [97,46,98] silent oneServer.ips :=
  tryingNotUp silentNoMatch ⟨Or.inl (by decide),by decide⟩

end
end Syslinux.DnsResolv
