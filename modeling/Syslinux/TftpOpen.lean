import Syslinux.TftpOptions

/-! tftp_open as a whole, and the buffer that it leaves to tftp_get_packet. A reply whose options
are read behind its end has no defined result. -/
namespace Syslinux.TftpOpen
open Tftp TftpOptions

def timeoutTable : List Nat :=
  [2,2,3,3,4,5,6,7,9,10,12,15,18,21,26,31,37,44,53,64,77,92,110,132,159,191,229,255,255,255,255,0]

/- What core_udp_recv comes back with: an error, late when now - oldtime >= timeout, or a packet. -/
inductive Event where
  | nothing (late : Bool)
  | packet (fromServer : Bool) (bytes : List UInt8) (truncates : Bool)
  deriving DecidableEq, Repr

/- goto wait_pkt, or the end of tftp_open. -/
inductive Answer where
  | waitPkt (sock : Socket)
  | done (sock : Socket)

def errReply (sock : Socket) : Answer := .done { sock with size := 0 }

def answer (reply : List UInt8) (mallocs : List Bool) (sock : Socket) : Option Answer :=
  if getWord reply 0 = opError then some (.done { sock with size := 0 })
  else if getWord reply 0 = opData then
    if reply.length < 4 ∨ getWord reply 2 ≠ 1 then some (.waitPkt sock)
    else
      let sock := { sock with lastpkt := 1 }
      let data := reply.drop 4
      if tftpBlocksize < data.length then some (errReply sock)
      else if (malloc mallocs).1 then
        let sock := { sock with
          bytesleft := data.length
          dataptr := 0
          pktbuf := some (data ++ List.replicate (tftpBlocksize + 4 - data.length) 0) }
        if data.length < tftpBlocksize then some (.done { sock with size := data.length, goteof := true })
        else some (.done sock)
      else some (errReply sock)
  else if getWord reply 0 = opOack then
    (parseOack (store (fun _ => 0) 0 reply) reply.length sock).map fun (verdict,sock,_) =>
      match verdict with
      | .done => .done sock
      | .errReply => errReply sock
      | .parsed =>
          if sock.blksize < 64 ∨ pktbufSize < sock.blksize then errReply sock
          else if (malloc mallocs).1 then .done { sock with pktbuf := some (List.replicate (sock.blksize + 4) 0) }
          else errReply sock
  else some (errReply sock)

inductive Result where
  | returned (sock : Socket)
  | waiting (sock : Socket)
  | undefined
  deriving DecidableEq, Repr

/- From wait_pkt on, with what is left of the timeouts. -/
def waitPkt (mallocs : List Bool) : List Event → List Nat → Socket → Result
  | [],_,sock => .waiting sock
  | .nothing false::events,table,sock => waitPkt mallocs events table sock
  | .nothing true::events,table,sock => match table with
      | [] => .undefined
      | timeout::table => if timeout = 0 then .returned sock else waitPkt mallocs events table sock
  | .packet fromServer bytes truncates::events,table,sock =>
      let reply := coreUdpRecv bytes pktbufSize truncates
      if fromServer = true ∧ 2 ≤ reply.length then
        match answer reply mallocs { sock with size := 2^64 - 1, blksize := tftpBlocksize } with
        | none => .undefined
        | some (.done sock) => .returned sock
        | some (.waitPkt sock) => waitPkt mallocs events table sock
      else waitPkt mallocs events table sock

/- alloc_inode clears the socket. -/
def fresh : Socket := ⟨0,0,0,0,0,false,none,0⟩

def tftpOpen (udpOpens : Bool) (mallocs : List Bool) (events : List Event) : Result :=
  if udpOpens then waitPkt mallocs events timeoutTable.tail fresh else .returned fresh

def Ready (sock : Socket) : Prop :=
  ∃ buf, sock.pktbuf = some buf ∧ sock.blksize + 4 ≤ buf.length ∧ 64 ≤ sock.blksize ∧ sock.blksize ≤ pktbufSize

/- What comes after tftp_open: reads of the file, and the packets that tftp_get_packet receives. -/
inductive Later (c : Client) : Client → Prop where
  | opened : Later c c
  | read {d : Client} (blocks : Nat) (before : Later c d) : Later c (pxeGetfssec d blocks).1
  | packet {d e : Client} {sent : List Request} (bytes : List UInt8) (truncates : Bool) (before : Later c d)
      (got : tftpGetPacket d (coreUdpRecv bytes (d.sock.blksize + 4) truncates) = some (e,sent)) : Later c e

def Usable (sock : Socket) : Prop :=
  sock.size ≠ 0 → Ready sock ∧ ∀ c d : Client, c.sock = sock → Later c d → ∀ (bytes : List UInt8) (truncates : Bool),
    ∃ buf, d.sock.pktbuf = some buf ∧ (coreUdpRecv bytes (d.sock.blksize + 4) truncates).length ≤ buf.length

def Holds : Result → Prop
  | .returned sock => Usable sock
  | .waiting _ => True
  | .undefined => False

/- The options leave tftp_open without a buffer for the file that it has found: behind options
that were asked for there is a null option, and the size is not 0; or the packet ends in the value
of an option that was asked for. -/
def lastTsize (offer : List Opt) (size : Nat) : Nat :=
  offer.foldl (fun size o => if o.name.map lower = tsizeName then readNumber o.value 0 else size) size

def Loose (size : Nat) (options : List UInt8) : Prop :=
  ∃ (offer : List Opt) (rest : List UInt8), (∀ o ∈ offer, Asked o) ∧ options = offer.flatMap Opt.encode ++ rest ∧
    ((∃ garbage, rest = 0::garbage ∧ lastTsize offer size ≠ 0) ∨ ∃ o, Asked o ∧ o.value ≠ [] ∧ rest = o.name ++ 0::o.value)

section
variable {size : Nat} {name digits : List UInt8} {sock : Socket}

theorem looseName {options : List UInt8} (loose : Loose size options) :
    (∃ garbage, options = 0::garbage ∧ size ≠ 0) ∨ ∃ name value, name ≠ [] ∧ 0 ∉ name ∧ value ≠ [] ∧ options = name ++ 0::value := by
  have named {o : Opt} (asked : Asked o) : o.name ≠ [] ∧ 0 ∉ o.name :=
    ⟨nameNotEmpty asked.1,fun nul => nameNotZero asked.1 0 nul rfl⟩
  obtain ⟨offer,rest,asked,rfl,last⟩ := loose
  cases offer with
  | nil =>
    rcases last with ⟨garbage,rfl,found⟩ | ⟨o,asked,more,rfl⟩
    · exact Or.inl ⟨garbage,rfl,found⟩
    · exact Or.inr ⟨o.name,o.value,(named asked).1,(named asked).2,more,rfl⟩
  | cons o offer =>
    obtain ⟨some',noNul⟩ := named (asked o (by simp))
    exact Or.inr ⟨o.name,o.value ++ 0::(offer.flatMap Opt.encode ++ rest),some',noNul,by simp,by simp [Opt.encode]⟩

theorem looseStep {value tail : List UInt8} (some' : name ≠ []) (noNul : 0 ∉ name) (all : Digits digits)
    (stop : ∀ c ∈ tail.head?, ¬ (48 ≤ c.toNat ∧ c.toNat ≤ 57)) (parts : value = digits ++ tail) :
    Loose size (name ++ 0::value) ↔ (name.map lower = tsizeName ∨ name.map lower = blksizeName) ∧ ((digits ≠ [] ∧ tail = []) ∨
      ∃ rest, tail = 0::rest ∧ Loose (if name.map lower = tsizeName then readNumber digits 0 else size) rest) := by
  constructor
  · rintro ⟨offer,rest,asked,eq,last⟩
    cases offer with
    | nil =>
      rcases last with ⟨garbage,rfl,_⟩ | ⟨o,here,more,rfl⟩
      · have first := partUnique (P := fun c => c ≠ 0) (a := name) (b := []) (fun c mem nul => noNul (nul ▸ mem)) (by simp)
          (by simp) (by simp) eq
        exact absurd first.1 some'
      · obtain ⟨same,behind⟩ := nameSame noNul (fun nul => nameNotZero here.1 0 nul rfl) eq
        obtain ⟨same',nothing⟩ := partUnique (t := []) all here.2 stop (by simp) (by rw [← parts,behind,List.append_nil])
        exact ⟨by rw [same]; exact here.1,Or.inl ⟨by rwa [same'],nothing⟩⟩
    | cons o offer =>
      obtain ⟨rfl,behind⟩ := offerStep noNul all stop parts (asked o (by simp)) eq
      exact ⟨(asked ⟨name,digits⟩ (by simp)).1,Or.inr ⟨_,behind,offer,rest,fun p mem => asked p (by simp [mem]),rfl,last⟩⟩
  · rintro ⟨known,⟨more,nothing⟩ | ⟨rest,behind,offer,rest',asked,eq,last⟩⟩
    · exact ⟨[],name ++ 0::value,by simp,rfl,Or.inr ⟨⟨name,digits⟩,⟨known,all⟩,more,by rw [parts,nothing,List.append_nil]⟩⟩
    · refine ⟨⟨name,digits⟩::offer,rest',?_,?_,last⟩
      · intro o mem
        rcases List.mem_cons.mp mem with rfl | mem
        · exact ⟨known,all⟩
        · exact asked o mem
      · rw [parts,behind,eq]
        simp [Opt.encode]

def Spoils : Option (Verdict × Socket × Int) → Prop
  | none => True
  | some (.done,sock,_) => sock.size ≠ 0
  | some _ => False

theorem settingSize {opdata : Nat} {sock' : Socket} (set : setting name opdata sock = some sock') :
    (sock'.size = if name.map lower = tsizeName then opdata else sock.size) ∧ sock'.pktbuf = sock.pktbuf := by
  unfold setting at set
  split at set
  case isTrue tsize =>
    rw [← Option.some.inj set,if_pos tsize]
    exact ⟨rfl,rfl⟩
  case isFalse other =>
    rw [if_neg other]
    split at set
    · rw [← Option.some.inj set]
      exact ⟨rfl,rfl⟩
    · cases set

theorem readingKeeps {options : List UInt8} {r : Option (Verdict × Socket × Int)} (reading : Reading options sock r) :
    ∀ last ∈ r, last.2.1.pktbuf = sock.pktbuf := by
  induction reading with
  | known some' noNul all set later ih => exact fun last mem => (ih last mem).trans (settingSize set).2
  | _ => simp

theorem readingSpoils {options : List UInt8} {r : Option (Verdict × Socket × Int)} (reading : Reading options sock r) :
    Spoils r ↔ Loose sock.size options := by
  induction reading with
  | nothing => exact iff_of_false (fun spoils => spoils) fun loose => by simpa using looseName loose
  | @null sock garbage =>
    refine ⟨fun found => ⟨[],0::garbage,by simp,rfl,Or.inl ⟨garbage,rfl,found⟩⟩,fun loose => ?_⟩
    rcases looseName loose with ⟨_,_,found⟩ | ⟨name,value,some',noNul,_,eq⟩
    · exact found
    · exact absurd (partUnique (P := fun c => c ≠ 0) (a := []) (by simp) (fun c mem nul => noNul (nul ▸ mem)) (by simp) (by simp) eq).1.symm some'
  | @noValue sock name tail some' noNul last =>
    refine iff_of_false (fun spoils => spoils) fun loose => ?_
    rcases last with rfl | rfl
    · rw [List.append_nil] at loose
      rcases looseName loose with ⟨_,rfl,_⟩ | ⟨_,_,_,_,_,rfl⟩ <;> simp at noNul
    · simpa using (looseStep some' noNul (by simp [Digits]) (by simp) (List.append_nil []).symm).mp loose
  | notDigit some' noNul all other notNul =>
    rw [looseStep some' noNul all (by simpa using other) rfl]
    simp [Spoils,notNul]
  | unknown some' noNul all refused =>
    rw [looseStep some' noNul all (by simp) rfl]
    have not' := mt settingKnown.2 (not_not.mpr refused)
    simp [Spoils,not']
  | known some' noNul all set later ih =>
    have asked := settingKnown.1 (by rw [set]; exact Option.some_ne_none _)
    rw [ih,looseStep some' noNul all (by simp) rfl,(settingSize set).1]
    simp [asked]
  | unknownCut some' noNul all more refused =>
    rw [looseStep some' noNul all (by simp) (List.append_nil _).symm]
    have not' := mt settingKnown.2 (not_not.mpr refused)
    simp [Spoils,not']
  | knownCut some' noNul all more set =>
    have asked := settingKnown.1 (by rw [set]; exact Option.some_ne_none _)
    rw [looseStep some' noNul all (by simp) (List.append_nil _).symm]
    simp [Spoils,asked,more]

theorem readLoopKeeps (turns count : Nat) (c : Client) : (readLoop turns c count).1.sock.pktbuf = c.sock.pktbuf ∧
    (readLoop turns c count).1.sock.blksize = c.sock.blksize := by
  have finish (c : Client) : (finishRead c).1.sock = c.sock := by
    unfold finishRead
    split
    · split <;> rfl
    · split <;> rfl
  induction turns generalizing count c with
  | zero => exact ⟨congrArg _ (finish c),congrArg _ (finish c)⟩
  | succ turns ih =>
    rw [readLoop]
    split
    · exact ⟨congrArg _ (finish c),congrArg _ (finish c)⟩
    · split
      · exact ⟨rfl,rfl⟩
      · split
        · exact ⟨congrArg _ (finish c),congrArg _ (finish c)⟩
        · exact ih _ _

theorem resumeKeeps (c : Client) : (resume c).1.sock.pktbuf = c.sock.pktbuf ∧ (resume c).1.sock.blksize = c.sock.blksize := by
  unfold resume
  split
  · exact readLoopKeeps _ _ c
  · exact ⟨rfl,rfl⟩

theorem receivedFits (bytes : List UInt8) (n : Nat) (truncates : Bool) : (coreUdpRecv bytes n truncates).length ≤ n := by
  unfold coreUdpRecv
  split
  · assumption
  · split <;> simp

theorem getPacketKeeps {c e : Client} {bytes : List UInt8} {sent : List Request} (got : tftpGetPacket c bytes = some (e,sent)) :
    ∃ buf, c.sock.pktbuf = some buf ∧ e.sock.pktbuf = some (bytes ++ buf.drop bytes.length) ∧ e.sock.blksize = c.sock.blksize := by
  obtain ⟨buf,pktbuf,eq⟩ := Option.map_eq_some_iff.mp got
  have client : e = (e,sent).1 := rfl
  refine ⟨buf,pktbuf,?_⟩
  rw [client,← eq]
  simp only
  split
  · exact ⟨rfl,rfl⟩
  · split
    · exact ⟨rfl,rfl⟩
    · split
      · exact resumeKeeps _
      · exact resumeKeeps _

theorem laterReady {c d : Client} (later : Later c d) (ready : Ready c.sock) : Ready d.sock := by
  induction later with
  | opened => exact ready
  | @read d blocks before ih =>
    obtain ⟨buf,pktbuf,big,range⟩ := ih
    have same := readLoopKeeps (blocks*tftpBlocksize) (blocks*tftpBlocksize) { d with haveMore := none }
    exact ⟨buf,same.1.trans pktbuf,by rw [pxeGetfssec,same.2]; exact big,by rw [pxeGetfssec,same.2]; exact range⟩
  | @packet d e sent bytes truncates before got ih =>
    obtain ⟨buf,pktbuf,big,range⟩ := ih
    obtain ⟨buf',pktbuf',stored,blksize⟩ := getPacketKeeps got
    obtain rfl : buf = buf' := Option.some.inj (pktbuf.symm.trans pktbuf')
    have fits := receivedFits bytes (d.sock.blksize + 4) truncates
    refine ⟨_,stored,?_,by rw [blksize]; exact range⟩
    rw [blksize,List.length_append,List.length_drop]
    omega

theorem readyUsable (ready : Ready sock) : Usable sock := by
  refine fun _ => ⟨ready,fun c d opened later bytes truncates => ?_⟩
  obtain ⟨buf,pktbuf,big,_⟩ := laterReady later (opened ▸ ready)
  exact ⟨buf,pktbuf,Nat.le_trans (receivedFits _ _ _) big⟩

def Awaits (reply : List UInt8) : Prop := getWord reply 0 = opData ∧ (reply.length < 4 ∨ getWord reply 2 ≠ 1)

theorem closedUsable : Usable { sock with size := 0 } := fun found => absurd rfl found

theorem dataUsable {buf : List UInt8} (pktbuf : sock.pktbuf = some buf) (length : buf.length = tftpBlocksize + 4)
    (blksize : sock.blksize = tftpBlocksize) : Usable sock :=
  readyUsable ⟨buf,pktbuf,by rw [blksize,length],by rw [blksize]; decide⟩

theorem readReply {reply : List UInt8} (two : 2 ≤ reply.length) :
    read (store (fun _ => 0) 0 reply) 2 (reply.length - 2) = reply.drop 2 := by
  have whole : read (store (fun _ => 0) 0 reply) 0 (2 + (reply.length - 2)) = reply.take 2 ++ reply.drop 2 := by
    rw [readInside (by omega),show 2 + (reply.length - 2) = reply.length by omega,List.take_length,List.take_append_drop]
  rw [readAppend] at whole
  exact (List.append_inj whole (by rw [readLength,List.length_take]; omega)).2

theorem answerWaits {reply : List UInt8} (mallocs : List Bool) (waits : Awaits reply) :
    answer reply mallocs sock = some (.waitPkt sock) := by
  obtain ⟨data,short⟩ := waits
  rw [answer,if_neg (by rw [data]; decide),if_pos data,if_pos short]

theorem waitsAnswer {reply : List UInt8} {mallocs : List Bool} {sock' : Socket} (said : answer reply mallocs sock = some (.waitPkt sock')) :
    Awaits reply := by
  unfold answer at said
  split at said
  · cases said
  · split at said
    case isTrue data =>
      split at said
      case isTrue short => exact ⟨data,short⟩
      case isFalse =>
        simp only at said
        split at said
        · cases said
        · split at said
          · split at said <;> cases said
          · cases said
    case isFalse =>
      split at said
      · obtain ⟨⟨verdict,sock',c⟩,_,eq⟩ := Option.map_eq_some_iff.mp said
        simp only at eq
        split at eq
        · cases eq
        · cases eq
        · split at eq
          · cases eq
          · split at eq <;> cases eq
      · cases said

theorem answerUsable {reply : List UInt8} (mallocs : List Bool) (two : 2 ≤ reply.length) (ends : ¬ Awaits reply)
    (empty : sock.pktbuf = none) (block : sock.blksize = tftpBlocksize) :
    (∃ sock', answer reply mallocs sock = some (.done sock') ∧ Usable sock') ↔
      ¬ (getWord reply 0 = opOack ∧ Loose sock.size (reply.drop 2)) := by
  unfold answer
  by_cases error : getWord reply 0 = opError
  · rw [if_pos error]
    exact iff_of_true ⟨_,rfl,closedUsable⟩ (by rw [error]; simp [opError,opOack])
  rw [if_neg error]
  by_cases data : getWord reply 0 = opData
  · refine iff_of_true ?_ (by rw [data]; simp [opData,opOack])
    rw [if_pos data,if_neg (fun waits => ends ⟨data,waits⟩)]
    simp only
    split
    · exact ⟨_,rfl,closedUsable⟩
    case isFalse small =>
      have length : (reply.drop 4 ++ List.replicate (tftpBlocksize + 4 - (reply.drop 4).length) (0 : UInt8)).length = tftpBlocksize + 4 := by
        rw [List.length_append,List.length_replicate]
        omega
      split
      · split
        · exact ⟨_,rfl,dataUsable rfl length block⟩
        · exact ⟨_,rfl,dataUsable rfl length block⟩
      · exact ⟨_,rfl,closedUsable⟩
  rw [if_neg data]
  by_cases oack : getWord reply 0 = opOack
  · have reading := parseOackReading (store (fun _ => 0) 0 reply) (reply.length - 2) sock
    rw [readReply two,show 2 + (reply.length - 2) = reply.length by omega] at reading
    rw [if_pos oack,← readingSpoils reading]
    have keeps := readingKeeps reading
    cases parsed : parseOack (store (fun _ => 0) 0 reply) reply.length sock with
    | none => simp [Spoils,oack]
    | some r =>
      obtain ⟨verdict,sock',c⟩ := r
      rw [parsed] at keeps
      have pktbuf : sock'.pktbuf = none := (keeps _ rfl).trans empty
      simp only [Option.map_some,oack,true_and]
      cases verdict with
      | done =>
        -- No buffer: only a file that was not found is left.
        have notReady : Usable sock' ↔ sock'.size = 0 := by
          refine ⟨fun usable => Decidable.byContradiction fun found => ?_,fun gone found => absurd gone found⟩
          obtain ⟨⟨buf,there,_⟩,_⟩ := usable found
          rw [pktbuf] at there
          cases there
        simp [Spoils,notReady]
      | errReply => exact iff_of_true ⟨_,rfl,closedUsable⟩ fun spoils => spoils
      | parsed =>
        refine iff_of_true ?_ fun spoils => spoils
        simp only
        split
        · exact ⟨_,rfl,closedUsable⟩
        case isFalse range =>
          split
          · exact ⟨_,rfl,readyUsable ⟨_,rfl,by rw [List.length_replicate],by simp only; omega⟩⟩
          · exact ⟨_,rfl,closedUsable⟩
  · rw [if_neg oack]
    exact iff_of_true ⟨_,rfl,closedUsable⟩ fun spoils => oack spoils.1

def Event.reply : Event → Option (List UInt8)
  | .packet true bytes truncates =>
      if 2 ≤ (coreUdpRecv bytes pktbufSize truncates).length then some (coreUdpRecv bytes pktbufSize truncates) else none
  | _ => none

def lates (events : List Event) : Nat := events.count (.nothing true)

/- No reply has ended the wait yet, and now one with options that leave no buffer does, or the last
timeout after a reply that the client has waited on at. left timeouts can be taken. -/
def SpoiltAt (left : Nat) (again : Prop) (events : List Event) : Prop :=
  ∃ (before : List Event) (e : Event) (after : List Event), events = before ++ e::after ∧
    (∀ x ∈ before, ∀ reply ∈ x.reply, Awaits reply) ∧
    ((∃ reply, e.reply = some reply ∧ getWord reply 0 = opOack ∧ Loose (2^64 - 1) (reply.drop 2) ∧ lates before ≤ left) ∨
      (e = .nothing true ∧ lates before = left ∧ (again ∨ ∃ x ∈ before, x.reply.isSome)))

def Spoilt (events : List Event) : Prop := SpoiltAt 30 False events

variable {left : Nat} {again : Prop} {x : Event} {events : List Event}

theorem spoiltEnd : ¬ SpoiltAt left again [] := by
  rintro ⟨before,e,after,eq,_⟩
  simp at eq

/- By the first event: one that ends the wait, and one that does not. -/
theorem spoiltEnds {reply : List UInt8} (got : x.reply = some reply) (ends : ¬ Awaits reply) :
    SpoiltAt left again (x::events) ↔ getWord reply 0 = opOack ∧ Loose (2^64 - 1) (reply.drop 2) := by
  constructor
  · rintro ⟨before,e,after,eq,waited,last⟩
    cases before with
    | cons y before =>
      obtain ⟨rfl,_⟩ := List.cons.inj eq
      exact absurd (waited x (by simp) reply got) ends
    | nil =>
      obtain ⟨rfl,_⟩ := List.cons.inj eq
      rcases last with ⟨reply',got',oack,loose,_⟩ | ⟨rfl,_⟩
      · obtain rfl : reply = reply' := Option.some.inj (got.symm.trans got')
        exact ⟨oack,loose⟩
      · cases got
  · rintro ⟨oack,loose⟩
    exact ⟨[],x,events,rfl,by simp,Or.inl ⟨reply,got,oack,loose,Nat.zero_le _⟩⟩

theorem spoiltStep (waits : ∀ reply ∈ x.reply, Awaits reply) : SpoiltAt left again (x::events) ↔
    (x = .nothing true ∧ left = 0 ∧ again) ∨ (lates [x] ≤ left ∧ SpoiltAt (left - lates [x]) (again ∨ x.reply.isSome) events) := by
  have more (before : List Event) : lates (x::before) = lates [x] + lates before := by
    rw [← List.singleton_append]
    exact List.count_append
  constructor
  · rintro ⟨before,e,after,eq,waited,last⟩
    cases before with
    | nil =>
      obtain ⟨rfl,_⟩ := List.cons.inj eq
      rcases last with ⟨reply,got,oack,_⟩ | ⟨late,none',again | ⟨_,mem,_⟩⟩
      · have data := (waits reply got).1
        rw [oack] at data
        exact absurd data (by decide)
      · exact Or.inl ⟨late,none'.symm,again⟩
      · cases mem
    | cons y before =>
      obtain ⟨rfl,rfl⟩ := List.cons.inj eq
      rw [more] at last
      refine Or.inr ⟨by omega,before,e,after,rfl,fun y mem => waited y (by simp [mem]),?_⟩
      rcases last with ⟨reply,got,oack,loose,few⟩ | ⟨late,all,waited'⟩
      · exact Or.inl ⟨reply,got,oack,loose,by omega⟩
      · refine Or.inr ⟨late,by omega,?_⟩
        rcases waited' with again | ⟨y,mem,got⟩
        · exact Or.inl (Or.inl again)
        · rcases List.mem_cons.mp mem with rfl | mem
          · exact Or.inl (Or.inr got)
          · exact Or.inr ⟨y,mem,got⟩
  · rintro (⟨rfl,rfl,again⟩ | ⟨few,before,e,after,rfl,waited,last⟩)
    · exact ⟨[],_,events,rfl,by simp,Or.inr ⟨rfl,rfl,Or.inl again⟩⟩
    · refine ⟨x::before,e,after,rfl,?_,?_⟩
      · intro y mem
        rcases List.mem_cons.mp mem with rfl | mem
        · exact waits
        · exact waited y mem
      · rw [more]
        rcases last with ⟨reply,got,oack,loose,few⟩ | ⟨late,all,(again | got) | ⟨y,mem,got⟩⟩
        · exact Or.inl ⟨reply,got,oack,loose,by omega⟩
        · exact Or.inr ⟨late,by omega,Or.inl again⟩
        · exact Or.inr ⟨late,by omega,Or.inr ⟨x,by simp,got⟩⟩
        · exact Or.inr ⟨late,by omega,Or.inr ⟨y,by simp [mem],got⟩⟩

/- Over the events; the size of the socket is 0 as long as no reply has come. -/
theorem waitPktHolds (mallocs : List Bool) {timeouts : List Nat} (nonzero : 0 ∉ timeouts) (empty : sock.pktbuf = none)
    (found : sock.size ≠ 0 ↔ again) :
    Holds (waitPkt mallocs events (timeouts ++ [0]) sock) ↔ ¬ SpoiltAt timeouts.length again events := by
  induction events generalizing timeouts sock again with
  | nil => exact iff_of_true True.intro spoiltEnd
  | cons x events ih =>
    have waitsOn (silent : x.reply = none) (early : lates [x] = 0) :
        SpoiltAt timeouts.length again (x::events) ↔ SpoiltAt timeouts.length again events := by
      rw [spoiltStep (by rw [silent]; simp),early,silent]
      have other : x ≠ .nothing true := by
        rintro rfl
        exact absurd early (by decide)
      simp [other]
    rcases x with (_ | _) | ⟨fromServer,bytes,truncates⟩
    · rw [waitPkt,waitsOn rfl (by decide)]
      exact ih nonzero empty found
    · -- The timeout has passed.
      rw [spoiltStep (by simp [Event.reply])]
      cases timeouts with
      | nil =>
        rw [List.nil_append,waitPkt,if_pos rfl]
        have notReady : Usable sock ↔ ¬ again := by
          rw [← found]
          refine ⟨fun usable size => ?_,fun gone size => absurd size gone⟩
          obtain ⟨⟨buf,there,_⟩,_⟩ := usable size
          rw [empty] at there
          cases there
        simp [Holds,notReady,lates]
      | cons timeout timeouts =>
        have more : timeout ≠ 0 := fun zero => nonzero (by simp [zero])
        rw [List.cons_append,waitPkt,if_neg more,ih (fun zero => nonzero (by simp [zero])) empty found]
        simp [lates,Event.reply]
    · rw [waitPkt]
      by_cases server : fromServer = true ∧ 2 ≤ (coreUdpRecv bytes pktbufSize truncates).length
      · obtain ⟨rfl,two⟩ := server
        have got : (Event.packet true bytes truncates).reply = some (coreUdpRecv bytes pktbufSize truncates) := by
          rw [Event.reply,if_pos two]
        rw [if_pos ⟨rfl,two⟩]
        by_cases waits : Awaits (coreUdpRecv bytes pktbufSize truncates)
        · have other : lates [Event.packet true bytes truncates] = 0 := by simp [lates]
          rw [answerWaits mallocs waits,spoiltStep (by rw [got]; intro reply mem; exact Option.some.inj mem ▸ waits),other,got]
          have size : ({ sock with size := 2^64 - 1, blksize := tftpBlocksize } : Socket).size ≠ 0 ↔ again ∨ True := by simp
          simpa using ih nonzero (by exact empty) size
        · rw [spoiltEnds got waits,← @answerUsable { sock with size := 2^64 - 1, blksize := tftpBlocksize } _ mallocs two waits empty rfl]
          cases said : answer (coreUdpRecv bytes pktbufSize truncates) mallocs { sock with size := 2^64 - 1, blksize := tftpBlocksize } with
          | none => simp [Holds]
          | some last =>
            cases last with
            | waitPkt sock' => exact absurd (waitsAnswer said) waits
            | done sock' => simp [Holds]
      · have silent : (Event.packet fromServer bytes truncates).reply = none := by
          cases fromServer with
          | false => rfl
          | true => rw [Event.reply,if_neg fun two => server ⟨rfl,two⟩]
        rw [if_neg server,waitsOn silent (by simp [lates])]
        exact ih nonzero empty found

/- tftp_open for every run of packets and errors and every pattern of allocation failures. -/
theorem tftpOpenUsable (udpOpens : Bool) (mallocs : List Bool) (events : List Event) :
    Holds (tftpOpen udpOpens mallocs events) ↔ ¬ (udpOpens = true ∧ Spoilt events) := by
  unfold tftpOpen
  cases udpOpens with
  | false => exact iff_of_true (fun found => absurd rfl found) (by simp)
  | true =>
    have table : timeoutTable.tail = timeoutTable.tail.dropLast ++ [0] := by decide
    have nothing : fresh.size ≠ 0 ↔ False := by simp [fresh]
    rw [if_pos rfl,table,waitPktHolds mallocs (by decide) rfl nothing]
    simp [Spoilt,timeoutTable]

/- A server that appends a NUL to its OACK: the size is 100, and there is no buffer. -/
theorem nullOption : ¬ Holds (tftpOpen true [true] [.packet true (word opOack ++ (tsizeName ++ [0,49,48,48,0,0])) true]) := by
  have returned : tftpOpen true [true] [.packet true (word opOack ++ (tsizeName ++ [0,49,48,48,0,0])) true] =
      .returned ⟨0,512,0,0,0,false,none,100⟩ := by decide
  rw [returned]
  intro usable
  obtain ⟨⟨buf,there,_⟩,_⟩ := usable (by decide)
  cases there

end

/- The client of the transfer behind an answer; there the buffer has no room behind its bytes. -/
def Answer.Serves (c c' : Client) (sent : List Request) : Answer → Prop
  | .waitPkt sock => (c',sent) = ({ c with sock := sock },[])
  | .done sock => ∃ pktbuf, (c',sent) = opened c { sock with pktbuf := pktbuf } sent ∧
      ∀ bytes ∈ pktbuf, ∃ buf ∈ sock.pktbuf, bytes <+: buf

theorem servesSame {c c' : Client} {sent : List Request} {sock : Socket} (same : (c',sent) = opened c sock sent) :
    (Answer.done sock).Serves c c' sent := ⟨sock.pktbuf,same,fun bytes mem => ⟨bytes,mem,List.prefix_refl bytes⟩⟩

/- A reply is answered as Tftp.tftpOpenReply has it, where that has a result. -/
theorem answerReply {c c' : Client} {sent : List Request} {reply : List UInt8} {mallocs : List Bool} (two : 2 ≤ reply.length)
    (ran : tftpOpenReply c reply (malloc mallocs).1 = some (c',sent)) :
    ∃ a, answer reply mallocs { c.sock with size := 2^64 - 1, blksize := tftpBlocksize } = some a ∧ a.Serves c c' sent := by
  rw [tftpOpenReply,if_neg (by omega)] at ran
  rw [answer]
  simp only at ran
  by_cases error : getWord reply 0 = opError
  · rw [if_pos error] at ran ⊢
    cases ran
    exact ⟨_,rfl,servesSame rfl⟩
  rw [if_neg error] at ran ⊢
  by_cases data : getWord reply 0 = opData
  · rw [if_pos data] at ran ⊢
    by_cases waits : reply.length < 4 ∨ getWord reply 2 ≠ 1
    · rw [if_pos waits] at ran ⊢
      cases ran
      exact ⟨_,rfl,rfl⟩
    rw [if_neg waits] at ran ⊢
    by_cases large : tftpBlocksize < (reply.drop 4).length
    · simp only [large,if_true] at ran ⊢
      cases ran
      exact ⟨_,rfl,servesSame rfl⟩
    simp only [large,if_false] at ran ⊢
    cases ok : (malloc mallocs).1 with
    | false =>
      simp only [ok,Bool.false_eq_true,if_false] at ran ⊢
      cases ran
      exact ⟨_,rfl,servesSame rfl⟩
    | true =>
      simp only [ok,if_true] at ran ⊢
      by_cases last : (reply.drop 4).length < tftpBlocksize
      · simp only [last,if_true] at ran ⊢
        cases ran
        exact ⟨_,rfl,some (reply.drop 4),rfl,by simp⟩
      · simp only [last,if_false] at ran ⊢
        cases ran
        exact ⟨_,rfl,some (reply.drop 4),rfl,by simp⟩
  rw [if_neg data] at ran ⊢
  by_cases oack : getWord reply 0 = opOack
  · rw [if_pos oack] at ran ⊢
    obtain ⟨parsed,accepted,ran⟩ := Option.map_eq_some_iff.mp ran
    have reading := parseOackReading (store (fun _ => 0) 0 reply) (reply.length - 2)
      { c.sock with size := 2^64 - 1, blksize := tftpBlocksize }
    rw [readReply two,show 2 + (reply.length - 2) = reply.length by omega] at reading
    have said := readingOptions reading (by rw [List.length_drop]; omega) accepted
    rw [Option.map_map] at said
    obtain ⟨⟨verdict,sock,cursor⟩,parsed',said⟩ := Option.map_eq_some_iff.mp said
    rw [parsed',Option.map_some]
    cases parsed with
    | refused sock' =>
      cases said
      cases ran
      exact ⟨_,rfl,servesSame rfl⟩
    | discarded sock' =>
      cases said
      cases ran
      exact ⟨_,rfl,servesSame rfl⟩
    | accepted sock' =>
      cases said
      simp only at ran ⊢
      split_ifs at ran ⊢ <;> cases ran
      · exact ⟨_,rfl,servesSame rfl⟩
      · exact ⟨_,rfl,servesSame rfl⟩
      · exact ⟨_,rfl,servesSame rfl⟩
  · rw [if_neg oack] at ran ⊢
    cases ran
    exact ⟨_,rfl,servesSame rfl⟩

end Syslinux.TftpOpen
