import Syslinux.Machine
import Syslinux.Runs

/-! A TFTP transfer: the client of core/fs/pxe/tftp.c with pxe_getfssec of pxe.c, a
lock-step server, and the network between them. The client is modelled between its calls
of core_udp_recv; where it waits is its program counter. A step that has no defined
result in C (a packet stored through a NULL pointer, an option read past the end of its
packet) is none. -/
namespace Syslinux.Tftp
open Runs

def pktbufSize : Nat := 2048
def tftpBlocksize : Nat := 512

def opData : Nat := 3
def opError : Nat := 5
def opOack : Nat := 6

/- A 16-bit word in network byte order. -/
def word (n : Nat) : List UInt8 := [UInt8.ofNat (n / 256),UInt8.ofNat n]
def getWord (bytes : List UInt8) (i : Nat) : Nat := (bytes.getD i 0).toNat*256 + (bytes.getD (i + 1) 0).toNat

/- The UDP layer hands over a datagram whole if it fits the buffer; core/fs/pxe/core.c
drops it otherwise, efi/udp.c truncates it. -/
def coreUdpRecv (packet : List UInt8) (bufLen : Nat) (truncates : Bool) : List UInt8 :=
  if packet.length ≤ bufLen then packet else if truncates then packet.take bufLen else []

/- struct pxe_pvt_inode, and the size of the inode. dataptr is an offset into pktbuf. -/
structure Socket where
  filepos : Nat
  blksize : Nat
  bytesleft : Nat
  lastpkt : Nat
  dataptr : Nat
  goteof : Bool
  pktbuf : Option (List UInt8)
  size : Nat
  deriving DecidableEq, Repr

inductive Request where
  | rrq
  | ack (serial : Nat)
  | error
  deriving DecidableEq, Repr

/- Where the client waits: in tftp_open; for its caller; in tftp_get_packet called from
the loop of pxe_getfssec with a number of bytes to go, or after that loop. Without a file
after a failed tftp_open, or stopped by kaboom, it is closed. -/
inductive Pc where
  | opening | idle | reading (count : Nat) | filling | closed
  deriving DecidableEq, Repr

structure Client where
  sock : Socket
  pc : Pc
  delivered : List UInt8
  haveMore : Option Bool
  deriving DecidableEq, Repr

/- The options of an OACK: what the parsing loop does with them. -/
inductive Parsed where
  | accepted (sock : Socket)
  | discarded (sock : Socket)
  | refused (sock : Socket)
  deriving DecidableEq, Repr

def lower (c : UInt8) : UInt8 := c ||| 0x20
def tsizeName : List UInt8 := [116,115,105,122,101]
def blksizeName : List UInt8 := [98,108,107,115,105,122,101]

/- The number up to a NUL, and what follows it. At the end of the packet buffersize
becomes -1 and the loop goes on reading what lies behind. -/
inductive Number where
  | value (n : Nat) (rest : List UInt8)
  | notDigit
  | overrun
  deriving DecidableEq, Repr

def parseNumber : List UInt8 → Nat → Number
  | [],_ => .overrun
  | d::rest,n =>
      if d = 0 then .value n rest
      else if 9 < d - 48 then .notDigit
      else parseNumber rest ((n*10 + (d - 48).toNat) % 2^64)

def parseOptions : Nat → List UInt8 → Socket → Option Parsed
  | 0,_,sock => some (.accepted sock)
  | turns+1,p,sock =>
      match p with
      | [] => some (.accepted sock)
      | c::_ =>
          if c = 0 then some (.discarded sock)
          else
            let opt := (p.takeWhile (fun c => c ≠ 0)).map lower
            match p.dropWhile (fun c => c ≠ 0) with
            | [] => some (.accepted sock)
            | _::[] => some (.accepted sock)
            | _::value => match parseNumber value 0 with
                | .overrun => none
                | .notDigit => some (.refused sock)
                | .value n rest =>
                    if opt = tsizeName then parseOptions turns rest { sock with size := n }
                    else if opt = blksizeName then parseOptions turns rest { sock with blksize := n % 2^32 }
                    else some (.refused sock)

/- The end of tftp_open. -/
def opened (c : Client) (sock : Socket) (sent : List Request) : Client × List Request :=
  ({ c with sock := sock, pc := if sock.size = 0 then .closed else .idle },sent)

def errReply (c : Client) (sock : Socket) : Client × List Request := opened c { sock with size := 0 } [.error]

/- tftp_open with a reply from the server. -/
def tftpOpenReply (c : Client) (reply : List UInt8) (mallocOk : Bool) : Option (Client × List Request) :=
  if reply.length < 2 then some (c,[])
  else
    let sock := { c.sock with size := 2^64 - 1, blksize := tftpBlocksize }
    if getWord reply 0 = opError then some (opened c { sock with size := 0 } [])
    else if getWord reply 0 = opData then
      if reply.length < 4 ∨ getWord reply 2 ≠ 1 then some ({ c with sock := sock },[])
      else
        let sock := { sock with lastpkt := 1 }
        let data := reply.drop 4
        if tftpBlocksize < data.length then some (errReply c sock)
        else if mallocOk then
          let sock := { sock with bytesleft := data.length, dataptr := 0, pktbuf := some data }
          if data.length < tftpBlocksize then
            some (opened c { sock with size := data.length, goteof := true } [.ack 1])
          else some (opened c sock [])
        else some (errReply c sock)
    else if getWord reply 0 = opOack then
      (parseOptions reply.length (reply.drop 2) sock).map (fun parsed =>
        match parsed with
        | .refused sock => errReply c sock
        | .discarded sock => opened c sock []
        | .accepted sock =>
            if sock.blksize < 64 ∨ pktbufSize < sock.blksize then errReply c sock
            else if mallocOk then opened c { sock with pktbuf := some (List.replicate (sock.blksize + 4) 0) } []
            else errReply c sock)
    else some (errReply c sock)

/- tftp_get_packet starts by acknowledging the previous packet. -/
def waitPacket (c : Client) (pc : Pc) : Client × List Request := ({ c with pc := pc },[.ack c.sock.lastpkt])

/- pxe_getfssec behind its loop. -/
def finishRead (c : Client) : Client × List Request :=
  if c.sock.bytesleft ≠ 0 ∨ c.sock.filepos < c.sock.size then
    if c.sock.bytesleft ≠ 0 ∨ c.sock.goteof then ({ c with pc := .idle, haveMore := some true },[])
    else waitPacket c .filling
  else if c.sock.goteof then ({ c with pc := .idle, haveMore := some false },[])
  else ({ c with pc := .idle },[])

/- The loop of pxe_getfssec; a turn that copies takes at least one byte. -/
def readLoop : Nat → Client → Nat → Client × List Request
  | 0,c,_ => finishRead c
  | turns+1,c,count =>
      if count = 0 then finishRead c
      else if c.sock.bytesleft = 0 ∧ c.sock.goteof = false then waitPacket c (.reading count)
      else if c.sock.bytesleft = 0 then finishRead c
      else
        let chunk := min count c.sock.bytesleft
        readLoop turns { c with
          sock := { c.sock with bytesleft := c.sock.bytesleft - chunk, dataptr := c.sock.dataptr + chunk }
          delivered := c.delivered ++ (((c.sock.pktbuf.getD []).drop c.sock.dataptr).take chunk) } (count - chunk)

def pxeGetfssec (c : Client) (blocks : Nat) : Client × List Request :=
  readLoop (blocks*tftpBlocksize) { c with haveMore := none } (blocks*tftpBlocksize)

/- Back from tftp_get_packet. -/
def resume (c : Client) : Client × List Request :=
  match c.pc with
  | .reading count => readLoop count c count
  | _ => ({ c with pc := .idle, haveMore := some true },[])

/- tftp_get_packet with a packet received. -/
def tftpGetPacket (c : Client) (bytes : List UInt8) : Option (Client × List Request) :=
  c.sock.pktbuf.map (fun buf =>
    let sock := { c.sock with pktbuf := some (bytes ++ buf.drop bytes.length) }
    if bytes.length < 4 ∨ getWord bytes 0 ≠ opData then ({ c with sock := sock },[])
    else if getWord bytes 2 ≠ (sock.lastpkt + 1) % 2^16 then ({ c with sock := sock },[.ack sock.lastpkt])
    else
      let buffersize := bytes.length - 4
      let sock := { sock with
        lastpkt := (sock.lastpkt + 1) % 2^16
        dataptr := 4
        filepos := add32 sock.filepos buffersize
        bytesleft := buffersize }
      if buffersize < sock.blksize then
        let (c,sent) := resume { c with sock := { sock with size := sock.filepos, goteof := true } }
        (c,.ack sock.lastpkt::sent)
      else resume { c with sock := sock })

/- What a server may offer: options under the names the client asked for, spelled in any
case, with decimal values. -/
structure Opt where
  name : List UInt8
  value : List UInt8
  deriving DecidableEq, Repr

def decimal (digits : List UInt8) : Nat := digits.foldl (fun n d => n*10 + (d.toNat - 48)) 0

def Opt.isBlksize (o : Opt) : Prop := o.name.map lower = blksizeName
instance (o : Opt) : Decidable o.isBlksize := by unfold Opt.isBlksize; infer_instance

structure Opt.WellFormed (o : Opt) : Prop where
  known : o.name.map lower = tsizeName ∨ o.isBlksize
  digits : ∀ d ∈ o.value, 48 ≤ d.toNat ∧ d.toNat ≤ 57
  inRange : o.isBlksize → 64 ≤ decimal o.value ∧ decimal o.value ≤ pktbufSize

def Opt.encode (o : Opt) : List UInt8 := o.name ++ 0::o.value ++ [0]

def oackPacket (offer : List Opt) : List UInt8 := word opOack ++ offer.flatMap Opt.encode
def dataPacket (serial : Nat) (data : List UInt8) : List UInt8 := word opData ++ word serial ++ data

def negotiated (offer : List Opt) : Nat :=
  offer.foldl (fun blksize o => if o.isBlksize then decimal o.value else blksize) tftpBlocksize

/- A server with its file: it answers with an OACK, or with DATA at once. -/
structure Server where
  file : List UInt8
  offer : Option (List Opt)
  wellFormed : ∀ offered, offer = some offered →
    (∀ o ∈ offered, o.WellFormed) ∧ (oackPacket offered).length ≤ pktbufSize
  few : file.length / negotiated (offer.getD []) + 1 < 65535

def Server.blksize (v : Server) : Nat := negotiated (v.offer.getD [])
def Server.block (v : Server) (k : Nat) : List UInt8 := (v.file.drop ((k - 1)*v.blksize)).take v.blksize

/- What the server sends with a number; 0 is the OACK. -/
def Server.packet (v : Server) (k : Nat) : List UInt8 :=
  if k = 0 then oackPacket (v.offer.getD []) else dataPacket k (v.block k)

def Server.first (v : Server) : Nat := if v.offer.isSome then 0 else 1

/- `sent` is the number of the server's last packet. The network keeps every packet ever
sent: it may lose one by never delivering it, deliver it late, out of order, or again. -/
structure World where
  client : Client
  sent : Option Nat
  toClient : List (List UInt8)
  toServer : List Request
  deriving DecidableEq, Repr

inductive Event where
  | request
  | ack (serial : Nat)
  | deliver (packet : List UInt8) (truncates mallocOk : Bool)
  | timeout (last : Bool)
  | read (blocks : Nat)
  deriving DecidableEq, Repr

def World.after (w : World) : Client × List Request → World
  | (c,sent) => { w with client := c, toServer := w.toServer ++ sent }

def deliver (w : World) (packet : List UInt8) (truncates mallocOk : Bool) : Option World :=
  match w.client.pc with
  | .opening => (tftpOpenReply w.client (coreUdpRecv packet pktbufSize truncates) mallocOk).map w.after
  | .reading _ | .filling =>
      (tftpGetPacket w.client (coreUdpRecv packet (w.client.sock.blksize + 4) truncates)).map w.after
  | .idle | .closed => some w

/- Retransmission, or the last timeout: tftp_open returns, tftp_get_packet calls kaboom. -/
def timeout (w : World) (last : Bool) : World :=
  match w.client.pc with
  | .opening => if last then w.after (opened w.client w.client.sock []) else w.after (w.client,[.rrq])
  | .reading _ | .filling =>
      if last then { w with client := { w.client with pc := .closed } }
      else w.after (w.client,[.ack w.client.sock.lastpkt])
  | .idle | .closed => w

/- The server goes on to the next block when the last one sent, a full one, has been
acknowledged. A retransmission of the server's is a packet delivered again. -/
def step (v : Server) (w : World) : Event → Option World
  | .request =>
      if .rrq ∈ w.toServer ∧ w.sent = none then
        some { w with sent := some v.first, toClient := w.toClient ++ [v.packet v.first] }
      else none
  | .ack serial =>
      if .ack serial ∈ w.toServer ∧ w.sent = some serial ∧ (serial = 0 ∨ (v.block serial).length = v.blksize) then
        some { w with sent := some (serial + 1), toClient := w.toClient ++ [v.packet (serial + 1)] }
      else none
  | .deliver packet truncates mallocOk =>
      if packet ∈ w.toClient then deliver w packet truncates mallocOk else none
  | .timeout last => some (timeout w last)
  | .read blocks => if w.client.pc = .idle then some (w.after (pxeGetfssec w.client blocks)) else none

/- tftp_open has sent its request; alloc_inode clears the socket. -/
def begun : World := ⟨⟨⟨0,0,0,0,0,false,none,0⟩,.opening,[],none⟩,none,[],[.rrq]⟩

end Syslinux.Tftp
