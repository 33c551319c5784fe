import Syslinux.TftpOack

/-! What a TFTP transfer delivers: at every moment a prefix of the file, and all of it at
the end, whatever the network does to the packets. -/
namespace Syslinux.Tftp
open Runs

def Server.lastBlock (v : Server) : Nat := v.file.length / v.blksize + 1

def Socket.available (sock : Socket) : List UInt8 := ((sock.pktbuf.getD []).drop sock.dataptr).take sock.bytesleft

/- A file is open: what has been delivered and what waits in the buffer are the blocks up
to the last packet accepted. -/
structure Opened (v : Server) (c : Client) : Prop where
  blksize : c.sock.blksize = v.blksize
  buffer : c.sock.pktbuf.isSome
  inside : c.sock.available.length = c.sock.bytesleft
  sofar : c.delivered ++ c.sock.available = v.file.take (c.sock.lastpkt*v.blksize)
  eof : c.sock.goteof = true ↔ v.file.length < c.sock.lastpkt*v.blksize
  last : c.sock.lastpkt ≤ v.lastBlock

def Fits (v : Server) (c : Client) : Prop :=
  match c.pc with
  | .opening => c = begun.client
  | .idle => Opened v c
  | .reading _ | .filling => Opened v c ∧ c.sock.bytesleft = 0 ∧ c.sock.goteof = false
  | .closed => Opened v c ∨ (c.delivered = [] ∧ (c.sock.goteof = true → v.file = []))

structure Goes (v : Server) (lastpkt : Nat) (r : Client × List Request) : Prop where
  fits : Fits v r.1
  notOpening : r.1.pc ≠ .opening
  forward : lastpkt ≤ r.1.sock.lastpkt
  acks : ∀ n, .ack n ∈ r.2 → n ≤ r.1.sock.lastpkt

section
variable {v : Server} {c : Client}

theorem blksizeRange (v : Server) : 64 ≤ v.blksize ∧ v.blksize ≤ pktbufSize := by
  unfold Server.blksize
  cases offered : v.offer with
  | none => exact ⟨by decide,by decide⟩
  | some offer => exact negotiatedRange (v.wellFormed offer offered).1

theorem openedDelivers (h : Opened v c) :
    c.delivered <+: v.file ∧ (c.sock.goteof = true → c.sock.bytesleft = 0 → c.delivered = v.file) := by
  refine ⟨(List.prefix_append _ _).trans (h.sofar ▸ List.take_prefix _ _),?_⟩
  intro eof drained
  have empty : c.sock.available = [] := List.eq_nil_of_length_eq_zero (by rw [h.inside,drained])
  have sofar := h.sofar
  rw [empty,List.append_nil] at sofar
  rw [sofar]
  exact List.take_of_length_le (Nat.le_of_lt (h.eof.mp eof))

theorem fitsDelivers (h : Fits v c) :
    c.delivered <+: v.file ∧ (c.sock.goteof = true → c.sock.bytesleft = 0 → c.delivered = v.file) := by
  unfold Fits at h
  split at h
  · subst h
    exact ⟨List.nil_prefix,by simp [begun]⟩
  · exact openedDelivers h
  · exact openedDelivers h.1
  · exact openedDelivers h.1
  · rcases h with h | ⟨nothing,empty⟩
    · exact openedDelivers h
    · rw [nothing]
      exact ⟨List.nil_prefix,fun eof _ => (empty eof).symm⟩

theorem openedPc (h : Opened v c) (pc : Pc) (more : Option Bool) : Opened v { c with pc := pc, haveMore := more } :=
  ⟨h.blksize,h.buffer,h.inside,h.sofar,h.eof,h.last⟩

theorem waitGoes (h : Opened v c) (drained : c.sock.bytesleft = 0) (more : c.sock.goteof = false) {pc : Pc}
    (waits : pc = .filling ∨ ∃ count, pc = .reading count) : Goes v c.sock.lastpkt (waitPacket c pc) := by
  have opened := openedPc h pc c.haveMore
  refine ⟨?_,?_,Nat.le_refl _,by simp [waitPacket]⟩
  · rcases waits with rfl | ⟨count,rfl⟩
    · exact ⟨opened,drained,more⟩
    · exact ⟨opened,drained,more⟩
  · rcases waits with rfl | ⟨count,rfl⟩ <;> simp [waitPacket]

theorem idleGoes (h : Opened v c) (more : Option Bool) : Goes v c.sock.lastpkt ({ c with pc := .idle, haveMore := more },[]) :=
  ⟨openedPc h .idle more,by simp,Nat.le_refl _,by simp⟩

theorem finishGoes (h : Opened v c) : Goes v c.sock.lastpkt (finishRead c) := by
  unfold finishRead
  split
  · split
    · exact idleGoes h _
    · rename_i empty
      simp only [not_or,ne_eq,not_not,Bool.not_eq_true] at empty
      exact waitGoes h empty.1 empty.2 (Or.inl rfl)
  · split
    · exact idleGoes h _
    · exact idleGoes h c.haveMore

theorem chunkOpened (h : Opened v c) {chunk : Nat} (small : chunk ≤ c.sock.bytesleft) : Opened v { c with
    sock := { c.sock with bytesleft := c.sock.bytesleft - chunk, dataptr := c.sock.dataptr + chunk }
    delivered := c.delivered ++ (((c.sock.pktbuf.getD []).drop c.sock.dataptr).take chunk) } := by
  have split : c.sock.available = ((c.sock.pktbuf.getD []).drop c.sock.dataptr).take chunk ++
      ((c.sock.pktbuf.getD []).drop (c.sock.dataptr + chunk)).take (c.sock.bytesleft - chunk) := by
    unfold Socket.available
    rw [← List.drop_drop,← List.take_add,Nat.add_sub_cancel' small]
  have inside := h.inside
  refine ⟨h.blksize,h.buffer,?_,?_,h.eof,h.last⟩
  · unfold Socket.available at inside ⊢
    simp only [List.length_take,List.length_drop] at inside ⊢
    omega
  · show (_ ++ _) ++ _ = _
    rw [List.append_assoc]
    exact (congrArg (c.delivered ++ ·) split.symm).trans h.sofar

theorem readGoes (turns : Nat) {count : Nat} (h : Opened v c) : Goes v c.sock.lastpkt (readLoop turns c count) := by
  induction turns generalizing c count with
  | zero => exact finishGoes h
  | succ turns ih =>
    rw [readLoop]
    split
    · exact finishGoes h
    · split
      · rename_i empty
        exact waitGoes h empty.1 empty.2 (Or.inr ⟨count,rfl⟩)
      · split
        · exact finishGoes h
        · exact ih (chunkOpened h (Nat.min_le_right _ _))

theorem resumeGoes (h : Opened v c) : Goes v c.sock.lastpkt (resume c) := by
  unfold resume
  split
  · exact readGoes _ h
  · exact idleGoes h _

section
variable {serial : Nat} {data : List UInt8}

theorem wordBytes (small : serial < 2^16) : (UInt8.ofNat (serial / 256)).toNat*256 + (UInt8.ofNat serial).toNat = serial := by
  simp only [UInt8.toNat_ofNat']
  omega

theorem dataOpcode : getWord (dataPacket serial data) 0 = opData := by simp [getWord,dataPacket,word,opData]
theorem dataSerial (small : serial < 2^16) : getWord (dataPacket serial data) 2 = serial := by
  simpa [getWord,dataPacket,word] using wordBytes small
theorem dataLength : (dataPacket serial data).length = data.length + 4 := by simp [dataPacket,word]
theorem dataDrop : (dataPacket serial data).drop 4 = data := by simp [dataPacket,word]

theorem oackOpcode (offer : List Opt) {n : Nat} (two : 2 ≤ n) : getWord ((oackPacket offer).take n) 0 = opOack := by
  obtain ⟨n,rfl⟩ : ∃ k, n = k + 2 := ⟨n - 2,by omega⟩
  simp [getWord,oackPacket,word,opOack]

end

theorem takeBlock (v : Server) (k : Nat) : v.file.take (k*v.blksize) ++ v.block (k + 1) = v.file.take ((k + 1)*v.blksize) := by
  rw [Server.block,Nat.add_sub_cancel,Nat.succ_mul,List.take_add]

theorem blockLength (v : Server) (k : Nat) : (v.block k).length = min v.blksize (v.file.length - (k - 1)*v.blksize) := by
  rw [Server.block,List.length_take,List.length_drop]

theorem overwritten (h : Opened v c) (drained : c.sock.bytesleft = 0) (buf : List UInt8) :
    Opened v { c with sock := { c.sock with pktbuf := some buf } } := by
  have empty : c.sock.available = [] := List.eq_nil_of_length_eq_zero (by rw [h.inside,drained])
  have sofar := h.sofar
  rw [empty] at sofar
  refine ⟨h.blksize,rfl,?_,?_,h.eof,h.last⟩
  · simp [Socket.available,drained]
  · simpa [Socket.available,drained] using sofar

theorem stillWaiting (h : Opened v c) (drained : c.sock.bytesleft = 0) (more : c.sock.goteof = false)
    (waits : c.pc = .filling ∨ ∃ count, c.pc = .reading count) (buf : List UInt8) {sent : List Request}
    (acks : ∀ n, .ack n ∈ sent → n ≤ c.sock.lastpkt) :
    Goes v c.sock.lastpkt ({ c with sock := { c.sock with pktbuf := some buf } },sent) := by
  have opened := overwritten h drained buf
  obtain ⟨sock,pc,delivered,haveMore⟩ := c
  rcases waits with rfl | ⟨count,rfl⟩
  · exact ⟨⟨opened,drained,more⟩,by simp,Nat.le_refl _,acks⟩
  · exact ⟨⟨opened,drained,more⟩,by simp,Nat.le_refl _,acks⟩

theorem acceptedOpened (sock : Socket) (h : Opened v c) (drained : c.sock.bytesleft = 0) (more : c.sock.goteof = false)
    (within : c.sock.lastpkt + 1 ≤ v.lastBlock) (blksize : sock.blksize = c.sock.blksize)
    (buffer : ∃ rest, sock.pktbuf = some (dataPacket (c.sock.lastpkt + 1) (v.block (c.sock.lastpkt + 1)) ++ rest))
    (dataptr : sock.dataptr = 4) (left : sock.bytesleft = (v.block (c.sock.lastpkt + 1)).length)
    (lastpkt : sock.lastpkt = c.sock.lastpkt + 1)
    (eof : sock.goteof = true ↔ (v.block (c.sock.lastpkt + 1)).length < v.blksize) : Opened v { c with sock := sock } := by
  obtain ⟨rest,buffer⟩ := buffer
  have available : sock.available = v.block (c.sock.lastpkt + 1) := by
    rw [Socket.available,buffer,dataptr,left,Option.getD_some,List.drop_append_of_le_length (by simp [dataLength]),dataDrop]
    simp
  have empty : c.sock.available = [] := List.eq_nil_of_length_eq_zero (by rw [h.inside,drained])
  have sofar := h.sofar
  rw [empty,List.append_nil] at sofar
  have full : c.sock.lastpkt*v.blksize ≤ v.file.length := by
    by_contra short
    have := h.eof.mpr (by omega)
    rw [more] at this
    contradiction
  refine ⟨blksize.trans h.blksize,by simp [buffer],?_,?_,?_,?_⟩
  · simp only [available,left]
  · simp only [available,lastpkt,sofar]
    exact takeBlock v c.sock.lastpkt
  · simp only [eof,lastpkt,blockLength,Nat.add_sub_cancel,Nat.succ_mul]
    have := (blksizeRange v).1
    omega
  · simp only [lastpkt]
    exact within

theorem getPacketGoes (h : Opened v c) (drained : c.sock.bytesleft = 0) (more : c.sock.goteof = false)
    (waits : c.pc = .filling ∨ ∃ count, c.pc = .reading count) {k : Nat} (next : k ≤ c.sock.lastpkt + 1)
    (within : k ≤ v.lastBlock) (truncates : Bool) :
    ∃ r, tftpGetPacket c (coreUdpRecv (v.packet k) (c.sock.blksize + 4) truncates) = some r ∧ Goes v c.sock.lastpkt r := by
  obtain ⟨buf,buffer⟩ := Option.isSome_iff_exists.mp h.buffer
  have few : v.lastBlock < 65535 := v.few
  have bounded := h.last
  unfold tftpGetPacket
  rw [buffer,Option.map_some]
  refine ⟨_,rfl,?_⟩
  by_cases oack : k = 0
  · subst oack
    have skipped : (coreUdpRecv (v.packet 0) (c.sock.blksize + 4) truncates).length < 4 ∨
        getWord (coreUdpRecv (v.packet 0) (c.sock.blksize + 4) truncates) 0 ≠ opData := by
      unfold coreUdpRecv
      split
      · right
        have whole := oackOpcode (v.offer.getD []) (n := (oackPacket (v.offer.getD [])).length) (by simp [oackPacket,word])
        rw [List.take_length] at whole
        rw [Server.packet,if_pos rfl,whole]
        decide
      · split
        · right
          rw [Server.packet,if_pos rfl,oackOpcode _ (by omega)]
          decide
        · left
          decide
    rw [if_pos skipped]
    exact stillWaiting h drained more waits _ (by simp)
  · have whole : coreUdpRecv (v.packet k) (c.sock.blksize + 4) truncates = dataPacket k (v.block k) := by
      have short := blockLength v k
      rw [coreUdpRecv,Server.packet,if_neg oack,if_pos]
      rw [dataLength,h.blksize]
      omega
    rw [whole,if_neg (by simp [dataLength,dataOpcode])]
    have serialEq : getWord (dataPacket k (v.block k)) 2 = k := dataSerial (by omega)
    have number : (c.sock.lastpkt + 1) % 2^16 = c.sock.lastpkt + 1 := Nat.mod_eq_of_lt (by omega)
    simp only [serialEq,number,dataLength,Nat.add_sub_cancel]
    by_cases other : k ≠ c.sock.lastpkt + 1
    · rw [if_pos other]
      exact stillWaiting h drained more waits _ (by simp)
    · obtain rfl : k = c.sock.lastpkt + 1 := by omega
      have accepted := fun sock => acceptedOpened sock h drained more within
      rw [if_neg (by simp)]
      by_cases short : (v.block (c.sock.lastpkt + 1)).length < c.sock.blksize
      · rw [if_pos short]
        have opened := accepted { c.sock with
          pktbuf := some (dataPacket (c.sock.lastpkt + 1) (v.block (c.sock.lastpkt + 1)) ++
            buf.drop ((v.block (c.sock.lastpkt + 1)).length + 4))
          lastpkt := c.sock.lastpkt + 1
          dataptr := 4
          filepos := add32 c.sock.filepos (v.block (c.sock.lastpkt + 1)).length
          bytesleft := (v.block (c.sock.lastpkt + 1)).length
          size := add32 c.sock.filepos (v.block (c.sock.lastpkt + 1)).length
          goteof := true } rfl ⟨_,rfl⟩ rfl rfl rfl (by rw [← h.blksize]; simp [short])
        have goes := resumeGoes opened
        refine ⟨goes.fits,goes.notOpening,Nat.le_trans (Nat.le_succ _) goes.forward,?_⟩
        intro n m
        rcases List.mem_cons.mp m with ack | m
        · cases ack
          exact goes.forward
        · exact goes.acks n m
      · rw [if_neg short]
        have opened := accepted { c.sock with
          pktbuf := some (dataPacket (c.sock.lastpkt + 1) (v.block (c.sock.lastpkt + 1)) ++
            buf.drop ((v.block (c.sock.lastpkt + 1)).length + 4))
          lastpkt := c.sock.lastpkt + 1
          dataptr := 4
          filepos := add32 c.sock.filepos (v.block (c.sock.lastpkt + 1)).length
          bytesleft := (v.block (c.sock.lastpkt + 1)).length } rfl ⟨_,rfl⟩ rfl rfl rfl (by rw [← h.blksize]; simp [short,more])
        have goes := resumeGoes opened
        exact ⟨goes.fits,goes.notOpening,Nat.le_trans (Nat.le_succ _) goes.forward,goes.acks⟩

theorem openedGoes {sock : Socket} (h : Opened v { c with sock := sock }) {sent : List Request}
    (acks : ∀ n, .ack n ∈ sent → n ≤ sock.lastpkt) : Goes v 0 (opened c sock sent) := by
  unfold opened
  refine ⟨?_,?_,Nat.zero_le _,acks⟩
  · by_cases empty : sock.size = 0
    · simp only [if_pos empty]
      exact Or.inl (openedPc h .closed c.haveMore)
    · simp only [if_neg empty]
      exact openedPc h .idle c.haveMore
  · by_cases empty : sock.size = 0
    · simp [empty]
    · simp [empty]

theorem refusedGoes {sock : Socket} (nothing : c.delivered = []) (more : sock.goteof = false) :
    Goes v 0 (errReply c sock) := by
  refine ⟨Or.inr ⟨nothing,?_⟩,by simp [errReply,opened],Nat.zero_le _,by simp [errReply,opened]⟩
  intro eof
  rw [show (errReply c sock).1.sock.goteof = sock.goteof from rfl,more] at eof
  contradiction

theorem dataReplyGoes (plain : v.offer = none) (truncates mallocOk : Bool) :
    ∃ r, tftpOpenReply begun.client (coreUdpRecv (v.packet 1) pktbufSize truncates) mallocOk = some r ∧ Goes v 0 r := by
  have blksize : v.blksize = tftpBlocksize := by simp [Server.blksize,plain,negotiated]
  have length := blockLength v 1
  have sofar := takeBlock v 0
  simp only [Nat.sub_self,Nat.zero_mul,Nat.sub_zero,List.take_zero,List.nil_append,blksize] at length sofar
  have whole : coreUdpRecv (v.packet 1) pktbufSize truncates = dataPacket 1 (v.block 1) := by
    rw [coreUdpRecv,Server.packet,if_neg (show ¬ 1 = 0 by decide),if_pos]
    rw [dataLength]
    unfold pktbufSize
    unfold tftpBlocksize at length
    omega
  rw [whole,tftpOpenReply]
  simp only [dataLength,dataOpcode,dataSerial (show 1 < 2^16 by decide),dataDrop]
  rw [if_neg (by omega),if_neg (by decide),if_pos trivial,if_neg (by simp),if_neg (by omega)]
  cases mallocOk with
  | false => exact ⟨_,rfl,refusedGoes rfl rfl⟩
  | true =>
    rw [if_pos rfl]
    have one : 1 ≤ v.lastBlock := Nat.le_add_left 1 _
    by_cases short : (v.block 1).length < tftpBlocksize
    · rw [if_pos short]
      refine ⟨_,rfl,openedGoes ⟨blksize.symm,rfl,?_,?_,?_,one⟩ (by simp)⟩
      · simp [Socket.available]
      · simpa [Socket.available,begun,blksize] using sofar
      · simp only [blksize,true_iff]
        omega
    · rw [if_neg short]
      refine ⟨_,rfl,openedGoes ⟨blksize.symm,rfl,?_,?_,?_,one⟩ (by simp)⟩
      · simp [Socket.available]
      · simpa [Socket.available,begun,blksize] using sofar
      · simp only [blksize,begun,Bool.false_eq_true,false_iff]
        omega

theorem oackReplyGoes {offered : List Opt} (offers : v.offer = some offered) (truncates mallocOk : Bool) :
    ∃ r, tftpOpenReply begun.client (coreUdpRecv (v.packet 0) pktbufSize truncates) mallocOk = some r ∧ Goes v 0 r := by
  obtain ⟨wellFormed,short⟩ := v.wellFormed offered offers
  have blksize : v.blksize = negotiated offered := by simp [Server.blksize,offers]
  have range := blksizeRange v
  have whole : coreUdpRecv (v.packet 0) pktbufSize truncates = oackPacket offered := by
    rw [coreUdpRecv,Server.packet,if_pos rfl,offers,Option.getD_some,if_pos short]
  have opcode := oackOpcode offered (n := (oackPacket offered).length) (by simp [oackPacket,word])
  rw [List.take_length] at opcode
  have options : (oackPacket offered).drop 2 = offered.flatMap Opt.encode := by simp [oackPacket,word]
  have long : ¬ (oackPacket offered).length < 2 := by simp [oackPacket,word]
  obtain ⟨sock,parsed,same,size⟩ := parseOffer wellFormed
    { begun.client.sock with size := 2^64 - 1, blksize := tftpBlocksize } (offerLength offered)
  rw [whole,tftpOpenReply,if_neg long,opcode,if_neg (by decide),if_neg (by decide),if_pos rfl,options,parsed]
  refine ⟨_,rfl,?_⟩
  have negotiatedSize : sock.blksize = v.blksize := by rw [size,blksize]; rfl
  simp only
  rw [if_neg (by rw [negotiatedSize]; omega)]
  cases mallocOk with
  | false => exact refusedGoes rfl same.goteof
  | true =>
    rw [if_pos rfl]
    have none' : sock.lastpkt = 0 := same.lastpkt
    have drained : sock.bytesleft = 0 := same.bytesleft
    have now : Opened v { begun.client with
        sock := { sock with pktbuf := some (List.replicate (sock.blksize + 4) 0) } } := by
      refine ⟨negotiatedSize,rfl,?_,?_,?_,?_⟩
      · simp [Socket.available,drained]
      · simp [Socket.available,drained,none',begun]
      · simp [none',show sock.goteof = false from same.goteof]
      · simp [none']
    exact openedGoes now (by simp)

end
structure Inv (v : Server) (w : World) : Prop where
  client : Fits v w.client
  acks : ∀ n, .ack n ∈ w.toServer → n ≤ w.client.sock.lastpkt ∧ w.client.pc ≠ .opening
  sent : ∀ top, w.sent = some top → v.first ≤ top ∧ top ≤ w.client.sock.lastpkt + 1 ∧ top ≤ v.lastBlock
  opening : w.client.pc = .opening → ∀ top, w.sent = some top → top = v.first
  packets : ∀ p ∈ w.toClient, ∃ k top, w.sent = some top ∧ v.first ≤ k ∧ k ≤ top ∧ p = v.packet k

section
variable {v : Server} {w : World}

theorem firstLe (v : Server) : v.first ≤ 1 := by
  unfold Server.first
  split <;> omega

theorem invAfter (inv : Inv v w) {r : Client × List Request} (goes : Goes v w.client.sock.lastpkt r) : Inv v (w.after r) := by
  obtain ⟨c,sent⟩ := r
  refine ⟨goes.fits,?_,?_,?_,inv.packets⟩
  · intro n m
    refine ⟨?_,goes.notOpening⟩
    rcases List.mem_append.mp m with m | m
    · exact (inv.acks n m).1.trans goes.forward
    · exact goes.acks n m
  · intro top eq
    obtain ⟨low,high,within⟩ := inv.sent top eq
    exact ⟨low,high.trans (Nat.succ_le_succ goes.forward),within⟩
  · intro opening
    exact absurd opening goes.notOpening

theorem invSend (inv : Inv v w) {top : Nat} (low : v.first ≤ top) (high : top ≤ w.client.sock.lastpkt + 1)
    (within : top ≤ v.lastBlock) (opening : w.client.pc = .opening → top = v.first)
    (newer : ∀ old, w.sent = some old → old ≤ top) :
    Inv v { w with sent := some top, toClient := w.toClient ++ [v.packet top] } := by
  refine ⟨inv.client,inv.acks,?_,?_,?_⟩
  · intro top' eq
    cases Option.some.inj eq
    exact ⟨low,high,within⟩
  · intro pc top' eq
    cases Option.some.inj eq
    exact opening pc
  · intro p m
    rcases List.mem_append.mp m with m | m
    · obtain ⟨k,old,eq,from',upto,packet⟩ := inv.packets p m
      exact ⟨k,top,rfl,from',upto.trans (newer old eq),packet⟩
    · exact ⟨top,top,rfl,low,Nat.le_refl _,List.mem_singleton.mp m⟩

theorem invDeliver (inv : Inv v w) {packet : List UInt8} (m : packet ∈ w.toClient) (truncates mallocOk : Bool) :
    ∃ w', deliver w packet truncates mallocOk = some w' ∧ Inv v w' := by
  obtain ⟨k,top,sent,from',upto,rfl⟩ := inv.packets packet m
  obtain ⟨low,high,within⟩ := inv.sent top sent
  have fits := inv.client
  unfold deliver
  split
  · rename_i pc
    have same : w.client = begun.client := by
      unfold Fits at fits
      rwa [pc] at fits
    have first : k = v.first := by
      have := inv.opening pc top sent
      omega
    have answer : ∃ r, tftpOpenReply w.client (coreUdpRecv (v.packet k) pktbufSize truncates) mallocOk = some r ∧
        Goes v w.client.sock.lastpkt r := by
      rw [first,same,Server.first]
      cases offers : v.offer with
      | none => exact dataReplyGoes offers truncates mallocOk
      | some offered => exact oackReplyGoes offers truncates mallocOk
    obtain ⟨r,ran,goes⟩ := answer
    exact ⟨w.after r,by rw [ran]; rfl,invAfter inv goes⟩
  · rename_i count pc
    have waiting : Opened v w.client ∧ w.client.sock.bytesleft = 0 ∧ w.client.sock.goteof = false := by
      unfold Fits at fits
      rwa [pc] at fits
    obtain ⟨r,ran,goes⟩ := getPacketGoes waiting.1 waiting.2.1 waiting.2.2 (Or.inr ⟨count,pc⟩) (upto.trans high)
      (upto.trans within) truncates
    exact ⟨w.after r,by rw [ran]; rfl,invAfter inv goes⟩
  · rename_i pc
    have waiting : Opened v w.client ∧ w.client.sock.bytesleft = 0 ∧ w.client.sock.goteof = false := by
      unfold Fits at fits
      rwa [pc] at fits
    obtain ⟨r,ran,goes⟩ := getPacketGoes waiting.1 waiting.2.1 waiting.2.2 (Or.inl pc) (upto.trans high)
      (upto.trans within) truncates
    exact ⟨w.after r,by rw [ran]; rfl,invAfter inv goes⟩
  · exact ⟨w,rfl,inv⟩
  · exact ⟨w,rfl,inv⟩

theorem invResend (inv : Inv v w) {r : Request} (old : ∀ n, r = .ack n → n ≤ w.client.sock.lastpkt ∧ w.client.pc ≠ .opening) :
    Inv v (w.after (w.client,[r])) := by
  refine ⟨inv.client,?_,inv.sent,inv.opening,inv.packets⟩
  intro n m
  rcases List.mem_append.mp m with m | m
  · exact inv.acks n m
  · exact old n (List.mem_singleton.mp m).symm

theorem invTimeout (inv : Inv v w) (last : Bool) : Inv v (timeout w last) := by
  have fits := inv.client
  unfold timeout
  split
  · rename_i pc
    have same : w.client = begun.client := by
      unfold Fits at fits
      rwa [pc] at fits
    split
    · refine invAfter inv ⟨?_,?_,Nat.le_refl _,by simp [opened]⟩
      · rw [same]
        exact Or.inr ⟨rfl,by simp [begun,opened]⟩
      · rw [same]
        simp [begun,opened]
    · exact invResend inv (by simp)
  all_goals try exact inv
  all_goals
    rename_i pc
    have waiting : Opened v w.client := by
      unfold Fits at fits
      rw [pc] at fits
      exact fits.1
    split
    · refine ⟨Or.inl (openedPc waiting .closed w.client.haveMore),?_,inv.sent,by simp,inv.packets⟩
      intro n m
      exact ⟨(inv.acks n m).1,by simp⟩
    · refine invResend inv ?_
      intro n eq
      cases eq
      exact ⟨Nat.le_refl _,by simp [pc]⟩

theorem invStep (e : Event) (w' : World) (inv : Inv v w) (ok : step v w e = some w') : Inv v w' := by
  cases e with
  | request =>
    simp only [step] at ok
    split at ok
    · rename_i enabled
      cases Option.some.inj ok
      have first := firstLe v
      refine invSend inv (Nat.le_refl _) (by omega) (first.trans (Nat.le_add_left 1 _)) (fun _ => rfl) ?_
      intro old eq
      rw [enabled.2] at eq
      contradiction
    · contradiction
  | ack serial =>
    simp only [step] at ok
    split at ok
    · rename_i enabled
      cases Option.some.inj ok
      obtain ⟨m,sent,more⟩ := enabled
      obtain ⟨bound,notOpening⟩ := inv.acks serial m
      obtain ⟨low,_,_⟩ := inv.sent serial sent
      refine invSend inv (low.trans (Nat.le_succ _)) (Nat.succ_le_succ bound) ?_ (fun pc => absurd pc notOpening) ?_
      · refine Nat.succ_le_succ ?_
        rcases more with zero | full
        · rw [zero]
          exact Nat.zero_le _
        · have positive := (blksizeRange v).1
          rw [blockLength] at full
          refine (Nat.le_div_iff_mul_le (by omega)).mpr ?_
          obtain _ | serial := serial
          · omega
          · rw [Nat.succ_mul]
            simp only [Nat.add_sub_cancel] at full
            omega
      · intro old eq
        rw [sent] at eq
        cases Option.some.inj eq
        exact Nat.le_succ _
    · contradiction
  | deliver packet truncates mallocOk =>
    simp only [step] at ok
    split at ok
    · rename_i m
      obtain ⟨w1,ran,inv1⟩ := invDeliver inv m truncates mallocOk
      rw [ran] at ok
      cases Option.some.inj ok
      exact inv1
    · contradiction
  | timeout last =>
    cases Option.some.inj ok
    exact invTimeout inv last
  | read blocks =>
    simp only [step] at ok
    split at ok
    · rename_i pc
      cases Option.some.inj ok
      have opened : Opened v w.client := by
        have fits := inv.client
        unfold Fits at fits
        rwa [pc] at fits
      exact invAfter inv (readGoes _ (openedPc opened w.client.pc none))
    · contradiction

theorem invBegun (v : Server) : Inv v begun := by
  refine ⟨rfl,?_,by simp [begun],by simp [begun],by simp [begun]⟩
  intro n m
  simp [begun] at m

/- Whatever the network does, at every moment a prefix of the file has been delivered,
and the whole file once the end has been seen and the buffer is empty; and whatever is
delivered to the client next has a defined effect. -/
theorem transferDelivers {events : List Event} (ok : run (step v) begun events = some w) :
    w.client.delivered <+: v.file ∧
      (w.client.sock.goteof = true → w.client.sock.bytesleft = 0 → w.client.delivered = v.file) ∧
      ∀ packet ∈ w.toClient, ∀ truncates mallocOk, (step v w (.deliver packet truncates mallocOk)).isSome := by
  have inv := runInvariant (fun _ e w' inv here => invStep e w' inv here) (invBegun v) ok
  obtain ⟨pre,whole⟩ := fitsDelivers inv.client
  refine ⟨pre,whole,?_⟩
  intro packet m truncates mallocOk
  obtain ⟨w',ran,_⟩ := invDeliver inv m truncates mallocOk
  rw [step,if_pos m,ran]
  rfl

/- A file of 65 bytes from a server that offers blksize 64. -/
def smallServer : Server where
  file := List.replicate 64 7 ++ [9]
  offer := some [⟨blksizeName,[54,52]⟩]
  wellFormed := by
    intro offered eq
    cases Option.some.inj eq
    refine ⟨?_,by decide⟩
    intro o m
    rw [List.mem_singleton.mp m]
    exact ⟨Or.inr (by decide),by simp,by decide⟩
  few := by decide

/- The first block arrives twice, and the OACK once more before the second block. -/
theorem transferDeliversSmall :
    ∃ w, run (step smallServer) begun [.request,.deliver (smallServer.packet 0) false true,.read 1,.ack 0,
        .deliver (smallServer.packet 1) false true,.deliver (smallServer.packet 1) false true,.ack 1,
        .deliver (smallServer.packet 0) true true,.deliver (smallServer.packet 2) false true] = some w ∧
      w.client.sock.goteof = true ∧ w.client.delivered <+: smallServer.file ∧
      (w.client.sock.goteof = true → w.client.sock.bytesleft = 0 → w.client.delivered = smallServer.file) := by
  have ends : (run (step smallServer) begun [.request,.deliver (smallServer.packet 0) false true,.read 1,.ack 0,
      .deliver (smallServer.packet 1) false true,.deliver (smallServer.packet 1) false true,.ack 1,
      .deliver (smallServer.packet 0) true true,.deliver (smallServer.packet 2) false true]).map
      (fun w => w.client.sock.goteof) = some true := by decide
  obtain ⟨w,ran,eof⟩ := Option.map_eq_some_iff.mp ends
  exact ⟨w,ran,eof,(transferDelivers ran).1,(transferDelivers ran).2.1⟩

end
end Syslinux.Tftp
