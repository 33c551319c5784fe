import Syslinux.Opal

/-! Once the session is open, unlockOpal closes it exactly when the drive accepted the unlock
and, where the shadow MBR is enabled, MBRDone; and a return of 0 means that it accepted all. -/
namespace Syslinux.Opal

/- One exec, as far as the drive decides it: the response unless a command failed, and the
replies left. -/
def exchange : List Reply → Option (Option Buffer × List Reply)
  | [] => none
  | r::rest =>
    if r.rc ≠ 0 then some (none,rest)
    else (receive rest).map (fun (r,rest) => (if r.rc ≠ 0 then none else some r.data,rest))

def Started (replies : List Reply) (tsn : Nat) (rest : List Reply) : Prop :=
  ∃ resp, exchange replies = some (some resp,rest) ∧ readTsn resp = .ok tsn

/- A method call is answered with status 0. -/
def Accepted (replies rest : List Reply) : Prop :=
  ∃ resp, exchange replies = some (some resp,rest) ∧ tokenHeader resp = 0xf0 ∧ methodStatus resp = 0x00

def Ended (replies : List Reply) : Prop :=
  ∃ resp rest, exchange replies = some (some resp,rest) ∧ tokenHeader resp = 0xfa

def IsEndSession (tsn : Nat) (b : Buffer) : Prop := tokenHeader b = 0xfa ∧ be32 b 20 = tsn

structure Promise (d : DiskInfo) (replies : List Reply) (code : Nat) (sent : List Buffer) : Prop where
  closes : ∀ tsn rest, Started replies tsn rest → ∃ b ∈ sent, IsEndSession tsn b
  success : code = 0 → ∃ tsn rest rest1, Started replies tsn rest ∧ Accepted rest rest1 ∧
    if d.lockingMBREnabled then ∃ rest2, Accepted rest1 rest2 ∧ Ended rest2 else Ended rest1

def AcceptsAll (d : DiskInfo) (replies : List Reply) : Prop :=
  ∀ tsn rest, Started replies tsn rest → ∃ rest1, Accepted rest rest1 ∧
    (d.lockingMBREnabled = true → ∃ rest2, Accepted rest1 rest2)

variable {p p' : Port} {cmd resp b : Buffer} {rc code tsn comid : Nat} {replies rest : List Reply}

theorem execSpec (ran : exec p cmd = some (rc,resp,p')) : p'.sent = p.sent ++ [cmd] ∧
    exchange p.replies = some (if rc = 0 then some resp else none,p'.replies) := by
  rw [exec] at ran
  cases eq : p.replies with
  | nil =>
    rw [eq] at ran
    cases ran
  | cons r rest =>
    rw [eq] at ran
    rw [exchange]
    simp only at ran
    by_cases failed : r.rc ≠ 0
    · rw [if_pos failed] at ran ⊢
      cases ran
      simp [failed]
    rw [if_neg failed] at ran ⊢
    obtain ⟨⟨last,left⟩,got,ran⟩ := Option.bind_eq_some_iff.mp ran
    simp only [got,Option.map_some] at ran ⊢
    by_cases failed2 : last.rc ≠ 0
    · rw [if_pos failed2] at ran ⊢
      cases ran
      simp [failed2]
    · rw [if_neg failed2] at ran ⊢
      cases ran
      simp

theorem be16Small (b : Buffer) (off : Nat) : be16 b off < 2^32 := by
  have := (b off).toNat_lt
  have := (b (off+1)).toNat_lt
  unfold be16
  omega

theorem be32Small (b : Buffer) (off : Nat) : be32 b off < 2^32 := by
  have := (b off).toNat_lt
  have := (b (off+1)).toNat_lt
  have := (b (off+2)).toNat_lt
  have := (b (off+3)).toNat_lt
  unfold be32
  omega

theorem tsnSmall (read : readTsn resp = .ok tsn) : tsn < 2^32 := by
  unfold readTsn at read
  simp only at read
  split at read
  · cases read
  split at read
  · cases read
  split at read
  · cases read
  split at read
  · cases read
  split at read
  · cases Except.ok.inj read
    exact Nat.lt_trans (UInt8.toNat_lt _) (by decide)
  split at read
  · cases Except.ok.inj read
    exact be16Small _ _
  split at read
  · cases Except.ok.inj read
    exact be32Small _ _
  · cases read

theorem readTsnCode (read : readTsn resp = .error code) : code ≠ 0 := by
  unfold readTsn at read
  simp only at read
  split at read
  · cases read
    decide
  split at read
  · cases read
    decide
  split at read
  · cases read
    decide
  split at read
  · cases read
    decide
  split at read
  · cases read
  split at read
  · cases read
  split at read
  · cases read
  · cases read
    decide

theorem setTsnRead (small : tsn < 2^32) (b : Buffer) : be32 (setTsn tsn b) 20 = tsn := by
  simp [be32,setTsn]
  omega

theorem setTsnToken (tsn : Nat) (b : Buffer) : tokenHeader (setTsn tsn b) = tokenHeader b := by
  simp [tokenHeader,sizeofHeader,setTsn]

theorem setHashToken (hash : List UInt8) (b : Buffer) : tokenHeader (setHash hash b) = tokenHeader b := by
  simp [tokenHeader,sizeofHeader,setHash]

theorem commandToken (template : List UInt8) (comid : Nat) :
    tokenHeader (command template comid) = template.getD 56 0 := by
  simp [tokenHeader,sizeofHeader,command]

theorem endSessionSent (small : tsn < 2^32) (comid : Nat) : IsEndSession tsn (setTsn tsn (command endSession comid)) := by
  refine ⟨?_,setTsnRead small _⟩
  rw [setTsnToken,commandToken]
  rfl

theorem otherSent {template : List UInt8} (call : template.getD 56 0 = 0xf8) (comid t tsn : Nat) (hash : List UInt8) :
    ¬IsEndSession tsn (setTsn t (command template comid)) ∧
    ¬IsEndSession tsn (setHash hash (command template comid)) := by
  unfold IsEndSession
  rw [setTsnToken,setHashToken,commandToken,call]
  simp

theorem acceptedIff (ran : exec p cmd = some (rc,resp,p')) (rest : List Reply) : Accepted p.replies rest ↔
    rc = 0 ∧ tokenHeader resp = 0xf0 ∧ methodStatus resp = 0x00 ∧ rest = p'.replies := by
  obtain ⟨_,answer⟩ := execSpec ran
  unfold Accepted
  rw [answer]
  by_cases fine : rc = 0
  · simp only [fine,if_true,Option.some.injEq,Prod.mk.injEq,true_and]
    constructor
    · rintro ⟨other,⟨rfl,rfl⟩,token,status⟩
      exact ⟨token,status,rfl⟩
    · rintro ⟨token,status,rfl⟩
      exact ⟨resp,⟨rfl,rfl⟩,token,status⟩
  · simp [fine]

theorem startedIff (ran : exec p cmd = some (rc,resp,p')) (tsn : Nat) (rest : List Reply) :
    Started p.replies tsn rest ↔ rc = 0 ∧ readTsn resp = .ok tsn ∧ rest = p'.replies := by
  obtain ⟨_,answer⟩ := execSpec ran
  unfold Started
  rw [answer]
  by_cases fine : rc = 0
  · simp only [fine,if_true,Option.some.injEq,Prod.mk.injEq,true_and]
    constructor
    · rintro ⟨other,⟨rfl,rfl⟩,read⟩
      exact ⟨read,rfl⟩
    · rintro ⟨read,rfl⟩
      exact ⟨resp,⟨rfl,rfl⟩,read⟩
  · simp [fine]

theorem closeSpec (closed : closeSession comid tsn p = some (code,p')) :
    p'.sent = p.sent ++ [setTsn tsn (command endSession comid)] ∧ (code = 0 → Ended p.replies) := by
  obtain ⟨⟨rc,resp,p1⟩,ran,closed⟩ := Option.bind_eq_some_iff.mp closed
  obtain ⟨sent,answer⟩ := execSpec ran
  simp only at closed
  split at closed
  · cases closed
    exact ⟨sent,by simp⟩
  split at closed
  · cases closed
    exact ⟨sent,by simp⟩
  · rename_i fine token
    cases closed
    rw [if_pos (not_not.mp fine)] at answer
    exact ⟨sent,fun _ => ⟨resp,_,answer,not_not.mp token⟩⟩

theorem mbrDoneSpec (ran : setMbrDone comid tsn p = some (code,p')) :
    (∃ rest, Accepted p.replies rest ∧ p'.sent = p.sent ++
      [setTsn tsn (command mbrDone comid),setTsn tsn (command endSession comid)] ∧ (code = 0 → Ended rest)) ∨
    ((∀ rest, ¬Accepted p.replies rest) ∧ p'.sent = p.sent ++ [setTsn tsn (command mbrDone comid)] ∧ code ≠ 0) := by
  obtain ⟨⟨rc,resp,p1⟩,first,ran⟩ := Option.bind_eq_some_iff.mp ran
  have sent := (execSpec first).1
  have accepted := acceptedIff first
  simp only at ran
  split at ran
  · rename_i failed
    cases ran
    exact Or.inr ⟨fun rest => by rw [accepted]; exact fun h => failed h.1,sent,by simp⟩
  split at ran
  · rename_i token
    cases ran
    exact Or.inr ⟨fun rest => by rw [accepted]; exact fun h => token h.2.1,sent,by simp⟩
  split at ran
  · rename_i status
    cases ran
    exact Or.inr ⟨fun rest => by rw [accepted]; exact fun h => status h.2.2.1,sent,by simp⟩
  · rename_i fine token status
    obtain ⟨sent2,ended⟩ := closeSpec ran
    refine Or.inl ⟨p1.replies,(accepted _).mpr ⟨not_not.mp fine,not_not.mp token,not_not.mp status,rfl⟩,?_,ended⟩
    rw [sent2,sent]
    simp

section
variable {hash : List UInt8 → List UInt8 → List UInt8} {pass : List UInt8} {d : DiskInfo}

inductive Exit (d : DiskInfo) (replies : List Reply) (code : Nat) (sent : List Buffer) : Prop where
  | unopened (none1 : ∀ tsn rest, ¬Started replies tsn rest) (code1 : code ≠ 0)
  | refused {tsn : Nat} {rest : List Reply} (started : Started replies tsn rest)
      (refused : ¬∃ rest1, Accepted rest rest1 ∧ (d.lockingMBREnabled = true → ∃ rest2, Accepted rest1 rest2))
      (code1 : code ≠ 0) (sent1 : ∀ b ∈ sent, ∀ tsn, ¬IsEndSession tsn b)
  | closed {tsn : Nat} {rest rest1 : List Reply} (started : Started replies tsn rest) (accepted : Accepted rest rest1)
      (done : if d.lockingMBREnabled then ∃ rest2, Accepted rest1 rest2 ∧ (code = 0 → Ended rest2)
        else (code = 0 → Ended rest1))
      (sent1 : ∃ b ∈ sent, IsEndSession tsn b)

theorem startedUnique {tsn' : Nat} {rest' : List Reply} (one : Started replies tsn rest)
    (two : Started replies tsn' rest') : tsn = tsn' ∧ rest = rest' := by
  obtain ⟨resp,eq,read⟩ := one
  obtain ⟨resp',eq',read'⟩ := two
  rw [eq] at eq'
  cases eq'
  rw [read] at read'
  cases read'
  exact ⟨rfl,rfl⟩

theorem acceptedUnique {rest' : List Reply} (one : Accepted replies rest) (two : Accepted replies rest') :
    rest = rest' := by
  obtain ⟨resp,eq,_⟩ := one
  obtain ⟨resp',eq',_⟩ := two
  rw [eq] at eq'
  cases eq'
  rfl

theorem unlockExit (ran : unlockOpal hash pass d p = some (code,p')) (fresh : p.sent = []) :
    Exit d p.replies code p'.sent := by
  obtain ⟨⟨rc,resp,p1⟩,first,ran⟩ := Option.bind_eq_some_iff.mp ran
  have sent1 := (execSpec first).1
  have started := startedIff first
  simp only at ran
  split at ran
  · rename_i failed
    cases ran
    exact .unopened (fun tsn rest => by rw [started]; exact fun h => failed h.1) (by simp)
  rename_i fine
  cases read : readTsn resp with
  | error e =>
    rw [read] at ran
    cases ran
    exact .unopened (fun tsn rest => by rw [started,read]; exact fun h => nomatch h.2.1) (readTsnCode read)
  | ok tsn =>
    rw [read] at ran
    have open1 : Started p.replies tsn p1.replies := (started _ _).mpr ⟨not_not.mp fine,read,rfl⟩
    obtain ⟨⟨rc2,resp2,p2⟩,second,ran⟩ := Option.bind_eq_some_iff.mp ran
    have sent2 := (execSpec second).1
    have accepted := acceptedIff second
    rw [sent1,fresh] at sent2
    have quiet : ∀ b ∈ p2.sent, ∀ t, ¬IsEndSession t b := by
      intro b mem t
      rw [sent2] at mem
      simp only [List.nil_append,List.cons_append,List.mem_cons,List.not_mem_nil,or_false] at mem
      rcases mem with rfl | rfl
      · exact (otherSent rfl _ 0 t _).2
      · exact (otherSent rfl _ tsn t []).1
    simp only at ran
    split at ran
    · rename_i failed
      cases ran
      exact .refused open1 (fun ⟨rest1,h,_⟩ => failed ((accepted rest1).mp h).1) (by simp) quiet
    split at ran
    · rename_i token
      cases ran
      exact .refused open1 (fun ⟨rest1,h,_⟩ => token ((accepted rest1).mp h).2.1) (by simp) quiet
    split at ran
    · rename_i status
      cases ran
      exact .refused open1 (fun ⟨rest1,h,_⟩ => status ((accepted rest1).mp h).2.2.1) (by simp) quiet
    rename_i fine2 token status
    have unlocked : Accepted p1.replies p2.replies :=
      (accepted _).mpr ⟨not_not.mp fine2,not_not.mp token,not_not.mp status,rfl⟩
    have last := endSessionSent (tsnSmall read) (comidOf d)
    split at ran
    · rename_i shadowed
      rcases mbrDoneSpec ran with ⟨rest2,done,sent3,ended⟩ | ⟨refused,sent3,nonzero⟩
      · refine .closed open1 unlocked ?_ ⟨_,?_,last⟩
        · rw [if_pos shadowed]
          exact ⟨rest2,done,ended⟩
        · rw [sent3]
          simp
      · refine .refused open1 ?_ nonzero ?_
        · rintro ⟨rest1,h,more⟩
          obtain ⟨rest2,h2⟩ := more shadowed
          rw [acceptedUnique h unlocked] at h2
          exact refused rest2 h2
        · intro b mem t
          rw [sent3] at mem
          rcases List.mem_append.mp mem with mem | mem
          · exact quiet b mem t
          · rw [List.mem_singleton.mp mem]
            exact (otherSent rfl _ tsn t []).1
    · rename_i plain
      obtain ⟨sent3,ended⟩ := closeSpec ran
      refine .closed open1 unlocked ?_ ⟨_,?_,last⟩
      · rw [if_neg plain]
        exact ended
      · rw [sent3]
        simp

theorem promiseIff {sent : List Buffer} (exit : Exit d replies code sent) :
    Promise d replies code sent ↔ AcceptsAll d replies := by
  cases exit with
  | unopened none1 code1 =>
    exact ⟨fun _ tsn rest h => absurd h (none1 tsn rest),
      fun _ => ⟨fun tsn rest h => absurd h (none1 tsn rest),fun h => absurd h code1⟩⟩
  | refused started refused code1 sent1 =>
    constructor
    · intro promise
      obtain ⟨b,mem,ends⟩ := promise.closes _ _ started
      exact absurd ends (sent1 b mem _)
    · intro accepts
      exact absurd (accepts _ _ started) refused
  | @closed tsn rest rest1 started accepted done sent1 =>
    constructor
    · intro _ tsn' rest' started'
      obtain ⟨rfl,rfl⟩ := startedUnique started started'
      refine ⟨rest1,accepted,?_⟩
      intro shadowed
      rw [if_pos shadowed] at done
      obtain ⟨rest2,h,_⟩ := done
      exact ⟨rest2,h⟩
    · intro _
      refine ⟨?_,?_⟩
      · intro tsn' rest' started'
        obtain ⟨rfl,rfl⟩ := startedUnique started started'
        exact sent1
      · intro success
        refine ⟨tsn,rest,rest1,started,accepted,?_⟩
        split at done
        · rename_i shadowed
          rw [if_pos shadowed]
          obtain ⟨rest2,h,ended⟩ := done
          exact ⟨rest2,h,ended success⟩
        · rename_i plain
          rw [if_neg plain]
          exact done success

theorem unlockClosesSession (hash : List UInt8 → List UInt8 → List UInt8) (pass : List UInt8) (d : DiskInfo)
    (replies : List Reply) (printed : List String) {code : Nat} {p : Port}
    (returned : unlockOpal hash pass d ⟨replies,[],printed⟩ = some (code,p)) :
    Promise d replies code p.sent ↔ AcceptsAll d replies :=
  promiseIff (unlockExit returned rfl)

/- A drive that opens session 1 of host session 0x69. -/
def startReply : Buffer := fun i =>
  if i = 56 then 0xf8 else if i = 75 then 0xf0 else if i = 76 then 0x81 else if i = 77 then 0x69
  else if i = 78 then 0x81 else if i = 79 then 0x01 else 0

def methodReply (status : UInt8) : Buffer := fun i => if i = 56 then 0xf0 else if i = 60 then status else 0

def opalDisk : DiskInfo := ⟨true,0x07fe,0x07fe,false,[]⟩

def acceptingDrive : List Reply :=
  [⟨0,fun _ => 0⟩,⟨0,startReply⟩,⟨0,fun _ => 0⟩,⟨0,methodReply 0⟩,⟨0,fun _ => 0⟩,
    ⟨0,fun i => if i = 56 then 0xfa else 0⟩]

def refusingDrive : List Reply := [⟨0,fun _ => 0⟩,⟨0,startReply⟩,⟨0,fun _ => 0⟩,⟨0,methodReply 1⟩]

theorem unlockClosesSessionAccepted : ∃ p,
    unlockOpal (fun _ _ => []) [] opalDisk ⟨acceptingDrive,[],[]⟩ = some (0,p) ∧
    (Promise opalDisk acceptingDrive 0 p.sent ↔ AcceptsAll opalDisk acceptingDrive) := by
  obtain ⟨p,returned⟩ : ∃ p, unlockOpal (fun _ _ => []) [] opalDisk ⟨acceptingDrive,[],[]⟩ = some (0,p) := ⟨_,rfl⟩
  exact ⟨p,returned,unlockClosesSession _ _ _ _ _ returned⟩

/- The drive refuses the unlock: unlockOpal returns 22 with the session open. -/
theorem unlockLeavesSession : ∃ p,
    unlockOpal (fun _ _ => []) [] opalDisk ⟨refusingDrive,[],[]⟩ = some (22,p) ∧
    Started refusingDrive 1 [⟨0,fun _ => 0⟩,⟨0,methodReply 1⟩] ∧ ¬Promise opalDisk refusingDrive 22 p.sent := by
  obtain ⟨p,returned⟩ : ∃ p, unlockOpal (fun _ _ => []) [] opalDisk ⟨refusingDrive,[],[]⟩ = some (22,p) := ⟨_,rfl⟩
  have started : Started refusingDrive 1 [⟨0,fun _ => 0⟩,⟨0,methodReply 1⟩] := ⟨startReply,rfl,rfl⟩
  refine ⟨p,returned,started,?_⟩
  intro promise
  obtain ⟨rest1,⟨resp,answer,_,status⟩,_⟩ := (promiseIff (unlockExit returned rfl)).mp promise 1 _ started
  have same : exchange [⟨0,fun _ => 0⟩,⟨0,methodReply 1⟩] = some (some (methodReply 1),[]) := rfl
  rw [same] at answer
  cases answer
  exact absurd status (by decide)

end

end Syslinux.Opal
