import Syslinux.Diskio

/-! Where the INT 13h transfers go: each moves some sectors of one track, within 64 KB. Only the pointer that CHS loads
to directly can have left low memory. -/
namespace Syslinux.Diskio

/- What bios_disk_init sets up, for a geometry that the registers can hold: the sectors of a cylinder, a maxtransfer, and the
transfer buffer, aligned to 64 KB in low memory. -/
structure Sound (w : World) (d : Disk) : Prop where
  shift : d.sectorShift ≤ 15
  some' : 1 ≤ d.maxtransfer
  byte : d.maxtransfer < 2^8
  heads : d.h ≤ 2^8
  sectors : d.s < 2^6
  cylinder : d.secpercyl = d.h * d.s
  start : d.partStart < 2^64
  aligned : w.xferBuf % 2^16 = 0
  low : w.xferBuf + 2^16 ≤ 2^20

/- The sectors of a CHS transfer lie on one track. -/
def OneTrack (d : Disk) : Call → Prop
  | .chs al _ cl _ _ => 1 ≤ cl % 64 ∧ cl % 64 - 1 + al ≤ d.s
  | _ => True

/- A transfer of at least one sector, within 64 KB. -/
structure Sized (d : Disk) (call : Call) : Prop where
  moves : 1 ≤ call.blocks
  segment : call.ptr % 2^16 + call.blocks * d.sectorSize ≤ 2^16
  track : OneTrack d call

/- The memory that the transfer is meant for is what its far pointer points to, all of it below 1 MB. -/
def RealMode (d : Disk) (call : Call) : Prop :=
  seg call.ptr * 16 + offs call.ptr = call.ptr ∧ call.ptr + call.blocks * d.sectorSize ≤ 2^20

theorem farPtr {p : Nat} (low : p < 2^20) : seg p * 16 + offs p = p := by
  unfold seg offs
  omega

theorem sizedRealMode {d : Disk} {call : Call} (sized : Sized d call) (low : call.ptr < 2^20) : RealMode d call := by
  have segment := sized.segment
  exact ⟨farPtr low,by omega⟩

def Grown (P : Call → Prop) (m m' : Machine) : Prop :=
  ∃ new,m'.calls = m.calls ++ new ∧ ∀ c ∈ new,P c.1

section
variable {w : World} {d : Disk} {isWrite : Bool} {m m' m'' : Machine} {P : Call → Prop}

theorem grownSame (same : m'.calls = m.calls) : Grown P m m' :=
  ⟨[],by rw [same,List.append_nil],fun _ mem => by cases mem⟩

theorem grownOne {call : Call} {ok : Bool} (good : P call) (one : m'.calls = m.calls ++ [(call,ok)]) : Grown P m m' :=
  ⟨[(call,ok)],one,fun c mem => by rw [List.mem_singleton.mp mem]; exact good⟩

theorem grownTrans (first : Grown P m m') (second : Grown P m' m'') : Grown P m m'' := by
  obtain ⟨new,eq,all⟩ := first
  obtain ⟨new',eq',all'⟩ := second
  refine ⟨new ++ new',by rw [eq',eq,List.append_assoc],fun c mem => ?_⟩
  exact (List.mem_append.mp mem).elim (all c) (all' c)

theorem int13Calls (call : Call) :
    (int13 w d isWrite m call).1.calls = m.calls ++ [(call,(int13 w d isWrite m call).2)] := by
  unfold int13
  split <;> rfl

/- The retries come to an end, with sizes from the first one down to a sector. -/
theorem attemptsGrown {resets : Bool} {issue : Nat → Call} {fuel chunk retry maxtransfer : Nat}
    (good : ∀ k,1 ≤ k → k ≤ chunk → P (issue k)) (reset : resets = true → P .reset) (some' : 1 ≤ chunk)
    (enough : (retryCount + 1) * chunk + retry < fuel) :
    ∃ m' r,attempts w d isWrite resets issue fuel chunk retry maxtransfer m = some (m',r) ∧ Grown P m m' ∧
      ∀ k max',r = some (k,max') → 1 ≤ k ∧ k ≤ chunk ∧ (max' = maxtransfer ∨ 1 ≤ max' ∧ max' ≤ chunk) := by
  unfold retryCount at enough
  induction fuel generalizing chunk retry maxtransfer m with
  | zero => omega
  | succ fuel ih =>
    have called := grownOne (good chunk some' (Nat.le_refl _)) (@int13Calls w d isWrite m (issue chunk))
    unfold attempts
    generalize int13 w d isWrite m (issue chunk) = result at called
    obtain ⟨m1,ok⟩ := result
    simp only at called ⊢
    by_cases done : ok = true
    · rw [if_pos done]
      refine ⟨m1,_,rfl,called,?_⟩
      rintro k max' same
      cases same
      exact ⟨some',Nat.le_refl _,Or.inl rfl⟩
    rw [if_neg done]
    by_cases again : retry ≠ 0
    · rw [if_pos again]
      have fewer : (6 + 1) * chunk + (retry - 1) < fuel := by omega
      obtain ⟨m',r,run,grown,size⟩ := @ih m1 chunk (retry - 1) maxtransfer good some' fewer
      exact ⟨m',r,run,grownTrans called grown,size⟩
    rw [if_neg again]
    generalize was : (if resets then { m1 with calls := m1.calls ++ [(.reset,true)] } else m1 : Machine) = m2
    have after : Grown P m m2 := by
      rw [← was]
      split
      · rename_i on
        exact grownTrans called (grownOne (reset on) rfl)
      · exact called
    by_cases more : chunk / 2 ≠ 0
    · rw [if_pos more]
      have fewer : (6 + 1) * (chunk / 2) + retryCount < fuel := by unfold retryCount; omega
      obtain ⟨m',r,run,grown,size⟩ := @ih m2 (chunk / 2) retryCount (chunk / 2) (fun k one le => good k one (by omega))
        (by omega) fewer
      refine ⟨m',r,run,grownTrans after grown,fun k max' same => ?_⟩
      obtain ⟨one,le,which⟩ := size k max' same
      exact ⟨one,by omega,Or.inr (by omega)⟩
    · rw [if_neg more]
      exact ⟨m2,none,rfl,after,fun k max' same => by cases same⟩

theorem transferGrown {resets : Bool} {issue : Nat → Call} {ptr tptr chunk : Nat}
    (good : ∀ k,1 ≤ k → k ≤ chunk → P (issue k))
    (reset : resets = true → P .reset) (some' : 1 ≤ chunk) :
    ∃ m' r,transfer w d isWrite resets issue ptr tptr chunk m = some (m',r) ∧ Grown P m m' ∧
      ∀ k max',r = some (k,max') → 1 ≤ k ∧ k ≤ chunk ∧ (max' = d.maxtransfer ∨ 1 ≤ max' ∧ max' ≤ chunk) := by
  unfold transfer
  generalize was : (if tptr ≠ ptr ∧ isWrite then memcpy m tptr ptr (chunk * d.sectorSize) else m) = m1
  have before : m1.calls = m.calls := by
    rw [← was]
    split <;> rfl
  have enough : (retryCount + 1) * chunk + retryCount < attemptsFuel chunk := by
    unfold attemptsFuel retryCount
    omega
  obtain ⟨m2,r,run,grown,size⟩ := @attemptsGrown w d isWrite m1 P resets issue _ _ _ d.maxtransfer good reset some' enough
  have grown' : Grown P m m2 := grownTrans (grownSame before) grown
  simp only [run,Option.bind_eq_bind,Option.bind_some]
  cases r with
  | none => exact ⟨m2,none,rfl,grown',fun k max' same => by cases same⟩
  | some pair =>
    refine ⟨_,_,rfl,grownTrans grown' (grownSame ?_),size⟩
    split <;> rfl

theorem placeFits (sound : Sound w d) (low ptr : Nat) : 1 ≤ (place w d low ptr).2 ∧
    (place w d low ptr).1 % 2^16 + (place w d low ptr).2 * d.sectorSize ≤ 2^16 := by
  have fits (p : Nat) : p % 2^16 + freeseg d p * d.sectorSize ≤ 2^16 := by
    have most := Nat.div_mul_le_self (0x10000 - p % 2^16) (2^d.sectorShift)
    unfold freeseg Disk.sectorSize
    omega
  unfold place
  split
  · rename_i direct
    exact ⟨Nat.one_le_iff_ne_zero.mpr direct.2,fits ptr⟩
  · refine ⟨?_,fits w.xferBuf⟩
    have small : 2^d.sectorShift ≤ 2^15 := Nat.pow_le_pow_right (by decide) sound.shift
    have aligned := sound.aligned
    unfold freeseg
    refine (Nat.le_div_iff_mul_le (Nat.two_pow_pos _)).mpr ?_
    omega

theorem placeLow (sound : Sound w d) {low ptr : Nat} (fine : low ≤ 0xf0000 → ptr < 2^20) :
    (place w d low ptr).1 < 2^20 := by
  have below := sound.low
  unfold place
  split
  · rename_i direct
    exact fine direct.1
  · simp only
    omega

theorem sectorField {c s : Nat} (small : s < 2^6 - 1) :
    ((c / 2^8 % 4) * 64 ||| (s + 1)) % 2^8 = c / 2^8 % 4 * 64 + (s + 1) := by
  have apart := Nat.two_pow_add_eq_or_of_lt (show s + 1 < 2^6 by omega) (c / 2^8 % 4)
  rw [Nat.mul_comm,← apart]
  omega

theorem chsCallSized (sound : Sound w d) {xlba tptr k free : Nat} (some' : 1 ≤ k) (transfer : k ≤ d.maxtransfer)
    (track : k ≤ d.s - xlba % d.s) (inside : k ≤ free) (fits : tptr % 2^16 + free * d.sectorSize ≤ 2^16) :
    Sized d (chsCall d xlba tptr k) := by
  have byte := sound.byte
  have sectors := sound.sectors
  have less : xlba % d.s < d.s := by omega
  have blocks : k % 2^8 = k := Nat.mod_eq_of_lt (by omega)
  have most : k * d.sectorSize ≤ free * d.sectorSize := Nat.mul_le_mul_right _ inside
  have field := @sectorField (xlba / d.s / d.h) (xlba % d.s) (by omega)
  refine ⟨?_,?_,?_⟩
  · simp only [chsCall,Call.blocks,blocks]
    exact some'
  · simp only [chsCall,Call.blocks,Call.ptr,blocks]
    omega
  · simp only [chsCall,OneTrack,blocks,field]
    omega

theorem eddCallSized {tptr lba k free : Nat} (some' : 1 ≤ k) (word : k < 2^16) (inside : k ≤ free)
    (fits : tptr % 2^16 + free * d.sectorSize ≤ 2^16) : Sized d (.edd (k % 2^16) tptr lba) := by
  have most : k * d.sectorSize ≤ free * d.sectorSize := Nat.mul_le_mul_right _ inside
  refine ⟨?_,?_,trivial⟩
  · simp only [Call.blocks]
    omega
  · simp only [Call.blocks,Call.ptr,Nat.mod_eq_of_lt word]
    omega

theorem soundMax (sound : Sound w d) {max' : Nat} (some' : 1 ≤ max') (byte : max' < 2^8) :
    Sound w { d with maxtransfer := max' } :=
  ⟨sound.shift,some',byte,sound.heads,sound.sectors,sound.cylinder,sound.start,sound.aligned,sound.low⟩

theorem sizedMax {max' : Nat} {call : Call} (sized : Sized { d with maxtransfer := max' } call) : Sized d call := by
  refine ⟨sized.moves,sized.segment,?_⟩
  have track := sized.track
  cases call <;> exact track

theorem grownImp {Q : Call → Prop} (grown : Grown P m m') (imp : ∀ c,P c → Q c) : Grown Q m m' := by
  obtain ⟨new,eq,all⟩ := grown
  exact ⟨new,eq,fun c mem => imp _ (all c mem)⟩

/- Only CHS loads directly behind low memory. -/
def Kept (fine : Prop) : Call → Prop
  | .chs .. => fine
  | _ => True

theorem keptOf {fine : Prop} {call : Call} (ok : fine) : Kept fine call := by
  cases call with
  | chs => exact ok
  | _ => trivial

/- No transfer leaves its bounds, and none leaves low memory as long as `fine` keeps the direct loads there. -/
def Bounded (d : Disk) (fine : Prop) (call : Call) : Prop :=
  call ≠ .reset → Sized d call ∧ (Kept fine call → call.ptr < 2^20)

/- The buffer begins above the end of low memory, or its last sector begins below 1 MB. -/
def LowBuffer (d : Disk) (buf count : Nat) : Prop := 0xf0000 < buf ∨ ∀ k < count,buf + k * d.sectorSize < 2^20

theorem chsLoopBounded {fine : Prop} {buf : Nat} (fuel : Nat) {ptr xlba count done : Nat} (sound : Sound w d)
    (enough : count ≤ fuel)
    (geometry : 0 < d.s) (low : fine → 0xf0000 < buf ∨ ∀ k < count,ptr + k * d.sectorSize < 2^20) :
    ∃ m' d' n,chsLoop w buf isWrite fuel d m ptr xlba count done = some (m',d',n) ∧ Grown (Bounded d fine) m m' := by
  induction fuel generalizing d m ptr xlba count done with
  | zero =>
    obtain rfl : count = 0 := by omega
    exact ⟨m,d,done,by rw [chsLoop]; simp,grownSame rfl⟩
  | succ fuel ih =>
    by_cases none' : count = 0
    · subst none'
      exact ⟨m,d,done,by rw [chsLoop]; simp,grownSame rfl⟩
    rw [chsLoop,if_neg none']
    obtain ⟨free,fits⟩ := placeFits sound buf ptr
    have target : fine → (place w d buf ptr).1 < 2^20 := fun ok => placeLow sound fun direct => by
      rcases low ok with high | all
      · omega
      · simpa using all 0 (by omega)
    generalize place w d buf ptr = at' at free fits target
    obtain ⟨tptr,freeseg⟩ := at'
    simp only at free fits target ⊢
    have rest := Nat.mod_lt xlba geometry
    have max1 := sound.some'
    have max2 := sound.byte
    generalize size : min (min (min count d.maxtransfer) freeseg) (d.s - xlba % d.s) = chunk
    by_cases cylinder : xlba / d.s / d.h < 1024
    · rw [if_pos cylinder]
      have good : ∀ k,1 ≤ k → k ≤ chunk → Bounded d fine (chsCall d xlba tptr k) := fun k one le _ =>
        ⟨chsCallSized sound one (by omega) (by omega) (show k ≤ freeseg by omega) fits,target⟩
      obtain ⟨m1,r,run,grown,sizes⟩ := @transferGrown w d isWrite m _ false _ ptr tptr chunk good
        (fun on => by cases on) (by omega)
      simp only [run,Option.bind_eq_bind,Option.bind_some]
      cases r with
      | none => exact ⟨m1,d,done,rfl,grown⟩
      | some pair =>
        obtain ⟨k,max'⟩ := pair
        obtain ⟨one,le,which⟩ := sizes k max' rfl
        have sound' := soundMax sound (show 1 ≤ max' by omega) (by omega)
        have low' : fine → 0xf0000 < buf ∨ ∀ j < count - k,ptr + k * d.sectorSize + j * d.sectorSize < 2^20 := fun ok =>
          (low ok).imp id fun all j less => by
            have here := all (k + j) (by omega)
            rwa [Nat.add_mul,← Nat.add_assoc] at here
        obtain ⟨m',d',n,run',grown'⟩ := @ih { d with maxtransfer := max' } m1 (ptr + k * d.sectorSize)
          ((xlba + k) % 2^32) (count - k)
          (done + k) sound' (by omega) geometry low'
        exact ⟨m',d',n,run',grownTrans grown (grownImp grown' fun c bounded some' => (bounded some').imp sizedMax id)⟩
    · rw [if_neg cylinder]
      refine ⟨_,d,done,rfl,grownSame ?_⟩
      split <;> rfl

theorem chsBounded {fine : Prop} {buf lba count : Nat} (sound : Sound w d)
    (low : fine → 0xf0000 < buf ∨ ∀ k < count,buf + k * d.sectorSize < 2^20) :
    ∃ m' d' n,chsRdwrSectors w d m buf lba count isWrite = some (m',d',n) ∧ Grown (Bounded d fine) m m' := by
  unfold chsRdwrSectors
  simp only
  by_cases impossible : chsMax d ≤ (lba + d.partStart) % 2^64
  · rw [if_pos impossible]
    exact ⟨m,d,0,rfl,grownSame rfl⟩
  · rw [if_neg impossible]
    have geometry : 0 < d.s := by
      by_contra none'
      unfold chsMax at impossible
      rw [sound.cylinder,Nat.eq_zero_of_not_pos none',Nat.mul_zero,Nat.zero_mul] at impossible
      exact impossible (Nat.zero_le _)
    exact chsLoopBounded count sound (Nat.le_refl _) geometry low

/- The EDD path never loads directly behind low memory. -/
theorem eddLoopBounded {fine : Prop} (fuel : Nat) {ptr lba count done : Nat} (sound : Sound w d) (enough : count ≤ fuel) :
    ∃ m' d' last,eddLoop w isWrite fuel d m ptr lba count done = some (m',d',last) ∧ Grown (Bounded d fine) m m' ∧
      Sound w d' ∧ (∃ max',d' = { d with maxtransfer := max' }) ∧
      ∀ done' lba' count',last = .gaveUp done' lba' count' → count' ≤ count := by
  induction fuel generalizing d m ptr lba count done with
  | zero =>
    obtain rfl : count = 0 := by omega
    exact ⟨m,d,.all done,by rw [eddLoop]; simp,grownSame rfl,sound,⟨d.maxtransfer,rfl⟩,fun _ _ _ same => by cases same⟩
  | succ fuel ih =>
    by_cases none' : count = 0
    · subst none'
      exact ⟨m,d,.all done,by rw [eddLoop]; simp,grownSame rfl,sound,⟨d.maxtransfer,rfl⟩,fun _ _ _ same => by cases same⟩
    rw [eddLoop,if_neg none']
    obtain ⟨free,fits⟩ := placeFits sound ptr ptr
    have target : (place w d ptr ptr).1 < 2^20 := placeLow sound fun direct => by omega
    generalize place w d ptr ptr = at' at free fits target
    obtain ⟨tptr,freeseg⟩ := at'
    simp only at free fits target ⊢
    have max1 := sound.some'
    have max2 := sound.byte
    generalize size : min (min count d.maxtransfer) freeseg = chunk
    have good : ∀ k,1 ≤ k → k ≤ chunk → Bounded d fine (.edd (k % 2^16) tptr lba) := fun k one le _ =>
      ⟨eddCallSized one (by omega) (show k ≤ freeseg by omega) fits,fun _ => target⟩
    obtain ⟨m1,r,run,grown,sizes⟩ := @transferGrown w d isWrite m _ true
      (fun k => .edd (k % 2^16) tptr lba) ptr tptr chunk good
      (fun _ again => absurd rfl again) (by omega)
    simp only [run,Option.bind_eq_bind,Option.bind_some]
    cases r with
    | none =>
      refine ⟨m1,d,_,rfl,grown,sound,⟨d.maxtransfer,rfl⟩,fun done' lba' count' same => ?_⟩
      cases same
      exact Nat.le_refl _
    | some pair =>
      obtain ⟨k,max'⟩ := pair
      obtain ⟨one,le,which⟩ := sizes k max' rfl
      have sound' := soundMax sound (show 1 ≤ max' by omega) (by omega)
      obtain ⟨m',d',last,run',grown',sound'',⟨max'',rfl⟩,fewer⟩ := @ih { d with maxtransfer := max' } m1
        (ptr + k * d.sectorSize)
        ((lba + k) % 2^64) (count - k) (done + k) sound' (by omega)
      refine ⟨m',_,last,run',grownTrans grown (grownImp grown' fun c bounded some' => (bounded some').imp sizedMax id),sound'',
        ⟨max'',rfl⟩,fun done' lba' count' same => ?_⟩
      have := fewer done' lba' count' same
      omega

theorem eddBounded {fine : Prop} {buf lba count : Nat} (sound : Sound w d)
    (low : fine → 0xf0000 < buf ∨ ∀ k < count,buf + k * d.sectorSize < 2^20) :
    ∃ m' d' n,eddRdwrSectors w d m buf lba count isWrite = some (m',d',n) ∧ Grown (Bounded d fine) m m' := by
  obtain ⟨m1,d1,last,run,grown,sound1,⟨max',rfl⟩,fewer⟩ := @eddLoopBounded w d isWrite m fine count buf
    ((lba + d.partStart) % 2^64)
    count 0 sound (Nat.le_refl _)
  simp only [eddRdwrSectors,run,Option.bind_eq_bind,Option.bind_some]
  cases last with
  | all done => exact ⟨m1,_,done,rfl,grown⟩
  | gaveUp done' lba' count' =>
    have le := fewer done' lba' count' rfl
    have low' : fine → 0xf0000 < buf ∨ ∀ k < count',buf + k * d.sectorSize < 2^20 := fun ok =>
      (low ok).imp id fun all k less => all k (by omega)
    obtain ⟨m2,d2,n,run',grown'⟩ := @chsBounded w { d with maxtransfer := max' } isWrite m1 fine buf
      ((lba' + 2^64 - d.partStart) % 2^64) count' sound1 low'
    have both := grownTrans grown (grownImp grown' fun c bounded some' => (bounded some').imp sizedMax id)
    simp only [run',Option.bind_some]
    split
    · exact ⟨m2,_,n,rfl,both⟩
    · exact ⟨m2,d2,n,rfl,both⟩

/- Whatever the BIOS answers: both functions return, and their transfers move one sector at least, within 64 KB and one
track. The EDD transfers all go to where they are meant to, in real-mode memory, and the CHS transfers do if the buffer
begins above 0xf0000 or its last sector begins below 1 MB. -/
theorem transfersBounded (sound : Sound w d) (mem : Nat → UInt8) (buf lba count : Nat) (isWrite : Bool) :
    ∀ f ∈ [chsRdwrSectors,eddRdwrSectors],∃ m' d' n,f w d ⟨mem,[]⟩ buf lba count isWrite = some (m',d',n) ∧
      ∀ c ∈ m'.calls,c.1 ≠ .reset → Sized d c.1 ∧ (Kept (LowBuffer d buf count) c.1 → RealMode d c.1) := by
  have whole : ∀ m',Grown (Bounded d (LowBuffer d buf count)) ⟨mem,[]⟩ m' → ∀ c ∈ m'.calls,
      c.1 ≠ .reset → Sized d c.1 ∧ (Kept (LowBuffer d buf count) c.1 → RealMode d c.1) := by
    rintro m' ⟨new,eq,all⟩ c mem' some'
    rw [eq,List.nil_append] at mem'
    obtain ⟨sized,low⟩ := all c mem' some'
    exact ⟨sized,fun fine => sizedRealMode sized (low fine)⟩
  intro f either
  rcases List.mem_cons.mp either with rfl | other
  · obtain ⟨m',d',n,run,grown⟩ := @chsBounded w d isWrite ⟨mem,[]⟩ _ buf lba count sound id
    exact ⟨m',d',n,run,whole m' grown⟩
  · obtain rfl := List.mem_singleton.mp other
    obtain ⟨m',d',n,run,grown⟩ := @eddBounded w d isWrite ⟨mem,[]⟩ _ buf lba count sound id
    exact ⟨m',d',n,run,whole m' grown⟩

end
/- A disk of 255 heads and 63 sectors on which every call succeeds. -/
def hardDisk : Disk := ⟨9,127,255,63,16065,0,false⟩
def quietWorld : World := ⟨fun _ _ => 0,fun _ => none,0x50000⟩

theorem hardDiskSound : Sound quietWorld hardDisk :=
  ⟨by decide,by decide,by decide,by decide,by decide,by decide,by decide,by decide,by decide⟩

/- 100 sectors to 0x8100, an address that crosses a 64 KB line. -/
theorem transfersBoundedSmall :
    ∃ m' d' n,chsRdwrSectors quietWorld hardDisk ⟨fun _ => 0,[]⟩ 0x8100 0 100 false = some (m',d',n) ∧
    ∀ c ∈ m'.calls,c.1 ≠ .reset → Sized hardDisk c.1 ∧ RealMode hardDisk c.1 := by
  obtain ⟨m',d',n,run,all⟩ := transfersBounded hardDiskSound (fun _ => 0) 0x8100 0 100 false
    chsRdwrSectors List.mem_cons_self
  have sector : hardDisk.sectorSize = 512 := rfl
  exact ⟨m',d',n,run,fun c mem some' => (all c mem some').imp id fun low =>
    low (keptOf (Or.inr fun k less => by rw [sector]; omega))⟩

/- 129 sectors to 0xf0000: the last one goes to address 0. -/
theorem transferBehindLowMemory :
    ((chsRdwrSectors quietWorld hardDisk ⟨fun _ => 0,[]⟩ 0xf0000 0 129 false).map fun r => r.1.calls) =
      some [(.chs 63 0 1 0 0xf0000,true),(.chs 63 0 1 1 0xf7e00,true),(.chs 2 0 1 2 0xffc00,true),
      (.chs 1 0 3 2 0x100000,true)] ∧
    seg 0x100000 * 16 + offs 0x100000 = 0 ∧ ¬ RealMode hardDisk (.chs 1 0 3 2 0x100000) := by
  refine ⟨by decide,by decide,?_⟩
  rintro ⟨same,_⟩
  exact absurd same (by decide)

end Syslinux.Diskio
