import Syslinux.DiskioTargets

/-! What a read leaves in the buffer: the sectors that were asked for, as many as are returned, as long as the fallback to CHS
comes before anything has been read. -/
namespace Syslinux.Diskio

def Covers (d : Disk) (calls : List (Call × Bool)) (sector : Nat) : Prop :=
  ∃ c ∈ calls,c.2 = true ∧ ∃ i < c.1.blocks,(c.1.first d + i) % 2^64 = sector

/- n sectors of the disk have come to ptr; apart from the transfer buffer, nothing else has changed but in the rest of the count. -/
structure Loads (w : World) (d : Disk) (m m' : Machine) (ptr first count n : Nat) : Prop where
  outside : ∀ a,a < w.xferBuf ∨ w.xferBuf + 2^16 ≤ a → a < ptr ∨ ptr + count * d.sectorSize ≤ a → m'.mem a = m.mem a
  inside : ∀ i < n * d.sectorSize,m'.mem (ptr + i) = w.byteAt d first i
  covers : ∃ new,m'.calls = m.calls ++ new ∧ ∀ sector,Covers d new sector → ∃ i < n,(first + i) % 2^64 = sector
  most : n ≤ count

section
variable {w : World} {d : Disk} {m m' m'' : Machine} {ptr first count n : Nat}

theorem sectorPos (d : Disk) : 0 < d.sectorSize := Nat.two_pow_pos _

theorem coversAppend {new more : List (Call × Bool)} {sector : Nat} (covers : Covers d (new ++ more) sector) :
    Covers d new sector ∨ Covers d more sector := by
  obtain ⟨c,mem,rest⟩ := covers
  exact (List.mem_append.mp mem).imp (fun inside => ⟨c,inside,rest⟩) fun inside => ⟨c,inside,rest⟩

theorem coversNone (sector : Nat) : ¬ Covers d [] sector := by
  rintro ⟨_,mem,_⟩
  cases mem

theorem byteAtLater {first' k : Nat} (same : first' % 2^64 = (first + k) % 2^64) (i : Nat) :
    w.byteAt d first' i = w.byteAt d first (k * d.sectorSize + i) := by
  unfold World.byteAt
  have sector : (k * d.sectorSize + i) / d.sectorSize = k + i / d.sectorSize := Nat.mul_add_div (sectorPos d) k i ▸ by
    rw [Nat.mul_comm]
  have byte : (k * d.sectorSize + i) % d.sectorSize = i % d.sectorSize := Nat.mul_add_mod_self_right k d.sectorSize i
  rw [sector,byte]
  congr 1
  omega

theorem loadsNothing (same : m'.calls = m.calls) (mem : ∀ a,a < w.xferBuf ∨ w.xferBuf + 2^16 ≤ a → m'.mem a = m.mem a) :
    Loads w d m m' ptr first count 0 :=
  ⟨fun a apart _ => mem a apart,fun i less => by omega,⟨[],by rw [same,List.append_nil],fun sector covers =>
    absurd covers (coversNone sector)⟩,Nat.zero_le _⟩

theorem loadsTrans {first' k : Nat} (one : Loads w d m m' ptr first count k)
    (apart : ptr + count * d.sectorSize ≤ w.xferBuf ∨ w.xferBuf + 2^16 ≤ ptr) (same : first' % 2^64 = (first + k) % 2^64)
    (two : Loads w d m' m'' (ptr + k * d.sectorSize) first' (count - k) n) : Loads w d m m'' ptr first count (k + n) := by
  have le := one.most
  have le' := two.most
  have split : count * d.sectorSize = k * d.sectorSize + (count - k) * d.sectorSize := by
    rw [← Nat.add_mul]
    congr 1
    omega
  have sectors : (k + n) * d.sectorSize = k * d.sectorSize + n * d.sectorSize := Nat.add_mul ..
  have inner : n * d.sectorSize ≤ (count - k) * d.sectorSize := Nat.mul_le_mul_right _ le'
  refine ⟨fun a buffer out => ?_,fun i less => ?_,?_,by omega⟩
  · rw [two.outside a buffer (by omega),one.outside a buffer out]
  · by_cases before : i < k * d.sectorSize
    · rw [two.outside (ptr + i) (by omega) (Or.inl (by omega)),one.inside i before]
    · have here := two.inside (i - k * d.sectorSize) (by omega)
      rw [byteAtLater same] at here
      rwa [show ptr + k * d.sectorSize + (i - k * d.sectorSize) = ptr + i by omega,
        show k * d.sectorSize + (i - k * d.sectorSize) = i by omega] at here
  · obtain ⟨new,calls,bound⟩ := one.covers
    obtain ⟨new',calls',bound'⟩ := two.covers
    refine ⟨new ++ new',by rw [calls',calls,List.append_assoc],fun sector covers => ?_⟩
    rcases coversAppend covers with first | second
    · obtain ⟨i,less,eq⟩ := bound sector first
      exact ⟨i,by omega,eq⟩
    · obtain ⟨i,less,eq⟩ := bound' sector second
      exact ⟨k + i,by omega,by omega⟩

theorem loadsMore {chunk : Nat} (loads : Loads w d m m' ptr first chunk n) (le : chunk ≤ count) :
    Loads w d m m' ptr first count n := by
  have wider : chunk * d.sectorSize ≤ count * d.sectorSize := Nat.mul_le_mul_right _ le
  have most := loads.most
  exact ⟨fun a buffer out => loads.outside a buffer (by omega),loads.inside,loads.covers,by omega⟩

theorem loadsMax {max' : Nat} (loads : Loads w { d with maxtransfer := max' } m m' ptr first count n) :
    Loads w d m m' ptr first count n := by
  obtain ⟨new,calls,bound⟩ := loads.covers
  refine ⟨loads.outside,loads.inside,⟨new,calls,fun sector covers => bound sector ?_⟩,loads.most⟩
  obtain ⟨c,mem,ok,i,less,eq⟩ := covers
  refine ⟨c,mem,ok,i,less,?_⟩
  rw [← eq]
  cases c.1 <;> rfl

theorem int13Read {call : Call} (low : call.ptr < 2^20) :
    (∀ a,a < call.ptr ∨ call.ptr + call.blocks * d.sectorSize ≤ a → (int13 w d false m call).1.mem a = m.mem a) ∧
    ((int13 w d false m call).2 = true → ∀ i < call.blocks * d.sectorSize,
      (int13 w d false m call).1.mem (call.ptr + i) = w.byteAt d (call.first d) i) := by
  unfold int13
  rw [farPtr low]
  cases w.bios m.calls.length with
  | none =>
    refine ⟨fun a out => storeOutside (by simpa using out),fun _ i less => ?_⟩
    have inside : i < (read (w.byteAt d (call.first d)) 0 (call.blocks * d.sectorSize)).length := by simpa using less
    refine (storeInside inside).trans ?_
    simp [read]
  | some junk => exact ⟨fun a out => storeOutside (by simpa using out),fun never => by cases never⟩

theorem coversOne {call : Call} {ok : Bool} {sector : Nat} (nothing : ok = true → call.blocks = 0) :
    ¬ Covers d [(call,ok)] sector := by
  rintro ⟨c,mem,success,i,less,_⟩
  rw [List.mem_singleton.mp mem] at success less
  rw [nothing success] at less
  cases less

/- The retries only write where the transfer goes, and the last one leaves its sectors there. -/
theorem attemptsRead {resets : Bool} {issue : Nat → Call} {fuel chunk retry maxtransfer p : Nat} {r : Option (Nat × Nat)}
    (low : p < 2^20) (some' : 1 ≤ chunk)
    (call : ∀ k,1 ≤ k → k ≤ chunk → (issue k).ptr = p ∧ (issue k).blocks = k ∧ (issue k).first d = first)
    (ran : attempts w d false resets issue fuel chunk retry maxtransfer m = some (m',r)) :
    (∀ a,a < p ∨ p + chunk * d.sectorSize ≤ a → m'.mem a = m.mem a) ∧
    (∀ k max',r = some (k,max') → ∀ i < k * d.sectorSize,m'.mem (p + i) = w.byteAt d first i) ∧
    ∃ new,m'.calls = m.calls ++ new ∧ ∀ sector,Covers d new sector →
      ∃ k max',r = some (k,max') ∧ ∃ i < k,(first + i) % 2^64 = sector := by
  induction fuel generalizing chunk retry maxtransfer m with
  | zero => cases ran
  | succ fuel ih =>
    obtain ⟨ptr,blocks,sector⟩ := call chunk some' (Nat.le_refl _)
    obtain ⟨outside,inside⟩ := @int13Read w d m (issue chunk) (ptr ▸ low)
    have called := @int13Calls w d false m (issue chunk)
    rw [ptr,blocks] at outside
    rw [ptr,blocks,sector] at inside
    unfold attempts at ran
    generalize int13 w d false m (issue chunk) = result at ran outside inside called
    obtain ⟨m1,ok⟩ := result
    simp only at ran outside inside called
    by_cases done : ok = true
    · rw [if_pos done] at ran
      cases ran
      refine ⟨outside,fun k max' same => ?_,_,called,fun s covers => ⟨chunk,maxtransfer,rfl,?_⟩⟩
      · cases same
        exact inside done
      · obtain ⟨c,mem,_,i,less,eq⟩ := covers
        rw [List.mem_singleton.mp mem] at less eq
        simp only [blocks,sector] at less eq
        exact ⟨i,less,eq⟩
    rw [if_neg done] at ran
    have failed : ∀ s,¬ Covers d [(issue chunk,ok)] s := fun s => coversOne fun success => absurd success done
    by_cases again : retry ≠ 0
    · rw [if_pos again] at ran
      obtain ⟨outside',inside',new,calls,bound⟩ := ih some' call ran
      refine ⟨fun a out => (outside' a out).trans (outside a out),inside',[(issue chunk,ok)] ++ new,?_,fun s covers => ?_⟩
      · rw [calls,called,List.append_assoc]
      · exact bound s ((coversAppend covers).resolve_left (failed s))
    rw [if_neg again] at ran
    generalize was : (if resets then { m1 with calls := m1.calls ++ [(.reset,true)] } else m1 : Machine) = m2 at ran
    obtain ⟨more,same,calls2,silent⟩ : ∃ more,m2.mem = m1.mem ∧ m2.calls = m1.calls ++ more ∧ ∀ s,¬ Covers d more s := by
      rw [← was]
      split
      · exact ⟨[(.reset,true)],rfl,rfl,fun s => coversOne fun _ => rfl⟩
      · exact ⟨[],rfl,(List.append_nil _).symm,coversNone⟩
    by_cases half : chunk / 2 ≠ 0
    · rw [if_pos half] at ran
      obtain ⟨outside',inside',new,calls,bound⟩ := ih (by omega) (fun k one le => call k one (by omega)) ran
      have fewer : chunk / 2 * d.sectorSize ≤ chunk * d.sectorSize := Nat.mul_le_mul_right _ (by omega)
      refine ⟨fun a out => ?_,inside',[(issue chunk,ok)] ++ (more ++ new),?_,fun s covers => ?_⟩
      · rw [outside' a (by omega),same,outside a out]
      · rw [calls,calls2,called,List.append_assoc,List.append_assoc]
      · have rest := (coversAppend covers).resolve_left (failed s)
        exact bound s ((coversAppend rest).resolve_left (silent s))
    · rw [if_neg half] at ran
      cases ran
      refine ⟨fun a out => by rw [same,outside a out],(fun k max' none' => by cases none'),[(issue chunk,ok)] ++ more,
        ?_,fun s covers => ?_⟩
      · rw [calls2,called,List.append_assoc]
      · exact absurd ((coversAppend covers).resolve_left (failed s)) (silent s)

/- A transfer reads its sectors to the buffer, directly or through the transfer buffer. -/
theorem transferLoads {resets : Bool} {issue : Nat → Call} {tptr chunk : Nat} {r : Option (Nat × Nat)} (low : tptr < 2^20)
    (some' : 1 ≤ chunk) (either : tptr = ptr ∨ tptr = w.xferBuf ∧ chunk * d.sectorSize ≤ 2^16)
    (apart : ptr + chunk * d.sectorSize ≤ w.xferBuf ∨ w.xferBuf + 2^16 ≤ ptr)
    (call : ∀ k,1 ≤ k → k ≤ chunk → (issue k).ptr = tptr ∧ (issue k).blocks = k ∧ (issue k).first d = first)
    (sizes : ∀ k max',r = some (k,max') → k ≤ chunk)
    (ran : transfer w d false resets issue ptr tptr chunk m = some (m',r)) :
    Loads w d m m' ptr first chunk ((r.map Prod.fst).getD 0) := by
  unfold transfer at ran
  rw [if_neg (by simp)] at ran
  obtain ⟨⟨m1,r1⟩,ran1,rest⟩ := Option.bind_eq_some_iff.mp ran
  obtain ⟨outside,inside,new,calls,bound⟩ := attemptsRead low some' call ran1
  cases r1 with
  | none =>
    cases rest
    refine ⟨fun a buffer out => outside a ?_,fun i less => ?_,⟨new,calls,fun s covers => ?_⟩,Nat.zero_le _⟩
    · rcases either with rfl | ⟨rfl,_⟩ <;> omega
    · simp at less
    · obtain ⟨k,max',never,_⟩ := bound s covers
      cases never
  | some pair =>
    obtain ⟨k,max'⟩ := pair
    cases rest
    have le := sizes k max' rfl
    have fewer : k * d.sectorSize ≤ chunk * d.sectorSize := Nat.mul_le_mul_right _ le
    have here := inside k max' rfl
    have covers : ∃ new,m1.calls = m.calls ++ new ∧ ∀ sector,Covers d new sector → ∃ i < k,(first + i) % 2^64 = sector := by
      refine ⟨new,calls,fun s covers => ?_⟩
      obtain ⟨k',max'',same,rest⟩ := bound s covers
      cases same
      exact rest
    rcases either with rfl | ⟨rfl,fits⟩
    · rw [if_neg (by simp)]
      exact ⟨fun a _ out => outside a out,here,covers,le⟩
    · by_cases same : w.xferBuf = ptr
      · subst same
        rw [if_neg (by simp)]
        exact ⟨fun a _ out => outside a out,here,covers,le⟩
      · rw [if_pos ⟨same,by simp⟩]
        refine ⟨fun a buffer out => ?_,fun i less => ?_,covers,le⟩
        · have kept : (memcpy m1 ptr w.xferBuf (k * d.sectorSize)).mem a = m1.mem a :=
            storeOutside (by rw [readLength]; omega)
          rw [kept,outside a (by omega)]
        · have length : i < (read m1.mem w.xferBuf (k * d.sectorSize)).length := by rw [readLength]; exact less
          refine (storeInside length).trans ?_
          simp only [read,List.getElem_map,List.getElem_range]
          exact here i less

theorem chsCallFirst (sound : Sound w d) {xlba tptr k : Nat} (geometry : 0 < d.s) (cylinder : xlba / d.s / d.h < 1024)
    (byte : k < 2^8)
    (heads : 0 < d.h) : (chsCall d xlba tptr k).ptr = tptr ∧ (chsCall d xlba tptr k).blocks = k ∧
    (chsCall d xlba tptr k).first d = xlba := by
  refine ⟨rfl,Nat.mod_eq_of_lt byte,?_⟩
  have sectors := sound.sectors
  have less := Nat.mod_lt xlba geometry
  have head := Nat.lt_of_lt_of_le (Nat.mod_lt (xlba / d.s) heads) sound.heads
  have field := @sectorField (xlba / d.s / d.h) (xlba % d.s) (by omega)
  have track := Nat.div_add_mod (xlba / d.s) d.h
  have whole := Nat.div_add_mod xlba d.s
  simp only [chsCall,Call.first,field]
  generalize xlba / d.s / d.h = c at *
  generalize xlba / d.s % d.h = h at *
  generalize xlba % d.s = s at *
  have low : (c / 2^8 % 4 * 64 + (s + 1)) / 64 = c / 2^8 % 4 := by omega
  have high : (c / 2^8 % 4 * 64 + (s + 1)) % 64 - 1 = s := by omega
  have back : c % 2^8 + c / 2^8 % 4 * 256 = c := by omega
  rw [low,high,back,Nat.mod_eq_of_lt head,Nat.mul_comm c,track,Nat.mul_comm _ d.s,whole]

/- The truncated sector number does not wrap. -/
theorem chsNext (sound : Sound w d) {xlba k : Nat} (geometry : 0 < d.s) (heads : 0 < d.h)
    (cylinder : xlba / d.s / d.h < 1024)
    (small : k < 2^8) : (xlba + k) % 2^32 % 2^64 = (xlba + k) % 2^64 := by
  have tracks := (Nat.div_lt_iff_lt_mul heads).mp cylinder
  have all := (Nat.div_lt_iff_lt_mul geometry).mp tracks
  have bound : 1024 * d.h * d.s ≤ 1024 * 2^8 * 2^6 :=
    Nat.mul_le_mul (Nat.mul_le_mul_left _ sound.heads) (Nat.le_of_lt sound.sectors)
  rw [Nat.mod_eq_of_lt (show xlba + k < 2^32 by omega)]

theorem placeEither (sound : Sound w d) (low ptr : Nat) : (place w d low ptr).1 = ptr ∨
    (place w d low ptr).1 = w.xferBuf ∧ (place w d low ptr).2 * d.sectorSize ≤ 2^16 := by
  have fits := (placeFits sound low ptr).2
  unfold place at *
  split at fits
  · rename_i direct
    rw [if_pos direct]
    exact Or.inl rfl
  · rename_i bounce
    rw [if_neg bounce]
    simp only at fits ⊢
    exact Or.inr ⟨trivial,by omega⟩

theorem chsLoopLoads {buf : Nat} (fuel : Nat) {xlba done : Nat} (sound : Sound w d) (enough : count ≤ fuel)
    (geometry : 0 < d.s)
    (heads : 0 < d.h) (low : 0xf0000 < buf ∨ ∀ k < count,ptr + k * d.sectorSize < 2^20)
    (apart : ptr + count * d.sectorSize ≤ w.xferBuf ∨ w.xferBuf + 2^16 ≤ ptr) {d' : Disk}
    (ran : chsLoop w buf false fuel d m ptr xlba count done = some (m',d',n)) :
    ∃ k,n = done + k ∧ Loads w d m m' ptr xlba count k := by
  induction fuel generalizing d m ptr xlba count done with
  | zero =>
    obtain rfl : count = 0 := by omega
    rw [chsLoop,if_pos rfl] at ran
    cases ran
    exact ⟨0,rfl,loadsNothing rfl fun a _ => rfl⟩
  | succ fuel ih =>
    by_cases none' : count = 0
    · subst none'
      rw [chsLoop,if_pos rfl] at ran
      cases ran
      exact ⟨0,rfl,loadsNothing rfl fun a _ => rfl⟩
    rw [chsLoop,if_neg none'] at ran
    obtain ⟨free,fits⟩ := placeFits sound buf ptr
    have either := placeEither sound buf ptr
    have target : (place w d buf ptr).1 < 2^20 := placeLow sound fun direct => by
      rcases low with high | all
      · omega
      · simpa using all 0 (by omega)
    generalize place w d buf ptr = at' at free fits target either ran
    obtain ⟨tptr,freeseg⟩ := at'
    simp only at free fits target either ran
    have rest := Nat.mod_lt xlba geometry
    have max1 := sound.some'
    have max2 := sound.byte
    generalize size : min (min (min count d.maxtransfer) freeseg) (d.s - xlba % d.s) = chunk at ran
    have within : chunk * d.sectorSize ≤ count * d.sectorSize := Nat.mul_le_mul_right _ (by omega)
    have within' : chunk * d.sectorSize ≤ freeseg * d.sectorSize := Nat.mul_le_mul_right _ (by omega)
    by_cases cylinder : xlba / d.s / d.h < 1024
    · rw [if_pos cylinder] at ran
      obtain ⟨⟨m1,r⟩,moved,rest'⟩ := Option.bind_eq_some_iff.mp ran
      have call : ∀ k,1 ≤ k → k ≤ chunk → (chsCall d xlba tptr k).ptr = tptr ∧ (chsCall d xlba tptr k).blocks = k ∧
          (chsCall d xlba tptr k).first d = xlba := fun k one le => chsCallFirst sound geometry cylinder (by omega) heads
      obtain ⟨_,_,moved',_,sizes⟩ := @transferGrown w d false m (fun _ => True) false (chsCall d xlba tptr) ptr tptr chunk
        (fun _ _ _ => trivial) (fun _ => trivial) (by omega)
      cases Option.some.inj (moved.symm.trans moved')
      have loads := transferLoads target (by omega) (either.imp id fun both => ⟨both.1,by omega⟩) (by omega) call
        (fun k max' same => (sizes k max' same).2.1) moved
      cases r with
      | none =>
        cases rest'
        exact ⟨0,rfl,loadsMore loads (by omega)⟩
      | some pair =>
        obtain ⟨k,max'⟩ := pair
        obtain ⟨one,le,which⟩ := sizes k max' rfl
        have sound' := soundMax sound (show 1 ≤ max' by omega) (by omega)
        have split : count * d.sectorSize = k * d.sectorSize + (count - k) * d.sectorSize := by
          rw [← Nat.add_mul]
          congr 1
          omega
        have low' : 0xf0000 < buf ∨ ∀ j < count - k,
          ptr + k * d.sectorSize + j * d.sectorSize < 2^20 := low.imp id fun all j less => by
          have here := all (k + j) (by omega)
          rwa [Nat.add_mul,← Nat.add_assoc] at here
        obtain ⟨k',rfl,loads'⟩ := @ih { d with maxtransfer := max' } m1 (ptr + k * d.sectorSize) (count - k)
          ((xlba + k) % 2^32)
          (done + k) sound' (by omega) geometry heads low' (by simp only [Disk.sectorSize] at split apart ⊢; omega) rest'
        have next := chsNext sound geometry heads cylinder (show k < 2^8 by omega)
        exact ⟨k + k',Nat.add_assoc ..,loadsTrans (loadsMore loads (by omega)) apart next (loadsMax loads')⟩
    · rw [if_neg cylinder,if_neg (by simp)] at ran
      cases ran
      exact ⟨0,rfl,loadsNothing rfl fun a _ => rfl⟩

theorem chsLoads {buf lba : Nat} (sound : Sound w d) (low : 0xf0000 < buf ∨ ∀ k < count,buf + k * d.sectorSize < 2^20)
    (apart : buf + count * d.sectorSize ≤ w.xferBuf ∨ w.xferBuf + 2^16 ≤ buf) {d' : Disk}
    (ran : chsRdwrSectors w d m buf lba count false = some (m',d',n)) :
    Loads w d m m' buf ((lba + d.partStart) % 2^64) count n := by
  unfold chsRdwrSectors at ran
  simp only at ran
  by_cases impossible : chsMax d ≤ (lba + d.partStart) % 2^64
  · rw [if_pos impossible] at ran
    cases ran
    exact loadsNothing rfl fun a _ => rfl
  rw [if_neg impossible] at ran
  unfold chsMax at impossible
  rw [sound.cylinder] at impossible
  have cylinder : 0 < d.h * d.s := by
    by_contra none'
    rw [Nat.eq_zero_of_not_pos none',Nat.zero_mul] at impossible
    exact impossible (Nat.zero_le _)
  have bound : d.h * d.s ≤ 2^8 * 2^6 := Nat.mul_le_mul sound.heads (Nat.le_of_lt sound.sectors)
  rw [Nat.mod_eq_of_lt (show (lba + d.partStart) % 2^64 < 2^32 by omega)] at ran
  obtain ⟨k,rfl,loads⟩ := chsLoopLoads count sound (Nat.le_refl _) (Nat.pos_of_mul_pos_left cylinder)
    (Nat.pos_of_mul_pos_right cylinder)
    low apart ran
  rwa [Nat.zero_add]

/- Where the EDD loop has stopped, k sectors further on. -/
def Stopped (lba count done k : Nat) : End → Prop
  | .all n => n = done + k ∧ k = count
  | .gaveUp done' lba' count' => done' = done + k ∧ k + count' = count ∧ 0 < count' ∧ lba' % 2^64 = (lba + k) % 2^64

theorem eddLoopLoads (fuel : Nat) {lba done : Nat} (sound : Sound w d) (enough : count ≤ fuel)
    (apart : ptr + count * d.sectorSize ≤ w.xferBuf ∨ w.xferBuf + 2^16 ≤ ptr) {d' : Disk} {last : End}
    (ran : eddLoop w false fuel d m ptr lba count done = some (m',d',last)) :
    ∃ k,Loads w d m m' ptr lba count k ∧ Stopped lba count done k last := by
  induction fuel generalizing d m ptr lba count done with
  | zero =>
    obtain rfl : count = 0 := by omega
    rw [eddLoop,if_pos rfl] at ran
    cases ran
    exact ⟨0,loadsNothing rfl fun a _ => rfl,rfl,rfl⟩
  | succ fuel ih =>
    by_cases none' : count = 0
    · subst none'
      rw [eddLoop,if_pos rfl] at ran
      cases ran
      exact ⟨0,loadsNothing rfl fun a _ => rfl,rfl,rfl⟩
    rw [eddLoop,if_neg none'] at ran
    obtain ⟨free,fits⟩ := placeFits sound ptr ptr
    have either := placeEither sound ptr ptr
    have target : (place w d ptr ptr).1 < 2^20 := placeLow sound fun direct => by omega
    generalize place w d ptr ptr = at' at free fits target either ran
    obtain ⟨tptr,freeseg⟩ := at'
    simp only at free fits target either ran
    have max1 := sound.some'
    have max2 := sound.byte
    generalize size : min (min count d.maxtransfer) freeseg = chunk at ran
    have within : chunk * d.sectorSize ≤ count * d.sectorSize := Nat.mul_le_mul_right _ (by omega)
    have within' : chunk * d.sectorSize ≤ freeseg * d.sectorSize := Nat.mul_le_mul_right _ (by omega)
    obtain ⟨⟨m1,r⟩,moved,rest'⟩ := Option.bind_eq_some_iff.mp ran
    obtain ⟨_,_,moved',_,sizes⟩ := @transferGrown w d false m (fun _ => True) true
      (fun k => .edd (k % 2^16) tptr lba) ptr tptr chunk
      (fun _ _ _ => trivial) (fun _ => trivial) (by omega)
    cases Option.some.inj (moved.symm.trans moved')
    have loads := @transferLoads w d m m1 ptr lba true (fun k => .edd (k % 2^16) tptr lba) tptr chunk r target (by omega)
      (either.imp id fun both => ⟨both.1,by omega⟩) (by omega)
      (fun k one le => ⟨rfl,Nat.mod_eq_of_lt (by omega),rfl⟩) (fun k max' same => (sizes k max' same).2.1) moved
    cases r with
    | none =>
      cases rest'
      exact ⟨0,loadsMore loads (by omega),rfl,Nat.zero_add _,by omega,rfl⟩
    | some pair =>
      obtain ⟨k,max'⟩ := pair
      obtain ⟨one,le,which⟩ := sizes k max' rfl
      have sound' := soundMax sound (show 1 ≤ max' by omega) (by omega)
      have split : count * d.sectorSize = k * d.sectorSize + (count - k) * d.sectorSize := by
        rw [← Nat.add_mul]
        congr 1
        omega
      obtain ⟨k',loads',stopped⟩ := @ih { d with maxtransfer := max' } m1 (ptr + k * d.sectorSize) (count - k)
        ((lba + k) % 2^64)
        (done + k) sound' (by omega) (by simp only [Disk.sectorSize] at split apart ⊢; omega) rest'
      refine ⟨k + k',loadsTrans (loadsMore loads (by omega)) apart (Nat.mod_mod _ _) (loadsMax loads'),?_⟩
      cases last with
      | all n =>
        obtain ⟨rfl,rfl⟩ := stopped
        exact ⟨by omega,by omega⟩
      | gaveUp done' lba' count' =>
        obtain ⟨rfl,total,more,same⟩ := stopped
        exact ⟨by omega,by omega,more,by omega⟩

end

/- The first n sectors of the buffer are those from lba on, and n is the count if every sector has been transferred. -/
def ReadsWell (w : World) (d : Disk) (buf lba count : Nat) (m : Machine) (n : Nat) : Prop :=
  (∀ i < n * d.sectorSize,m.mem (buf + i) = w.byteAt d (lba + d.partStart) i) ∧
  ((∀ k < count,Covers d m.calls ((lba + d.partStart + k) % 2^64)) → n = count)

section
variable {w : World} {d : Disk} {mem : Nat → UInt8} {m' : Machine} {buf lba count n : Nat}

theorem loadsWell (loads : Loads w d ⟨mem,[]⟩ m' buf ((lba + d.partStart) % 2^64) count n) (small : count < 2^32) :
    ReadsWell w d buf lba count m' n := by
  refine ⟨fun i less => ?_,fun all => ?_⟩
  · rw [loads.inside i less]
    have same := @byteAtLater w d (lba + d.partStart) ((lba + d.partStart) % 2^64) 0 (Nat.mod_mod _ _) i
    rwa [Nat.zero_mul,Nat.zero_add] at same
  · by_contra other
    have most := loads.most
    obtain ⟨new,calls,bound⟩ := loads.covers
    have covers := all n (by omega)
    rw [calls,List.nil_append] at covers
    obtain ⟨i,less,eq⟩ := bound _ covers
    omega

theorem fallbackLba {lba' start : Nat} (small : start < 2^64) :
    ((lba' + 2^64 - start) % 2^64 + start) % 2^64 = lba' % 2^64 := by
  rw [Nat.mod_add_mod,Nat.sub_add_cancel (by omega),Nat.add_mod_right]

/- For every disk, pattern of failures, buffer apart from the transfer buffer, LBA and count: CHS reads well, and EDD too unless it
gives up behind sectors that it has read. If it does, and every sector has been transferred in the end, it does not. Where
CHS reads directly it has to stay in low memory. -/
theorem diskReads (sound : Sound w d) (mem : Nat → UInt8) (lba : Nat) (small : count < 2^32)
    (apart : buf + count * d.sectorSize ≤ w.xferBuf ∨ w.xferBuf + 2^16 ≤ buf) :
    (∃ m' d' n,chsRdwrSectors w d ⟨mem,[]⟩ buf lba count false = some (m',d',n) ∧
      (LowBuffer d buf count → ReadsWell w d buf lba count m' n)) ∧
    ∃ m₁ d₁ last m' d' n,eddLoop w false count d ⟨mem,[]⟩ buf ((lba + d.partStart) % 2^64) count 0 = some (m₁,d₁,last) ∧
      eddRdwrSectors w d ⟨mem,[]⟩ buf lba count false = some (m',d',n) ∧
      ((∀ done lba' count',last = .gaveUp done lba' count' → LowBuffer d buf count) →
        ((∀ done lba' count',last = .gaveUp done lba' count' → done = 0) → ReadsWell w d buf lba count m' n) ∧
        ((∀ k < count,Covers d m'.calls ((lba + d.partStart + k) % 2^64)) →
          (ReadsWell w d buf lba count m' n ↔ ∀ done lba' count',last = .gaveUp done lba' count' → done = 0))) := by
  constructor
  · obtain ⟨m',d',n,run,_⟩ := @chsBounded w d false ⟨mem,[]⟩ False buf lba count sound False.elim
    exact ⟨m',d',n,run,fun low => loadsWell (chsLoads sound low apart run) small⟩
  · obtain ⟨m₁,d₁,last,run,_,sound₁,⟨max',rfl⟩,_⟩ := @eddLoopBounded w d false ⟨mem,[]⟩ False count buf
      ((lba + d.partStart) % 2^64)
      count 0 sound (Nat.le_refl _)
    obtain ⟨k,loads,stopped⟩ := eddLoopLoads count sound (Nat.le_refl _) apart run
    cases last with
    | all done =>
      obtain ⟨rfl,rfl⟩ := stopped
      have well : ReadsWell w d buf lba k m₁ (0 + k) := by
        rw [Nat.zero_add]
        exact loadsWell loads small
      have edd : eddRdwrSectors w d ⟨mem,[]⟩ buf lba k false = some (m₁,{ d with maxtransfer := max' },0 + k) := by
        simp only [eddRdwrSectors,run,Option.bind_eq_bind,Option.bind_some]
      exact ⟨m₁,_,_,m₁,_,_,run,edd,fun _ => ⟨fun _ => well,fun _ => iff_of_true well fun _ _ _ same => by cases same⟩⟩
    | gaveUp done lba' count' =>
      obtain ⟨rfl,total,more,same⟩ := stopped
      have fewer : count' * d.sectorSize ≤ count * d.sectorSize := Nat.mul_le_mul_right _ (by omega)
      obtain ⟨m₂,d₂,n,run₂,_⟩ := @chsBounded w { d with maxtransfer := max' } false m₁ False buf
        ((lba' + 2^64 - d.partStart) % 2^64)
        count' sound₁ False.elim
      have edd : ∃ d',eddRdwrSectors w d ⟨mem,[]⟩ buf lba count false = some (m₂,d',n) := by
        simp only [eddRdwrSectors,run,Option.bind_eq_bind,Option.bind_some,run₂]
        split <;> exact ⟨_,rfl⟩
      obtain ⟨d',edd⟩ := edd
      refine ⟨m₁,_,_,m₂,d',n,run,edd,fun direct => ?_⟩
      have low' : 0xf0000 < buf ∨ ∀ k < count',buf + k * d.sectorSize < 2^20 := (direct _ _ _ rfl).imp id
        fun all j less => all j (by omega)
      have loads₂ := loadsMax (chsLoads sound₁ low' (by simp only [Disk.sectorSize] at fewer apart ⊢; omega) run₂)
      have start := sound.start
      have well : 0 + k = 0 → ReadsWell w d buf lba count m₂ n := by
        intro none'
        obtain rfl : k = 0 := by omega
        obtain rfl : count' = count := by omega
        have back : ((lba' + 2^64 - d.partStart) % 2^64 + d.partStart) % 2^64 % 2^64 =
          ((lba + d.partStart) % 2^64 + 0) % 2^64 := by
          rw [Nat.mod_mod,fallbackLba start,same]
        have from' : Loads w d m₁ m₂ (buf + 0 * d.sectorSize)
          (((lba' + 2^64 - d.partStart) % 2^64 + d.partStart) % 2^64) (count' - 0) n := by
          rw [Nat.zero_mul,Nat.add_zero,Nat.sub_zero]
          exact loads₂
        have both := loadsTrans loads apart back from'
        rw [Nat.zero_add] at both
        exact loadsWell both small
      refine ⟨fun early => well (early _ _ _ rfl),
        fun all => ⟨fun fine done' lba'' count'' eq => ?_,fun early => well (early _ _ _ rfl)⟩⟩
      cases eq
      have most := loads₂.most
      have whole := fine.2 all
      omega

end
/- A disk whose sector number s is full of bytes s, one sector at a time; the second call and the six behind it fail. -/
def floppy : Disk := ⟨9,1,2,18,36,0,false⟩
def faultyWorld : World :=
  ⟨fun sector _ => UInt8.ofNat sector,fun t => if 1 ≤ t ∧ t < 8 then some fun _ => 0xff else none,0x50000⟩

theorem floppySound (bios : Nat → Option (Nat → UInt8)) : Sound ⟨faultyWorld.contents,bios,0x50000⟩ floppy :=
  ⟨by decide,by decide,by decide,by decide,by decide,by decide,by decide,show 0x50000 % 2^16 = 0 by decide,
    show 0x50000 + 2^16 ≤ 2^20 by decide⟩

/- Three sectors without a fault. -/
theorem diskReadsSmall : ∃ m' d' n,
    chsRdwrSectors ⟨faultyWorld.contents,fun _ => none,0x50000⟩ floppy ⟨fun _ => 0,[]⟩ 0x200000 5 3 false =
    some (m',d',n) ∧ ReadsWell ⟨faultyWorld.contents,fun _ => none,0x50000⟩ floppy 0x200000 5 3 m' n := by
  have sector : floppy.sectorSize = 512 := rfl
  obtain ⟨m',d',n,run,well⟩ := (@diskReads ⟨faultyWorld.contents,fun _ => none,0x50000⟩ floppy 0x200000 3
    (floppySound fun _ => none) (fun _ => 0) 5 (by decide) (Or.inr (by decide))).1
  exact ⟨m',d',n,run,well (Or.inl (by decide))⟩

/- Two sectors over EDD, the second one only by CHS: one is returned, and the buffer begins with sector 1. -/
theorem fallbackMisplaced :
    ((eddRdwrSectors faultyWorld floppy ⟨fun _ => 0,[]⟩ 0x40000 0 2 false).map fun r => (r.2.2,r.1.mem 0x40000)) =
    some (1,1) ∧
    faultyWorld.byteAt floppy 0 0 = 0 ∧
    ((eddRdwrSectors faultyWorld floppy ⟨fun _ => 0,[]⟩ 0x40000 0 2 false).map fun r => r.1.calls.filter Prod.snd) =
      some [(.edd 1 0x40000 0,true),(.reset,true),(.chs 1 0 2 0 0x40000,true)] := by
  refine ⟨by decide +kernel,by decide,by decide +kernel⟩

end Syslinux.Diskio
