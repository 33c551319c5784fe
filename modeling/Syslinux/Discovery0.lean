import Syslinux.Opal

/-! discovery0 of com32/msedpba/Msed.c: the loop over the feature descriptors of a drive. Addresses
have w bits and are compared as they are. A read outside the buffer has no result. -/
namespace Syslinux.Discovery0
open Opal (Buffer be16 be32)

def ioBufferLength : Nat := 2048

/- The members of OPAL_DiskInfo that are set here. -/
structure DiskInfo where
  unknown : UInt8
  anyOpalSsc : Bool
  tper : Bool
  tperAcknack : Bool
  tperAsync : Bool
  tperBufferMgt : Bool
  tperComIDMgt : Bool
  tperStreaming : Bool
  tperSync : Bool
  locking : Bool
  lockingLocked : Bool
  lockingLockingEnabled : Bool
  lockingLockingSupported : Bool
  lockingMBRDone : Bool
  lockingMBREnabled : Bool
  lockingMediaEncrypt : Bool
  geometry : Bool
  geometryAlign : Bool
  geometryAlignmentGranularity : Nat
  geometryLogicalBlockSize : Nat
  geometryLowestAlignedLBA : Nat
  enterprise : Bool
  enterpriseRangeCrossing : Bool
  enterpriseBasecomID : Nat
  enterpriseNumcomID : Nat
  opal10 : Bool
  opal10BasecomID : Nat
  opal10NumcomIDs : Nat
  singleUser : Bool
  singleUserAll : Bool
  singleUserAny : Bool
  singleUserPolicy : Bool
  singleUserLockingObjects : Nat
  dataStore : Bool
  dataStoreMaxTables : Nat
  dataStoreMaxTableSize : Nat
  dataStoreAlignment : Nat
  opal20 : Bool
  opal20BasecomID : Nat
  opal20InitialPIN : UInt8
  opal20RevertedPIN : UInt8
  opal20NumcomIDs : Nat
  opal20NumAdmins : Nat
  opal20NumUsers : Nat
  opal20RangeCrossing : Bool
  deriving Inhabited

def bit (b : Buffer) (off i : Nat) : Bool := (b off).toNat.testBit i

def be64 (b : Buffer) (off : Nat) : Nat := 2^32*be32 b off + be32 b (off+4)

inductive Feature
  | tper | locking | geometry | enterprise | opalv100 | singleUser | dataStore | opalv200 | other

def featureOf (code : Nat) : Feature :=
  if code = 0x0001 then .tper
  else if code = 0x0002 then .locking
  else if code = 0x0003 then .geometry
  else if code = 0x0100 then .enterprise
  else if code = 0x0200 then .opalv100
  else if code = 0x0201 then .singleUser
  else if code = 0x0202 then .dataStore
  else if code = 0x0203 then .opalv200
  else .other

def Feature.extent : Feature → Nat
  | tper => 5
  | locking => 5
  | geometry => 32
  | enterprise => 9
  | opalv100 => 8
  | singleUser => 9
  | dataStore => 16
  | opalv200 => 15
  | other => 4

/- The descriptor at an offset: its feature, how many bytes are read of it, and the way to the next. -/
def kind (b : Buffer) (p : Nat) : Feature := featureOf (be16 b p)
def extent (b : Buffer) (p : Nat) : Nat := (kind b p).extent
def length (b : Buffer) (p : Nat) : Nat := (b (p+3)).toNat
def step (b : Buffer) (p : Nat) : Nat := length b p + 4

def setFeature (b : Buffer) (p : Nat) (d : DiskInfo) : DiskInfo :=
  match kind b p with
  | .tper => { d with
      tper := true
      tperAcknack := bit b (p+4) 2
      tperAsync := bit b (p+4) 1
      tperBufferMgt := bit b (p+4) 3
      tperComIDMgt := bit b (p+4) 6
      tperStreaming := bit b (p+4) 4
      tperSync := bit b (p+4) 0 }
  | .locking => { d with
      locking := true
      lockingLocked := bit b (p+4) 2
      lockingLockingEnabled := bit b (p+4) 1
      lockingLockingSupported := bit b (p+4) 0
      lockingMBRDone := bit b (p+4) 5
      lockingMBREnabled := bit b (p+4) 4
      lockingMediaEncrypt := bit b (p+4) 3 }
  | .geometry => { d with
      geometry := true
      geometryAlign := bit b (p+4) 0
      geometryAlignmentGranularity := be64 b (p+16)
      geometryLogicalBlockSize := be32 b (p+12)
      geometryLowestAlignedLBA := be64 b (p+24) }
  | .enterprise => { d with
      enterprise := true
      anyOpalSsc := true
      enterpriseRangeCrossing := bit b (p+8) 0
      enterpriseBasecomID := be16 b (p+4)
      enterpriseNumcomID := be16 b (p+6) }
  | .opalv100 => { d with
      opal10 := true
      anyOpalSsc := true
      opal10BasecomID := be16 b (p+4)
      opal10NumcomIDs := be16 b (p+6) }
  | .singleUser => { d with
      singleUser := true
      singleUserAll := bit b (p+8) 1
      singleUserAny := bit b (p+8) 0
      singleUserPolicy := bit b (p+8) 2
      singleUserLockingObjects := be32 b (p+4) }
  | .dataStore => { d with
      dataStore := true
      dataStoreMaxTables := be16 b (p+6)
      dataStoreMaxTableSize := be32 b (p+8)
      dataStoreAlignment := be32 b (p+12) }
  | .opalv200 => { d with
      opal20 := true
      anyOpalSsc := true
      opal20BasecomID := be16 b (p+4)
      opal20InitialPIN := b (p+13)
      opal20RevertedPIN := b (p+14)
      opal20NumcomIDs := be16 b (p+6)
      opal20NumAdmins := be16 b (p+9)
      opal20NumUsers := be16 b (p+11)
      opal20RangeCrossing := bit b (p+8) 0 }
  | .other => { d with unknown := d.unknown + 1 }

section
variable (w base : Nat) (resp : Buffer)

def epos : Nat := (base + be32 resp 0) % 2^w

def Inside (cpos : Nat) : Prop := base ≤ cpos ∧ cpos + extent resp (cpos - base) ≤ base + ioBufferLength
instance (cpos) : Decidable (Inside base resp cpos) := by unfold Inside; infer_instance

def next (cpos : Nat) : Nat := (cpos + step resp (cpos - base)) % 2^w

def features : Nat → Nat → DiskInfo → Option DiskInfo
  | 0,_,_ => none
  | fuel+1,cpos,d =>
    if Inside base resp cpos then
      let d := setFeature resp (cpos - base) d
      if next w base resp cpos < epos w base resp then features fuel (next w base resp cpos) d else some d
    else none

/- malloc's address and the return code of IF_RECV with what is in the buffer then. -/
def discovery0 (alloc : Option Nat) (rc : Nat) (d : DiskInfo) (fuel : Nat) : Option DiskInfo :=
  match alloc with
  | none => some d
  | some base => if rc ≠ 0 then some d else features w base resp fuel (base + 48) d

end

/- The descriptors from p on fill the response up to stop, each with its fields within its length. -/
def Tiles (resp : Buffer) (stop : Nat) : Nat → List Nat → Prop
  | p,[] => p = stop
  | p,q::rest => q = p ∧ extent resp p ≤ step resp p ∧ Tiles resp stop (p + step resp p) rest

structure WellFormed (resp : Buffer) (starts : List Nat) : Prop where
  tiles : Tiles resp (be32 resp 0 + 4) 48 starts
  fits : be32 resp 0 + 4 ≤ ioBufferLength

/- The run ends without a read outside, and the descriptors of a well-formed response and no other
bytes are what is set. -/
structure Sound (w base : Nat) (resp : Buffer) : Prop where
  inside : ∀ d, ∃ enough info, ∀ fuel, enough < fuel → discovery0 w resp (some base) 0 d fuel = some info
  faithful : ∀ starts, WellFormed resp starts → ∀ d, ∃ enough, ∀ fuel, enough < fuel →
    discovery0 w resp (some base) 0 d fuel = some (starts.foldl (fun d p => setFeature resp p d) d)

section
variable (w base : Nat) (resp : Buffer)

/- The first descriptor, and each that follows one and starts before the end pointer. -/
inductive Visited : Nat → Prop
  | first : Visited (base + 48)
  | next {cpos : Nat} (visited : Visited cpos) (before : next w base resp cpos < epos w base resp) :
      Visited (next w base resp cpos)

/- The descriptors visited lie in the buffer; a well-formed response has one, and does not end in a
further one without data. -/
structure Harmless : Prop where
  inside : ∀ cpos, Visited w base resp cpos → Inside base resp cpos
  ending : ∀ starts last, WellFormed resp (starts ++ [last]) → starts ≠ [] → length resp last ≠ 0
  present : ¬ WellFormed resp []

end

section
variable {w base cpos : Nat} {resp : Buffer}

theorem extentLeast (b : Buffer) (p : Nat) : 4 ≤ extent b p := by
  unfold extent
  cases kind b p <;> decide

theorem changes (b : Buffer) (p : Nat) : setFeature b p default ≠ default := by
  intro same
  have flagSet : ¬ true = (default : Bool) := by decide
  unfold setFeature at same
  cases eq : kind b p with
  | tper => rw [eq] at same; exact flagSet (congrArg DiskInfo.tper same)
  | locking => rw [eq] at same; exact flagSet (congrArg DiskInfo.locking same)
  | geometry => rw [eq] at same; exact flagSet (congrArg DiskInfo.geometry same)
  | enterprise => rw [eq] at same; exact flagSet (congrArg DiskInfo.enterprise same)
  | opalv100 => rw [eq] at same; exact flagSet (congrArg DiskInfo.opal10 same)
  | singleUser => rw [eq] at same; exact flagSet (congrArg DiskInfo.singleUser same)
  | dataStore => rw [eq] at same; exact flagSet (congrArg DiskInfo.dataStore same)
  | opalv200 => rw [eq] at same; exact flagSet (congrArg DiskInfo.opal20 same)
  | other => rw [eq] at same; exact absurd (show (0:UInt8) + 1 = 0 from congrArg DiskInfo.unknown same) (by decide)

theorem smallOther {f : Feature} (small : f.extent ≤ 4) : f = .other := by
  cases f
  case other => rfl
  all_goals exact absurd small (by decide)

theorem emptyUnknown {b : Buffer} {p : Nat} (whole : extent b p ≤ step b p) (empty : length b p = 0)
    (d : DiskInfo) : setFeature b p d ≠ d := by
  have other : kind b p = .other := by
    rw [step,empty] at whole
    exact smallOther whole
  intro same
  have counted : d.unknown + 1 = d.unknown := by
    rw [setFeature,other] at same
    exact congrArg DiskInfo.unknown same
  have more : ∀ n : UInt8, n + 1 ≠ n := by simp
  exact more _ counted

variable (w base resp) in
def Path : Nat → List Nat → Prop
  | _,[] => False
  | cpos,q::rest => q = cpos ∧ Inside base resp cpos ∧
    if next w base resp cpos < epos w base resp then Path (next w base resp cpos) rest else rest = []

theorem pathRuns {path : List Nat} (runs : Path w base resp cpos path) {fuel : Nat} (enough : path.length ≤ fuel)
    (d : DiskInfo) : features w base resp fuel cpos d =
      some (path.foldl (fun d q => setFeature resp (q - base) d) d) := by
  induction path generalizing cpos fuel d with
  | nil => exact runs.elim
  | cons q rest ih =>
    obtain ⟨rfl,inside,onward⟩ := runs
    obtain ⟨fuel,rfl⟩ := Nat.exists_eq_succ_of_ne_zero (show fuel ≠ 0 by simp at enough; omega)
    rw [features,if_pos inside]
    by_cases before : next w base resp q < epos w base resp
    · rw [if_pos before] at onward
      rw [if_pos before,ih onward (by simpa using enough)]
      rfl
    · rw [if_neg before] at onward
      rw [if_neg before,onward]
      rfl

/- Every step goes on by four bytes at least, so a run inside the buffer comes to its end. -/
theorem pathEnds (room : base + ioBufferLength < 2^w) (inside : ∀ cpos, Visited w base resp cpos → Inside base resp cpos)
    (visited : Visited w base resp cpos) : ∃ path, Path w base resp cpos path := by
  obtain ⟨left,bound⟩ : ∃ left, base + ioBufferLength - cpos ≤ left := ⟨_,le_refl _⟩
  induction left generalizing cpos with
  | zero =>
    have least := extentLeast resp (cpos - base)
    have there := (inside cpos visited).2
    omega
  | succ left ih =>
    by_cases before : next w base resp cpos < epos w base resp
    · have onward := Visited.next visited before
      have there := inside cpos visited
      have least := extentLeast resp (cpos - base)
      have after := inside _ onward
      -- a next address that had wrapped would lie below the buffer
      have ahead : cpos < next w base resp cpos := by
        have short : step resp (cpos - base) < 2^8 + 4 := Nat.add_lt_add_right (resp _).toNat_lt 4
        obtain ⟨low,high⟩ := there
        unfold next at after ⊢
        by_cases wraps : cpos + step resp (cpos - base) < 2^w
        · rw [Nat.mod_eq_of_lt wraps]
          unfold step
          omega
        · exfalso
          have wide : 11 < w := (Nat.pow_lt_pow_iff_right (by norm_num : 1 < 2)).mp (by
            unfold ioBufferLength at room
            omega)
          have big : 2^12 ≤ 2^w := Nat.pow_le_pow_right (by norm_num) wide
          have low1 := after.1
          rw [Nat.mod_eq_sub_mod (by omega)] at low1
          have small := Nat.mod_le (cpos + step resp (cpos - base) - 2^w) (2^w)
          unfold ioBufferLength at high
          omega
      obtain ⟨path,runs⟩ := ih onward (by omega)
      refine ⟨cpos::path,rfl,there,?_⟩
      rw [if_pos before]
      exact runs
    · refine ⟨[cpos],rfl,inside cpos visited,?_⟩
      rw [if_neg before]

theorem lost {fuel : Nat} (visited : Visited w base resp cpos)
    (stuck : ∀ fuel d, features w base resp fuel cpos d = none) (d : DiskInfo) :
    features w base resp fuel (base + 48) d = none := by
  induction visited generalizing fuel d with
  | first => exact stuck fuel d
  | next visited before ih =>
    refine ih (fun fuel d => ?_) d
    cases fuel with
    | zero => rfl
    | succ fuel =>
      simp only [features,if_pos before,stuck fuel]
      split <;> rfl

theorem outside (d : DiskInfo) (fuel : Nat) (out : ¬ Inside base resp cpos) :
    features w base resp fuel cpos d = none := by
  cases fuel with
  | zero => rfl
  | succ fuel => rw [features,if_neg out]

theorem insideIff (room : base + ioBufferLength < 2^w) :
    (∀ d, ∃ enough info, ∀ fuel, enough < fuel → discovery0 w resp (some base) 0 d fuel = some info) ↔
      ∀ cpos, Visited w base resp cpos → Inside base resp cpos := by
  constructor
  · intro ends cpos visited
    by_contra out
    obtain ⟨enough,info,ran⟩ := ends default
    have run := ran (enough+1) (by omega)
    have none1 := @lost _ _ _ _ (enough+1) visited (fun fuel d => outside d fuel out) default
    rw [discovery0,if_neg (by simp),none1] at run
    cases run
  · intro inside d
    obtain ⟨path,runs⟩ := pathEnds room inside .first
    refine ⟨path.length,path.foldl (fun d q => setFeature resp (q - base) d) d,fun fuel enough => ?_⟩
    rw [discovery0,if_neg (by simp)]
    exact pathRuns runs (by omega) d

variable {stop p : Nat} {starts : List Nat}

theorem tilesBound (tiles : Tiles resp stop p starts) : p + 4*starts.length ≤ stop := by
  induction starts generalizing p with
  | nil => exact Nat.le_of_eq tiles
  | cons q rest ih =>
    obtain ⟨rfl,whole,onward⟩ := tiles
    have later := ih onward
    unfold step at later
    simp only [List.length_cons]
    omega

theorem tilesLast {last : Nat} (tiles : Tiles resp stop p (starts ++ [last])) :
    Tiles resp last p starts ∧ last + step resp last = stop ∧ extent resp last ≤ step resp last := by
  induction starts generalizing p with
  | nil =>
    obtain ⟨rfl,whole,stops⟩ := tiles
    exact ⟨rfl,stops,whole⟩
  | cons q rest ih =>
    obtain ⟨rfl,whole,onward⟩ := tiles
    obtain ⟨before,stops,whole1⟩ := ih onward
    exact ⟨⟨rfl,whole,before⟩,stops,whole1⟩

/- In a buffer that does not wrap the addresses are those of the offsets. -/
theorem nextPlain (room : base + ioBufferLength < 2^w) (fits : p + step resp p ≤ ioBufferLength) :
    next w base resp (base + p) = base + (p + step resp p) := by
  rw [next,Nat.add_sub_cancel_left,Nat.add_assoc,Nat.mod_eq_of_lt (by omega)]

theorem eposPlain (room : base + ioBufferLength < 2^w) (fits : be32 resp 0 ≤ ioBufferLength) :
    epos w base resp = base + be32 resp 0 := Nat.mod_eq_of_lt (by omega)

theorem tilesPath (room : base + ioBufferLength < 2^w) {first : Nat} {rest : List Nat}
    (tiles : Tiles resp stop p (first::rest)) (fits : stop ≤ ioBufferLength) (ahead : be32 resp 0 ≤ stop)
    (before : ∀ q ∈ rest, q < be32 resp 0) : Path w base resp (base + p) ((first::rest).map (base + ·)) := by
  have pointer := eposPlain room (ahead.trans fits)
  induction rest generalizing first p with
  | nil =>
    obtain ⟨rfl,whole,stops⟩ := tiles
    cases (show first + step resp first = stop from stops)
    refine ⟨rfl,⟨by omega,?_⟩,?_⟩
    · rw [Nat.add_sub_cancel_left]
      omega
    · rw [nextPlain room fits,pointer,if_neg (by omega)]
      rfl
  | cons second rest ih =>
    obtain ⟨rfl,whole,onward⟩ := tiles
    have bound := tilesBound onward
    have same : second = first + step resp first := onward.1
    subst same
    simp only [List.length_cons] at bound
    refine ⟨rfl,⟨by omega,?_⟩,?_⟩
    · rw [Nat.add_sub_cancel_left]
      omega
    · have ahead1 := before _ List.mem_cons_self
      rw [nextPlain room (by omega),pointer,if_pos (by omega)]
      exact ih onward (fun q inside => before q (List.mem_cons_of_mem _ inside))

theorem tilesBelow {q : Nat} (tiles : Tiles resp stop p starts) (inside : q ∈ starts) : q + 4 ≤ stop := by
  induction starts generalizing p with
  | nil => cases inside
  | cons first rest ih =>
    obtain ⟨rfl,whole,onward⟩ := tiles
    rcases List.mem_cons.mp inside with rfl | later
    · have bound := tilesBound onward
      unfold step at bound
      omega
    · exact ih onward later

theorem pathSets {starts : List Nat} (runs : Path w base resp (base + 48) (starts.map (base + ·))) (d : DiskInfo)
    {fuel : Nat} (enough : starts.length ≤ fuel) :
    discovery0 w resp (some base) 0 d fuel = some (starts.foldl (fun d p => setFeature resp p d) d) := by
  rw [discovery0,if_neg (by simp),pathRuns runs (by simpa using enough),List.foldl_map]
  simp only [Nat.add_sub_cancel_left]

theorem faithfulWhole (room : base + ioBufferLength < 2^w) (formed : WellFormed resp starts) (some1 : starts ≠ [])
    (ending : ∀ before last, starts = before ++ [last] → before ≠ [] → length resp last ≠ 0) (d : DiskInfo)
    {fuel : Nat} (enough : starts.length ≤ fuel) :
    discovery0 w resp (some base) 0 d fuel = some (starts.foldl (fun d p => setFeature resp p d) d) := by
  refine pathSets ?_ d enough
  obtain ⟨first,rest,rfl⟩ := List.exists_cons_of_ne_nil some1
  refine tilesPath room formed.tiles formed.fits (by omega) fun q inside => ?_
  obtain ⟨before,last,whole⟩ := List.eq_nil_or_concat' rest |>.resolve_left (List.ne_nil_of_mem inside)
  rw [whole] at inside
  have tiles := formed.tiles
  rw [whole,← List.cons_append] at tiles
  obtain ⟨start,stops,-⟩ := tilesLast tiles
  have data := ending (first::before) last (by rw [whole]; rfl) (by simp)
  have lastBefore : last < be32 resp 0 := by
    unfold step at stops
    omega
  rcases List.mem_append.mp inside with early | late
  · have below := tilesBelow start (List.mem_cons_of_mem _ early)
    omega
  · rw [List.mem_singleton.mp late]
    exact lastBefore

theorem lastMissed (room : base + ioBufferLength < 2^w) {last : Nat} (formed : WellFormed resp (starts ++ [last]))
    (some1 : starts ≠ []) (empty : length resp last = 0) (d : DiskInfo) {fuel : Nat} (enough : starts.length ≤ fuel) :
    discovery0 w resp (some base) 0 d fuel ≠
      some ((starts ++ [last]).foldl (fun d p => setFeature resp p d) d) := by
  obtain ⟨before,stops,whole⟩ := tilesLast formed.tiles
  have fits := formed.fits
  obtain rfl : last = be32 resp 0 := by
    unfold step at stops
    omega
  have runs : Path w base resp (base + 48) (starts.map (base + ·)) := by
    obtain ⟨first,rest,rfl⟩ := List.exists_cons_of_ne_nil some1
    refine tilesPath room before (by omega) (le_refl _) fun q inside => ?_
    have below := tilesBelow before (List.mem_cons_of_mem _ inside)
    omega
  rw [pathSets runs d enough,List.foldl_append]
  intro same
  exact emptyUnknown whole empty _ (Option.some.inj same).symm

theorem noneTaken (room : base + ioBufferLength < 2^w) (formed : WellFormed resp []) (fuel : Nat) :
    discovery0 w resp (some base) 0 default fuel ≠ some default := by
  have announced : 48 = be32 resp 0 + 4 := formed.tiles
  have short : step resp 48 < 2^8 + 4 := Nat.add_lt_add_right (resp _).toNat_lt 4
  have pointer := @eposPlain w base resp room (show be32 resp 0 ≤ ioBufferLength by unfold ioBufferLength; omega)
  rw [discovery0,if_neg (by simp)]
  cases fuel with
  | zero => simp [features]
  | succ fuel =>
    have stops : ¬ next w base resp (base + 48) < epos w base resp := by
      rw [nextPlain room (by unfold ioBufferLength; omega),pointer]
      omega
    simp only [features,if_neg stops,Nat.add_sub_cancel_left]
    split
    · intro same
      exact changes resp 48 (Option.some.inj same)
    · simp

/- discovery0 keeps to its buffer and to what is announced exactly where no descriptor reaches
out of the buffer, there is one, and the last further one has data. -/
theorem soundIff (w base : Nat) (resp : Buffer) (room : base + ioBufferLength < 2^w) :
    Sound w base resp ↔ Harmless w base resp := by
  constructor
  · intro sound
    refine ⟨(insideIff room).mp sound.inside,?_,?_⟩
    · intro starts last formed some1 empty
      obtain ⟨enough,ran⟩ := sound.faithful _ formed default
      exact lastMissed room formed some1 empty default (by omega) (ran (enough + starts.length + 1) (by omega))
    · intro formed
      obtain ⟨enough,ran⟩ := sound.faithful _ formed default
      exact noneTaken room formed (enough+1) (ran _ (by omega))
  · intro harmless
    refine ⟨(insideIff room).mpr harmless.inside,fun starts formed d => ⟨starts.length,fun fuel enough => ?_⟩⟩
    refine faithfulWhole room formed ?_ ?_ d (by omega)
    · rintro rfl
      exact harmless.present formed
    · rintro before last rfl some1
      exact harmless.ending before last formed some1

end

/- A header that announces 4096 bytes of descriptors of unknown kind and the greatest length. -/
def longResponse : Buffer := fun i => if i = 2 then 0x10 else if i < 48 then 0 else 0xff

/- The ninth of them lies behind the buffer. -/
theorem readsOutside : ¬ ∀ w base resp, base + ioBufferLength < 2^w → Sound w base resp := by
  intro all
  have sound := all 32 0x100000 longResponse (by decide)
  have ninth := (Visited.first : Visited 32 0x100000 longResponse _)
    |>.next (by decide) |>.next (by decide) |>.next (by decide) |>.next (by decide)
    |>.next (by decide) |>.next (by decide) |>.next (by decide) |>.next (by decide)
  have inside := (insideIff (by decide)).mp sound.inside _ ninth
  exact absurd inside (by decide)

def opalResponse : Buffer := fun i =>
  if i = 3 then 0x50
  else if 48 ≤ i then [0x00,0x02,0x10,0x0c,0x09,0,0,0,0,0,0,0,0,0,0,0,
    0x02,0x03,0x10,0x10,0x07,0xfe,0x00,0x01,0,0,0,0,0,0,0,0,0,0,0,0].getD (i-48) 0
  else 0

theorem opalSound : WellFormed opalResponse [48,64] ∧
    (Sound 32 0x100000 opalResponse ↔ Harmless 32 0x100000 opalResponse) :=
  ⟨⟨⟨rfl,by decide,rfl,by decide,rfl⟩,by decide⟩,soundIff _ _ _ (by decide)⟩

end Syslinux.Discovery0
