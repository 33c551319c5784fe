import Syslinux.IsoDir

/-! The listing of an ISO 9660 directory by successive iso_readdir calls, next to the lookup of its
names by iso_find_entry. -/
namespace Syslinux.Iso
open Searchdir (Bytes cstr cstrPlain cstrBytes)
open Cache (Session Event Stays Kept Fits opened step getCache noBlock place)
open Susp (SbInfo cacheReader diskReader diskBlock suspRrGetNm NmLoaded Staying nmLike nmMore)
open Runs

/- The cache as iso_fs_init leaves it, with n entries for blocks. -/
def CacheInit (start : Session) (n : Nat) : Prop :=
  ∃ sizeofCache dev, 2^blockShift + 2*sizeofCache ≤ dev.cacheSize ∧ Fits sizeofCache dev.cacheSize blockShift ∧
    start = opened sizeofCache dev blockShift ∧ start.dev.cacheEntries = n

def Listed.name (l : Listed) : Bytes := cstr l.dirent.dName

def Listed.under (l : Listed) (dname : Bytes) : Prop := l.name = if l.rockRidge then dname else dname.map isoTolower

inductive Calls (disk behind : Nat → UInt8) (sbi : SbInfo) (inode : Inode) : Session → Nat → List Listed → Session → Prop where
  | nil (s offset) : Calls disk behind sbi inode s offset [] s
  | next {s s₁ s₂ s₃ offset offset' l ls} {blocks : List Nat} {fuel turns} (other : run (step disk) s (blocks.map .get) = some s₁)
      (call : isoReaddir disk behind sbi inode fuel turns s₁ offset = some (s₂,offset',some l))
      (rest : Calls disk behind sbi inode s₂ offset' ls s₃) : Calls disk behind sbi inode s offset (l::ls) s₃

def record (disk : Nat → UInt8) (block off : Nat) : Nat → UInt8 := fun k => diskBlock disk block (off + k)

def Inode.record (disk : Nat → UInt8) (inode : Inode) (offset : Nat) : Nat → UInt8 :=
  Iso.record disk (inode.lba + offset / blockSize) (offset % blockSize)

/- Every name that is listed is found, whatever has been read since, and what is found is the
first record listed under it. -/
def FindsListed (disk behind : Nat → UInt8) (sbi : SbInfo) (inode : Inode) (start : Session) : Prop :=
  ∀ ls s s₁, ∀ blocks : List Nat, Calls disk behind sbi inode start 0 ls s → run (step disk) s (blocks.map .get) = some s₁ →
    ∀ (k : Nat) (l : Listed), ls[k]? = some l → ∃ fuel turns s₂ p,
      isoFindEntry disk behind sbi inode fuel l.name turns s₁ = some (s₂,some p) ∧
      ∃ (j : Nat) (l' : Listed), j ≤ k ∧ ls[j]? = some l' ∧ l'.under l.name ∧
        (∀ i < j, ∀ l'' : Listed, ls[i]? = some l'' → ¬ l''.under l.name) ∧
        ∀ m < deLength (inode.record disk l'.dirent.dOff), bytesAt s₂ p m = inode.record disk l'.dirent.dOff m

def recordsFrom (bytes : Nat → UInt8) (off : Nat) : List Nat :=
  if (bytes off).toNat < 33 ∨ blockSize < off + (bytes off).toNat then [] else off::recordsFrom bytes (off + (bytes off).toNat)
termination_by blockSize - off
decreasing_by omega

def Inode.blockRecords (disk : Nat → UInt8) (inode : Inode) (i : Nat) : List Nat := recordsFrom (diskBlock disk (inode.lba + i)) 0

def NamesEnd (disk : Nat → UInt8) (sbi : SbInfo) (inode : Inode) : Prop :=
  ∀ i < inode.blocks, ∀ off ∈ inode.blockRecords disk i,
    ∃ fuel res, suspRrGetNm (diskReader disk) (record disk (inode.lba + i) off) sbi fuel () = some res

/- How many bytes iso_convert_name looks at. -/
def convertReads (src : Nat → UInt8) : Nat → Nat → Nat
  | 0,_ => 0
  | len+1,i => if src i = 0 ∨ src i = semicolon then 1 else convertReads src len (i + 1) + 1

/- What is looked at of a record is in its block or in the blocks of its Continuation Areas, and
those are from `others`. -/
structure Inside (disk : Nat → UInt8) (sbi : SbInfo) (block off : Nat) (others : Finset Nat) : Prop where
  rockRidge : NmLoaded disk (record disk block off) sbi (blockSize - off) others
  plain : ∀ fuel ret rrName, suspRrGetNm (diskReader disk) (record disk block off) sbi fuel () = some ((),ret,rrName) → ret ≤ 0 →
    off + 33 + convertReads (deName (record disk block off)) (deNameLen (record disk block off)) 0 ≤ blockSize

/- The block numbers do not wrap, the names do not go beyond what has been read for them, and no
block of the directory is dropped from the cache for the Continuation Areas of its records. -/
structure Steady (disk : Nat → UInt8) (sbi : SbInfo) (inode : Inode) (n : Nat) : Prop where
  lba : inode.lba + inode.blocks ≤ 2^32
  records : ∀ i < inode.blocks, ∃ others : Finset Nat, (others.erase (inode.lba + i)).card < n ∧
    ∀ off ∈ inode.blockRecords disk i, Inside disk sbi (inode.lba + i) off others

section
variable {src src' : Nat → UInt8}

theorem tolowerTwice (c : UInt8) : isoTolower (isoTolower c) = isoTolower c := by
  unfold isoTolower
  by_cases upper : 0x41 ≤ c ∧ c ≤ 0x5a
  · have above : ¬ (0x41 ≤ c + 0x20 ∧ c + 0x20 ≤ 0x5a) := by
      obtain ⟨low,high⟩ := upper
      rw [UInt8.le_iff_toNat_le] at low high
      rw [UInt8.le_iff_toNat_le,UInt8.le_iff_toNat_le,UInt8.toNat_add]
      simp at low high ⊢
      omega
    rw [if_pos upper,if_neg above]
  · rw [if_neg upper,if_neg upper]

theorem tolowerZero {c : UInt8} : isoTolower c = 0 ↔ c = 0 := by
  unfold isoTolower
  by_cases upper : 0x41 ≤ c ∧ c ≤ 0x5a
  · rw [if_pos upper]
    obtain ⟨low,high⟩ := upper
    rw [UInt8.le_iff_toNat_le] at low high
    rw [← UInt8.toNat_inj,← UInt8.toNat_inj,UInt8.toNat_add]
    simp at low high ⊢
    omega
  · rw [if_neg upper]

theorem convertSame (len i : Nat) (same : ∀ k < convertReads src len i, src (i + k) = src' (i + k)) :
    convertLoop src len i = convertLoop src' len i := by
  induction len generalizing i with
  | zero => rfl
  | succ len ih =>
    unfold convertReads at same
    unfold convertLoop
    by_cases stop : src i = 0 ∨ src i = semicolon
    · rw [if_pos stop] at same
      have first : src i = src' i := same 0 (by norm_num)
      rw [if_pos stop,if_pos (by rwa [← first])]
    · rw [if_neg stop] at same
      have first : src i = src' i := same 0 (by omega)
      rw [if_neg stop,if_neg (by rwa [← first]),ih (i + 1) ?_,first]
      intro k less
      have later := same (k + 1) (by omega)
      rwa [show i + (k + 1) = i + 1 + k by omega] at later

theorem isoConvertSame {len : Nat} (same : ∀ k < convertReads src len 0, src k = src' k) :
    isoConvertName src len = isoConvertName src' len := by
  have loop : convertLoop src len 0 = convertLoop src' len 0 :=
    convertSame len 0 fun k less => by rw [Nat.zero_add]; exact same k less
  unfold isoConvertName
  rw [loop]
  by_cases one : len = 1
  · have first : src 0 = src' 0 := by
      refine same 0 ?_
      rw [one]
      unfold convertReads
      split_ifs <;> omega
    rw [first]
  · simp [one]

theorem convertMember (len i : Nat) {c : UInt8} (mem : c ∈ convertLoop src len i) : c ≠ 0 ∧ isoTolower c = c := by
  induction len generalizing i with
  | zero => cases mem
  | succ len ih =>
    unfold convertLoop at mem
    by_cases stop : src i = 0 ∨ src i = semicolon
    · rw [if_pos stop] at mem
      cases mem
    · rw [if_neg stop] at mem
      rcases List.mem_cons.mp mem with rfl | mem
      · exact ⟨fun zero => stop (Or.inl (tolowerZero.1 zero)),tolowerTwice _⟩
      · exact ih (i + 1) mem

theorem isoConvertMember {len : Nat} {c : UInt8} (mem : c ∈ isoConvertName src len) : c ≠ 0 ∧ isoTolower c = c := by
  have dots : dot ≠ 0 ∧ isoTolower dot = dot := by decide
  unfold isoConvertName at mem
  split_ifs at mem
  · rcases List.mem_cons.mp mem with rfl | mem
    · exact dots
    · rw [List.mem_singleton.mp mem]
      exact dots
  · rw [List.mem_singleton.mp mem]
    exact dots
  · exact convertMember len 0 (List.mem_of_mem_take mem)

theorem isoConvertPlain (len : Nat) : cstr (isoConvertName src len) = isoConvertName src len :=
  cstrPlain fun _ mem => (isoConvertMember mem).1

theorem isoConvertLower (len : Nat) : (isoConvertName src len).map isoTolower = isoConvertName src len := by
  conv_rhs => rw [← List.map_id (isoConvertName src len)]
  exact List.map_congr_left fun c mem => (isoConvertMember mem).2

theorem compareIff {name fileName : Bytes} (plain : ∀ c ∈ name, c ≠ 0) (plain' : ∀ c ∈ fileName, c ≠ 0) :
    compareLoop name fileName = true ↔ name = fileName.map isoTolower := by
  induction name generalizing fileName with
  | nil =>
    cases fileName with
    | nil => simp [compareLoop,isoTolower]
    | cons c file =>
      have some' := plain' c List.mem_cons_self
      simp only [compareLoop,List.headD_cons,List.map_cons]
      exact iff_of_false (fun zero => some' (tolowerZero.1 (of_decide_eq_true zero).symm)) (by simp)
  | cons c1 name ih =>
    have some' := plain c1 List.mem_cons_self
    have rest := fun c mem => plain c (List.mem_cons_of_mem c1 mem)
    cases fileName with
    | nil =>
      have zero : isoTolower 0 = 0 := by decide
      simp [compareLoop,zero,some']
    | cons c file =>
      have tail := ih rest fun c' mem => plain' c' (List.mem_cons_of_mem c mem)
      unfold compareLoop
      rw [List.headD_cons,List.tail_cons,List.map_cons,List.cons.injEq]
      by_cases same : c1 = isoTolower c
      · rw [if_neg (not_not.mpr same),if_neg some',tail]
        exact (and_iff_right same).symm
      · rw [if_pos same]
        exact iff_of_false (by simp) fun both => same both.1

theorem compareNameIff (src : Nat → UInt8) (len : Nat) {fileName : Bytes} (plain : ∀ c ∈ fileName, c ≠ 0) :
    isoCompareName src len fileName = true ↔ isoConvertName src len = fileName.map isoTolower :=
  compareIff (fun _ mem => (isoConvertMember mem).1) plain

end

def NamedAs (disk : Nat → UInt8) (sbi : SbInfo) (block off : Nat) (rockRidge : Bool) (name : Bytes) : Prop :=
  ∃ fuel ret rrName, suspRrGetNm (diskReader disk) (record disk block off) sbi fuel () = some ((),ret,rrName) ∧
    rockRidge = decide (0 < ret) ∧
    name = if 0 < ret then rrName.getD []
      else isoConvertName (deName (record disk block off)) (deNameLen (record disk block off))

def Under (disk : Nat → UInt8) (sbi : SbInfo) (dname : Bytes) (block off : Nat) : Prop :=
  ∃ rockRidge name, NamedAs disk sbi block off rockRidge name ∧ cstr name = if rockRidge then dname else dname.map isoTolower

section
variable {disk behind : Nat → UInt8} {sbi : SbInfo} {block off n e : Nat} {others : Finset Nat} {s : Session}

theorem nmOnly {de : Nat → UInt8} {fuel fuel' : Nat} {res res' : Unit × Int × Option (List UInt8)}
    (ok : suspRrGetNm (diskReader disk) de sbi fuel () = some res)
    (ok' : suspRrGetNm (diskReader disk) de sbi fuel' () = some res') : res = res' := by
  have first := nmMore ok fuel'
  rw [Nat.add_comm,nmMore ok' fuel] at first
  exact (Option.some.inj first).symm

theorem namedOnly {rr rr' : Bool} {name name' : Bytes} (named : NamedAs disk sbi block off rr name)
    (named' : NamedAs disk sbi block off rr' name') : rr = rr' ∧ name = name' := by
  obtain ⟨fuel,ret,data,ok,rfl,rfl⟩ := named
  obtain ⟨fuel',ret',data',ok',rfl,rfl⟩ := named'
  cases nmOnly ok ok'
  exact ⟨rfl,rfl⟩

theorem underNamed {rr : Bool} {name dname : Bytes} (named : NamedAs disk sbi block off rr name) :
    Under disk sbi dname block off ↔ cstr name = if rr then dname else dname.map isoTolower := by
  constructor
  · rintro ⟨rr',name',named',same⟩
    obtain ⟨rfl,rfl⟩ := namedOnly named named'
    exact same
  · exact fun same => ⟨rr,name,named,same⟩

theorem bytesStay (stays : Staying disk n others block e s) {k : Nat} (inside : off + k < blockSize) :
    bytesAt s (place blockShift e + off) k = record disk block off k := by
  obtain ⟨lru,stays⟩ := stays
  have byte := Cache.staysByte stays inside
  unfold bytesAt record diskBlock
  rw [if_pos (show off + k < 2048 from inside),Nat.add_assoc]
  exact byte

structure Lies (disk : Nat → UInt8) (block off : Nat) : Prop where
  header : 33 ≤ deLength (record disk block off)
  fits : off + deLength (record disk block off) ≤ blockSize

theorem nmStay (behind : Nat → UInt8) (fuel : Nat) (lies : Lies disk block off) (few : (others.erase block).card < n) (inside : Inside disk sbi block off others)
    (stays : Staying disk n others block e s) :
    Option.Rel (fun a b => a.2 = b.2 ∧ Staying disk n others block e a.1)
      (suspRrGetNm (cacheReader disk behind) (bytesAt s (place blockShift e + off)) sbi fuel s)
      (suspRrGetNm (diskReader disk) (record disk block off) sbi fuel ()) := by
  have fits := lies.fits
  have header := lies.header
  refine nmLike few (fun i less => bytesStay stays ?_) ?_ ?_ inside.rockRidge stays fuel
  · omega
  · omega
  · unfold deLength at fits
    omega

theorem nameLenStay (lies : Lies disk block off) (stays : Staying disk n others block e s) :
    deNameLen (bytesAt s (place blockShift e + off)) = deNameLen (record disk block off) := by
  have fits := lies.fits
  have header := lies.header
  unfold deNameLen
  rw [bytesStay stays (by omega)]

theorem plainStay (lies : Lies disk block off) (inside : Inside disk sbi block off others)
    (stays : Staying disk n others block e s) {fuel : Nat} {ret : Int} {rrName : Option (List UInt8)}
    (ok : suspRrGetNm (diskReader disk) (record disk block off) sbi fuel () = some ((),ret,rrName)) (plain : ret ≤ 0) :
    isoConvertName (deName (bytesAt s (place blockShift e + off))) (deNameLen (bytesAt s (place blockShift e + off))) =
      isoConvertName (deName (record disk block off)) (deNameLen (record disk block off)) := by
  rw [nameLenStay lies stays]
  have reads := inside.plain fuel ret rrName ok plain
  refine (isoConvertSame fun k less => ?_).symm
  unfold deName
  exact (bytesStay stays (by omega)).symm

theorem recordsFromEnd (over' : blockSize ≤ off) : recordsFrom (diskBlock disk block) off = [] := by
  have zero : diskBlock disk block off = 0 := by
    unfold diskBlock
    exact if_neg (show ¬ off < 2048 by unfold blockSize blockShift at over'; omega)
  rw [recordsFrom,zero]
  exact if_pos (Or.inl (by decide))

theorem recordsFromLies (lies : Lies disk block off) : recordsFrom (diskBlock disk block) off =
    off::recordsFrom (diskBlock disk block) (off + deLength (record disk block off)) := by
  have fits := lies.fits
  have header := lies.header
  have length : (diskBlock disk block off).toNat = deLength (record disk block off) := rfl
  rw [recordsFrom,length,if_neg (by omega)]

theorem recordsFromNone (lies : ¬ Lies disk block off) : recordsFrom (diskBlock disk block) off = [] := by
  rw [recordsFrom]
  refine if_pos ?_
  by_contra both
  obtain ⟨header,fits⟩ := not_or.mp both
  exact lies ⟨Nat.le_of_not_lt header,Nat.le_of_not_lt fits⟩

theorem recordsInduction (disk : Nat → UInt8) (block : Nat) {motive : Nat → Prop} (over' : ∀ off, ¬ Lies disk block off → motive off)
    (next : ∀ off, Lies disk block off → motive (off + deLength (record disk block off)) → motive off) (off : Nat) :
    motive off := by
  induction left : blockSize - off using Nat.strong_induction_on generalizing off with
  | _ left ih =>
    by_cases lies : Lies disk block off
    · have fits := lies.fits
      have header := lies.header
      exact next off lies (ih _ (by omega) _ rfl)
    · exact over' off lies

/- Whether there is a record: its first byte may be read behind the block, but only where there is
none anyway. -/
theorem endStay (within : off ≤ blockSize) (stays : Staying disk n others block e s) :
    (deLength (bytesAt s (place blockShift e + off)) < 33 ∨
      blockSize < off + deLength (bytesAt s (place blockShift e + off))) ↔ ¬ Lies disk block off := by
  have either : (¬ Lies disk block off) ↔
      (deLength (record disk block off) < 33 ∨ blockSize < off + deLength (record disk block off)) := by
    constructor
    · intro lies
      by_contra both
      obtain ⟨header,fits⟩ := not_or.mp both
      exact lies ⟨Nat.le_of_not_lt header,Nat.le_of_not_lt fits⟩
    · rintro short ⟨header,fits⟩
      omega
  rw [either]
  by_cases inside : off < blockSize
  · unfold deLength
    rw [bytesStay stays (show off + 0 < blockSize by omega)]
  · omega

variable {inode : Inode} {dname : Bytes} {fuel : Nat}

/- One record of iso_find_entry's walk. -/
theorem findStep (behind : Nat → UInt8) (inode : Inode) (plain : ∀ c ∈ dname, c ≠ 0) (lies : Lies disk block off) (few : (others.erase block).card < n)
    (inside : Inside disk sbi block off others) (stays : Staying disk n others block e s)
    (ends : ∃ res, suspRrGetNm (diskReader disk) (record disk block off) sbi fuel () = some res) :
    ∃ s', Staying disk n others block e s' ∧ ∀ turns i dirBlock,
      (Under disk sbi dname block off ∧
        findLoop disk behind sbi inode fuel dname (turns + 1) s (some (place blockShift e)) i off dirBlock =
          some (s',some (place blockShift e + off))) ∨
      (¬ Under disk sbi dname block off ∧
        findLoop disk behind sbi inode fuel dname (turns + 1) s (some (place blockShift e)) i off dirBlock =
          findLoop disk behind sbi inode fuel dname turns s' (some (place blockShift e)) i
            (off + deLength (record disk block off)) dirBlock) := by
  have fits := lies.fits
  have header := lies.header
  obtain ⟨⟨_,ret,rrName⟩,ok⟩ := ends
  have like := nmStay behind fuel lies few inside stays
  rw [ok] at like
  cases cached : suspRrGetNm (cacheReader disk behind) (bytesAt s (place blockShift e + off)) sbi fuel s with
  | none => rw [cached] at like; cases like
  | some res =>
    rw [cached] at like
    obtain ⟨same,stays'⟩ : res.2 = (ret,rrName) ∧ Staying disk n others block e res.1 := by
      cases like
      assumption
    obtain ⟨s',res⟩ := res
    simp only at same stays'
    subst same
    refine ⟨s',stays',fun turns i dirBlock => ?_⟩
    have whole : ¬ (deLength (bytesAt s (place blockShift e + off)) < 33 ∨
        blockSize < off + deLength (bytesAt s (place blockShift e + off))) := by
      rw [endStay (by omega) stays]
      exact not_not.mpr lies
    have length : deLength (bytesAt s (place blockShift e + off)) = deLength (record disk block off) := by
      unfold deLength
      rw [bytesStay stays (by omega)]
    rw [length] at whole
    simp only [findLoop,length,if_neg whole,cached]
    have named : NamedAs disk sbi block off (decide (0 < ret)) _ := ⟨fuel,ret,rrName,ok,rfl,rfl⟩
    rw [underNamed named]
    by_cases rr : 0 < ret
    · simp only [if_pos rr,decide_eq_true rr,if_true]
      by_cases match' : cstr (rrName.getD []) = dname
      · exact Or.inl ⟨match',if_pos match'⟩
      · exact Or.inr ⟨match',if_neg match'⟩
    · simp only [if_neg rr,decide_eq_false rr,Bool.false_eq_true,if_false]
      have compare := compareNameIff (deName (bytesAt s' (place blockShift e + off)))
        (deNameLen (bytesAt s' (place blockShift e + off))) plain
      rw [plainStay lies inside stays' ok (by omega)] at compare
      rw [isoConvertPlain]
      by_cases match' : isoConvertName (deName (record disk block off)) (deNameLen (record disk block off)) = dname.map isoTolower
      · exact Or.inl ⟨match',if_pos (compare.mpr match')⟩
      · exact Or.inr ⟨match',if_neg fun found => match' (compare.mp found)⟩

theorem recordsLie {off f : Nat} (mem : f ∈ recordsFrom (diskBlock disk block) off) : Lies disk block f := by
  induction off using recordsInduction disk block with
  | over' off none' => rw [recordsFromNone none'] at mem; cases mem
  | next off lies ih =>
    rw [recordsFromLies lies] at mem
    rcases List.mem_cons.mp mem with rfl | mem
    · exact lies
    · exact ih mem

/- A block of the directory with its records, and the fuel for their names. -/
structure Readable (disk : Nat → UInt8) (sbi : SbInfo) (block n fuel : Nat) (others : Finset Nat) (records : List Nat) : Prop where
  few : (others.erase block).card < n
  inside : ∀ off ∈ records, Inside disk sbi block off others
  ends : ∀ off ∈ records, ∃ res, suspRrGetNm (diskReader disk) (record disk block off) sbi fuel () = some res

theorem readableTail {first : Nat} {rest : List Nat} (readable : Readable disk sbi block n fuel others (first::rest)) :
    Readable disk sbi block n fuel others rest :=
  ⟨readable.few,fun off mem => readable.inside off (List.mem_cons_of_mem _ mem),
    fun off mem => readable.ends off (List.mem_cons_of_mem _ mem)⟩

theorem findBlock (behind : Nat → UInt8) (inode : Inode) (plain : ∀ c ∈ dname, c ≠ 0) (off : Nat) {s : Session} (within : off ≤ blockSize)
    (readable : Readable disk sbi block n fuel others (recordsFrom (diskBlock disk block) off))
    (stays : Staying disk n others block e s) (i dirBlock : Nat) :
    (∃ pre f post, recordsFrom (diskBlock disk block) off = pre ++ f::post ∧ (∀ g ∈ pre, ¬ Under disk sbi dname block g) ∧
      Under disk sbi dname block f ∧ ∃ turns s', Staying disk n others block e s' ∧
        findLoop disk behind sbi inode fuel dname turns s (some (place blockShift e)) i off dirBlock =
          some (s',some (place blockShift e + f))) ∨
    ((∀ g ∈ recordsFrom (diskBlock disk block) off, ¬ Under disk sbi dname block g) ∧ ∃ k s' next,
      Staying disk n others block e s' ∧ ∀ turns,
        findLoop disk behind sbi inode fuel dname (turns + k) s (some (place blockShift e)) i off dirBlock =
          findLoop disk behind sbi inode fuel dname turns s' none i next dirBlock) := by
  induction off using recordsInduction disk block generalizing s with
  | over' off none' =>
    refine Or.inr ⟨by simp [recordsFromNone none'],1,s,off + deLength (bytesAt s (place blockShift e + off)),stays,fun turns => ?_⟩
    simp only [findLoop]
    exact if_pos ((endStay within stays).mpr none')
  | next off lies ih =>
    rw [recordsFromLies lies] at readable ⊢
    obtain ⟨s₁,stays₁,step⟩ := findStep behind inode plain lies readable.few
      (readable.inside off List.mem_cons_self) stays (readable.ends off List.mem_cons_self)
    rcases step 0 i dirBlock with ⟨under,found⟩ | ⟨other,_⟩
    · exact Or.inl ⟨[],off,_,rfl,by simp,under,1,s₁,stays₁,found⟩
    have step := fun turns => ((step turns i dirBlock).resolve_left fun both => other both.1).2
    rcases ih lies.fits (readableTail readable) stays₁ with
      ⟨pre,f,post,split,before,under,turns,s',stays',found⟩ | ⟨before,k,s',next,stays',rest⟩
    · refine Or.inl ⟨off::pre,f,post,by rw [split]; rfl,?_,under,turns + 1,s',stays',by rw [step,found]⟩
      exact List.forall_mem_cons.mpr ⟨other,before⟩
    · refine Or.inr ⟨List.forall_mem_cons.mpr ⟨other,before⟩,k + 1,s',next,stays',fun turns => ?_⟩
      rw [← Nat.add_assoc,step,rest]

end

def Free (disk : Nat → UInt8) (n : Nat) (s : Session) : Prop := (∃ lru, Kept disk blockShift n lru s) ∧ s.locked = []

/- The records of `left` blocks of the directory from the i-th on, by their file offsets. -/
def Inode.later (disk : Nat → UInt8) (inode : Inode) : Nat → Nat → List Nat
  | 0,_ => []
  | left+1,i => (inode.blockRecords disk i).map (i*blockSize + ·) ++ later disk inode left (i + 1)

section
variable {disk behind : Nat → UInt8} {sbi : SbInfo} {inode : Inode} {dname : Bytes} {n fuel : Nat} {s : Session}

theorem stayingFree {block e : Nat} {others : Finset Nat} (stays : Staying disk n others block e s) : Free disk n s := by
  obtain ⟨lru,stays⟩ := stays
  exact ⟨⟨lru,stays.kept⟩,stays.free⟩

theorem freeGot (free : Free disk n s) {block : Nat} (real : block < noBlock) :
    ∃ e, (getCache disk s.dev block).2 = some (place blockShift e) ∧
      ∀ others, Staying disk n others block e (s.get disk block) := by
  obtain ⟨⟨lru,kept⟩,free⟩ := free
  exact ⟨_,Cache.getPointer kept block,Cache.staysGot kept free real⟩

theorem placeOf {i off : Nat} (inside : off < blockSize) :
    (i*blockSize + off) / blockSize = i ∧ (i*blockSize + off) % blockSize = off := by
  have positive : 0 < blockSize := by decide
  rw [Nat.mul_comm]
  exact ⟨by rw [Nat.mul_add_div positive,Nat.div_eq_of_lt inside,Nat.add_zero],
    by rw [Nat.mul_add_mod,Nat.mod_eq_of_lt inside]⟩

def Inode.under (disk : Nat → UInt8) (sbi : SbInfo) (inode : Inode) (dname : Bytes) (f : Nat) : Prop :=
  Under disk sbi dname (inode.lba + f / blockSize) (f % blockSize)

theorem underPlace {i off : Nat} (lies : Lies disk (inode.lba + i) off) :
    inode.under disk sbi dname (i*blockSize + off) ↔ Under disk sbi dname (inode.lba + i) off := by
  have fits := lies.fits
  have header := lies.header
  obtain ⟨block,part⟩ := placeOf (i := i) (show off < blockSize by omega)
  unfold Inode.under
  rw [block,part]

/- iso_find_entry over the blocks of the directory, by induction on those that are left. -/
theorem findLater (behind : Nat → UInt8) (inode : Inode) (plain : ∀ c ∈ dname, c ≠ 0) (real : inode.lba + inode.blocks ≤ noBlock)
    (readable : ∀ i < inode.blocks, ∃ others, Readable disk sbi (inode.lba + i) n fuel others (inode.blockRecords disk i))
    (left i : Nat) (all : i + left = inode.blocks) (offset : Nat) {s : Session} (free : Free disk n s) :
    (∃ pre f post, inode.later disk left i = pre ++ f::post ∧ (∀ g ∈ pre, ¬ inode.under disk sbi dname g) ∧
      inode.under disk sbi dname f ∧ ∃ turns s' e others, Staying disk n others (inode.lba + f / blockSize) e s' ∧
        Lies disk (inode.lba + f / blockSize) (f % blockSize) ∧
        findLoop disk behind sbi inode fuel dname turns s none i offset (inode.lba + i) =
          some (s',some (place blockShift e + f % blockSize))) ∨
    ((∀ g ∈ inode.later disk left i, ¬ inode.under disk sbi dname g) ∧ ∃ turns s',
      findLoop disk behind sbi inode fuel dname turns s none i offset (inode.lba + i) = some (s',none)) := by
  induction left generalizing i s offset with
  | zero =>
    refine Or.inr ⟨by simp [Inode.later],1,s,?_⟩
    simp only [findLoop]
    exact if_pos (by omega)
  | succ left ih =>
    obtain ⟨e,pointer,got⟩ := freeGot free (show inode.lba + i < noBlock by omega)
    obtain ⟨others,readable'⟩ := readable i (by omega)
    have load : ∀ turns, findLoop disk behind sbi inode fuel dname (turns + 1) s none i offset (inode.lba + i) =
        findLoop disk behind sbi inode fuel dname turns (s.get disk (inode.lba + i)) (some (place blockShift e)) (i + 1) 0
          (inode.lba + (i + 1)) := by
      intro turns
      simp only [findLoop]
      rw [if_neg (by omega),pointer,Option.getD_some,Nat.add_assoc]
    unfold Inode.later
    have lie : ∀ g ∈ inode.blockRecords disk i, Lies disk (inode.lba + i) g := fun g mem => recordsLie mem
    rcases findBlock behind inode plain 0 (Nat.zero_le _) readable' (got others) (i + 1)
        (inode.lba + (i + 1)) with ⟨pre,f,post,split,before,under,turns,s',stays,found⟩ | ⟨before,k,s',next,stays,rest⟩
    · have split : inode.blockRecords disk i = pre ++ f::post := split
      have liesF := lie f (by rw [split]; simp)
      have fits := liesF.fits
      have header := liesF.header
      obtain ⟨block,part⟩ := placeOf (i := i) (show f < blockSize by omega)
      refine Or.inl ⟨pre.map (i*blockSize + ·),i*blockSize + f,post.map (i*blockSize + ·) ++ inode.later disk left (i + 1),
        by rw [split]; simp,?_,(underPlace liesF).mpr under,turns + 1,s',e,others,?_,?_,by rw [load,part]; exact found⟩
      · intro _ mem
        obtain ⟨g,here,rfl⟩ := List.mem_map.mp mem
        exact fun h => before g here ((underPlace (lie g (by rw [split]; simp [here]))).mp h)
      · rw [block]
        exact stays
      · rw [block,part]
        exact liesF
    · have before : ∀ g ∈ (inode.blockRecords disk i).map (i*blockSize + ·), ¬ inode.under disk sbi dname g := by
        intro _ mem
        obtain ⟨g,here,rfl⟩ := List.mem_map.mp mem
        exact fun h => before g here ((underPlace (lie g here)).mp h)
      rcases ih (i + 1) (by omega) next (stayingFree stays) with
        ⟨pre,f,post,split,before',under,turns,s'',e',others',stays',lies,found⟩ | ⟨before',turns,s'',found⟩
      · refine Or.inl ⟨(inode.blockRecords disk i).map (i*blockSize + ·) ++ pre,f,post,by rw [split]; simp,?_,under,
          turns + k + 1,s'',e',others',stays',lies,by rw [load,rest,found]⟩
        intro g mem
        rcases List.mem_append.mp mem with mem | mem
        · exact before g mem
        · exact before' g mem
      · refine Or.inr ⟨?_,turns + k + 1,s'',by rw [load,rest,found]⟩
        intro g mem
        rcases List.mem_append.mp mem with mem | mem
        · exact before g mem
        · exact before' g mem

def Inode.rest (disk : Nat → UInt8) (inode : Inode) (offset : Nat) : List Nat :=
  if offset / blockSize < inode.blocks then
    (recordsFrom (diskBlock disk (inode.lba + offset / blockSize)) (offset % blockSize)).map (offset / blockSize*blockSize + ·) ++
      inode.later disk (inode.blocks - (offset / blockSize + 1)) (offset / blockSize + 1)
  else []

theorem restBlock (disk : Nat → UInt8) (inode : Inode) {i : Nat} (le : i ≤ inode.blocks) : inode.rest disk (i*blockSize) = inode.later disk (inode.blocks - i) i := by
  obtain ⟨block,part⟩ := placeOf (i := i) (show 0 < blockSize by decide)
  rw [Nat.add_zero] at block part
  unfold Inode.rest
  rw [block,part]
  by_cases less : i < inode.blocks
  · obtain ⟨left,eq⟩ : ∃ left, inode.blocks - i = left + 1 := ⟨inode.blocks - i - 1,by omega⟩
    rw [if_pos less,eq,Inode.later,show inode.blocks - (i + 1) = left by omega]
    rfl
  · rw [if_neg less,show inode.blocks - i = 0 by omega]
    rfl

theorem restAt (disk : Nat → UInt8) (inode : Inode) {i off : Nat} (less : i < inode.blocks) (within : off ≤ blockSize) : inode.rest disk (i*blockSize + off) =
    (recordsFrom (diskBlock disk (inode.lba + i)) off).map (i*blockSize + ·) ++
      inode.later disk (inode.blocks - (i + 1)) (i + 1) := by
  by_cases inside : off < blockSize
  · obtain ⟨block,part⟩ := placeOf (i := i) inside
    unfold Inode.rest
    rw [block,part,if_pos less]
  · obtain rfl : off = blockSize := by omega
    rw [recordsFromEnd (Nat.le_refl _),← Nat.succ_mul,restBlock disk inode (show i + 1 ≤ inode.blocks from less)]
    rfl

theorem memLater {left i g : Nat} (mem : g ∈ inode.later disk left i) : ∃ j, i ≤ j ∧ j < i + left ∧
    ∃ off ∈ inode.blockRecords disk j, g = j*blockSize + off := by
  induction left generalizing i with
  | zero => cases mem
  | succ left ih =>
    unfold Inode.later at mem
    rcases List.mem_append.mp mem with mem | mem
    · obtain ⟨off,here,rfl⟩ := List.mem_map.mp mem
      exact ⟨i,Nat.le_refl _,by omega,off,here,rfl⟩
    · obtain ⟨j,above,below,rest⟩ := ih mem
      exact ⟨j,by omega,by omega,rest⟩

theorem memRest {g : Nat} (mem : g ∈ inode.rest disk 0) :
    g / blockSize < inode.blocks ∧ g % blockSize ∈ inode.blockRecords disk (g / blockSize) := by
  have all := restBlock disk inode (Nat.zero_le _)
  rw [Nat.zero_mul] at all
  rw [all] at mem
  obtain ⟨j,_,below,off,here,rfl⟩ := memLater mem
  have lies := recordsLie here
  have fits := lies.fits
  have header := lies.header
  obtain ⟨block,part⟩ := placeOf (i := j) (show off < blockSize by omega)
  rw [block,part]
  exact ⟨by omega,here⟩

theorem nextBlock {offset : Nat} (small : offset < 2^32) : Align.alignDown (add32 offset blockSize) blockSize =
    if (offset / blockSize + 1)*blockSize < 2^32 then (offset / blockSize + 1)*blockSize else 0 := by
  have down := Align.alignDownEq (k := blockShift) (p := add32 offset blockSize) (by decide) (Nat.mod_lt _ (by norm_num))
  rw [show Align.alignDown (add32 offset blockSize) blockSize = _ from down]
  unfold add32 blockSize blockShift
  split_ifs <;> omega

def Holding (disk : Nat → UInt8) (inode : Inode) (n : Nat) (offset : Nat) (s : Session) : Option Nat → Prop
  | none => Free disk n s
  | some p => ∃ e, p = place blockShift e ∧ offset / blockSize < inode.blocks ∧
      ∀ others, Staying disk n others (inode.lba + offset / blockSize) e s

/- The record that a call comes to is the next one, or the first one if the offset has wrapped. -/
structure Reached (disk : Nat → UInt8) (inode : Inode) (n offset : Nat) (s : Session) (f p : Nat) : Prop where
  small : f < 2^32
  block : f / blockSize < inode.blocks
  lies : Lies disk (inode.lba + f / blockSize) (f % blockSize)
  holds : ∃ e, p = place blockShift e + f % blockSize ∧ ∀ others, Staying disk n others (inode.lba + f / blockSize) e s
  next : inode.rest disk offset = f::inode.rest disk (f + deLength (inode.record disk f)) ∨
    inode.rest disk offset = [] ∧ inode.rest disk 0 = f::inode.rest disk (f + deLength (inode.record disk f))

theorem readdirReached (lba : inode.lba + inode.blocks ≤ 2^32) (size : inode.blocks*blockSize ≤ 2^32) {turns offset : Nat}
    {s s' : Session} {data : Option Nat} {f p : Nat} (small : offset < 2^32) (holding : Holding disk inode n offset s data)
    (ok : readdirLoop disk inode turns s data offset = some (s',f,some p)) : Reached disk inode n offset s' f p := by
  induction turns generalizing offset s data with
  | zero => simp [readdirLoop] at ok
  | succ turns ih =>
    have part : offset &&& (blockSize - 1) = offset % blockSize := Nat.and_two_pow_sub_one_eq_mod offset blockShift
    have whole : offset >>> blockShift = offset / blockSize := Nat.shiftRight_eq_div_pow offset blockShift
    have positive : 0 < blockSize := by decide
    have within := Nat.mod_lt offset positive
    cases data with
    | none =>
      simp only [readdirLoop,whole] at ok
      by_cases over' : inode.blocks ≤ offset / blockSize
      · rw [if_pos over'] at ok
        simp at ok
      · have block : add32 inode.lba (offset / blockSize) = inode.lba + offset / blockSize := add32Eq (by omega)
        rw [if_neg over',block] at ok
        obtain ⟨e,pointer,got⟩ := freeGot holding (show inode.lba + offset / blockSize < noBlock by unfold noBlock; omega)
        rw [pointer] at ok
        have holding : Holding disk inode n offset (s.get disk (inode.lba + offset / blockSize)) (some (place blockShift e)) :=
          ⟨e,rfl,by omega,got⟩
        exact ih small holding ok
    | some data =>
      obtain ⟨e,rfl,less,stays⟩ := holding
      simp only [readdirLoop,part] at ok
      have split : offset / blockSize*blockSize + offset % blockSize = offset := Nat.div_add_mod' offset blockSize
      have here := restAt disk inode less (Nat.le_of_lt within)
      rw [split] at here
      have free : ∀ o, Holding disk inode n o s none := fun _ => stayingFree (stays ∅)
      by_cases lies : Lies disk (inode.lba + offset / blockSize) (offset % blockSize)
      · rw [if_neg (fun h => (endStay (Nat.le_of_lt within) (stays ∅)).mp h lies)] at ok
        cases ok
        refine ⟨small,less,lies,⟨e,rfl,stays⟩,Or.inl ?_⟩
        have later := restAt disk inode less lies.fits
        rw [← Nat.add_assoc,split] at later
        rw [here,recordsFromLies lies,List.map_cons,split]
        exact congrArg _ later.symm
      · rw [if_pos ((endStay (Nat.le_of_lt within) (stays ∅)).mpr lies),nextBlock small] at ok
        rw [recordsFromNone lies,List.map_nil,List.nil_append] at here
        by_cases inside : (offset / blockSize + 1)*blockSize < 2^32
        · rw [if_pos inside] at ok
          have reached := ih inside (free _) ok
          have next := reached.next
          rw [restBlock disk inode (show offset / blockSize + 1 ≤ inode.blocks from less),← here] at next
          exact ⟨reached.small,reached.block,reached.lies,reached.holds,next⟩
        · rw [if_neg inside] at ok
          have reached := ih (by norm_num) (free 0) ok
          -- the blocks are at an end, as the offset is
          have last : inode.blocks - (offset / blockSize + 1) = 0 := by
            unfold blockSize blockShift at inside size ⊢
            omega
          rw [last] at here
          refine ⟨reached.small,reached.block,reached.lies,reached.holds,Or.inr ⟨here,?_⟩⟩
          rcases reached.next with next | ⟨_,next⟩
          · exact next
          · exact next

theorem readableAll (steady : Steady disk sbi inode n) (ends : NamesEnd disk sbi inode) : ∃ fuel, ∀ i < inode.blocks,
    ∃ others, Readable disk sbi (inode.lba + i) n fuel others (inode.blockRecords disk i) := by
  -- the most that any of them needs
  have common : ∀ {α : Type} (xs : List α) (P : Nat → α → Prop), (∀ x fuel more, P fuel x → P (fuel + more) x) →
      (∀ x ∈ xs, ∃ fuel, P fuel x) → ∃ fuel, ∀ x ∈ xs, P fuel x := by
    intro α xs P more each
    induction xs with
    | nil => exact ⟨0,by simp⟩
    | cons x xs ih =>
      obtain ⟨first,here⟩ := each x List.mem_cons_self
      obtain ⟨rest,there⟩ := ih fun y mem => each y (List.mem_cons_of_mem x mem)
      refine ⟨first + rest,List.forall_mem_cons.mpr ⟨more x first rest here,fun y mem => ?_⟩⟩
      rw [Nat.add_comm]
      exact more y rest first (there y mem)
  have later : ∀ (i off fuel more : Nat),
      (∃ res, suspRrGetNm (diskReader disk) (record disk (inode.lba + i) off) sbi fuel () = some res) →
      ∃ res, suspRrGetNm (diskReader disk) (record disk (inode.lba + i) off) sbi (fuel + more) () = some res :=
    fun _ _ _ more ⟨res,ok⟩ => ⟨res,nmMore ok more⟩
  obtain ⟨fuel,all⟩ := common (List.range inode.blocks)
    (fun fuel i => ∀ off ∈ inode.blockRecords disk i,
      ∃ res, suspRrGetNm (diskReader disk) (record disk (inode.lba + i) off) sbi fuel () = some res)
    (fun i fuel more here off mem => later i off fuel more (here off mem))
    fun i mem => common _ _ (fun off fuel more => later i off fuel more) (ends i (List.mem_range.mp mem))
  refine ⟨fuel,fun i less => ?_⟩
  obtain ⟨others,few,inside⟩ := steady.records i less
  exact ⟨others,few,inside,all i (List.mem_range.mpr less)⟩

theorem readdirLists (steady : Steady disk sbi inode n) (size : inode.blocks*blockSize ≤ 2^32) {turns offset offset' : Nat}
    {s s' : Session} {l : Listed} (small : offset < 2^32) (free : Free disk n s)
    (sub : ∀ g ∈ inode.rest disk offset, g ∈ inode.rest disk 0)
    (ok : isoReaddir disk behind sbi inode fuel turns s offset = some (s',offset',some l)) :
    Free disk n s' ∧ l.dirent.dOff ∈ inode.rest disk 0 ∧
    NamedAs disk sbi (inode.lba + l.dirent.dOff / blockSize) (l.dirent.dOff % blockSize) l.rockRidge l.dirent.dName ∧
    ∃ after, after = l.dirent.dOff + deLength (inode.record disk l.dirent.dOff) ∧ after ≤ 2^32 ∧ offset' = after % 2^32 ∧
      (inode.rest disk offset = l.dirent.dOff::inode.rest disk after ∨
        inode.rest disk offset = [] ∧ inode.rest disk 0 = l.dirent.dOff::inode.rest disk after) := by
  unfold isoReaddir at ok
  cases loop : readdirLoop disk inode turns s none offset with
  | none => rw [loop] at ok; cases ok
  | some res =>
    obtain ⟨s₁,f,data⟩ := res
    rw [loop] at ok
    cases data with
    | none => simp at ok
    | some p =>
      have reached := readdirReached steady.lba size small (show Holding disk inode n offset s none from free) loop
      obtain ⟨e,rfl,stays⟩ := reached.holds
      have member : f ∈ inode.rest disk 0 := by
        rcases reached.next with next | ⟨_,next⟩
        · exact sub f (by rw [next]; exact List.mem_cons_self)
        · rw [next]; exact List.mem_cons_self
      obtain ⟨others,few,inside⟩ := steady.records _ reached.block
      have inside := inside _ (memRest member).2
      have like := nmStay behind fuel reached.lies few inside (stays others)
      simp only at ok
      cases cached : suspRrGetNm (cacheReader disk behind) (bytesAt s₁ (place blockShift e + f % blockSize)) sbi fuel s₁ with
      | none => rw [cached] at ok; cases ok
      | some res =>
        obtain ⟨s₂,ret,rrName⟩ := res
        rw [cached] at ok like
        generalize image : suspRrGetNm (diskReader disk) (record disk (inode.lba + f / blockSize) (f % blockSize)) sbi fuel () = nm
          at like
        cases like with
        | some both =>
          obtain ⟨same,stays'⟩ := both
          rename_i res₀
          obtain ⟨_,res₀⟩ := res₀
          simp only at same stays' ok
          subst same
          cases ok
          have fits := reached.lies.fits
          have header := reached.lies.header
          have length : deLength (bytesAt s' (place blockShift e + f % blockSize)) = deLength (inode.record disk f) := by
            unfold deLength
            rw [bytesStay stays' (by omega)]
            rfl
          have ends : f + deLength (inode.record disk f) ≤ 2^32 := by
            have block := reached.block
            have fits : f % blockSize + deLength (inode.record disk f) ≤ blockSize := fits
            unfold blockSize blockShift at size block fits
            omega
          refine ⟨stayingFree stays',member,⟨fuel,ret,rrName,image,rfl,?_⟩,_,rfl,ends,?_,reached.next⟩
          · by_cases rr : 0 < ret
            · rw [if_pos rr,if_pos rr]
            · rw [if_neg rr,if_neg rr]
              exact plainStay reached.lies inside stays' image (by omega)
          · rw [length]
            rfl

theorem runFree {blocks : List Nat} {s' : Session} (free : Free disk n s) (ok : run (step disk) s (blocks.map .get) = some s') :
    Free disk n s' := by
  obtain ⟨⟨lru,kept⟩,unlocked⟩ := free
  refine ⟨Cache.keptRun kept ok,?_⟩
  clear kept
  induction blocks generalizing s with
  | nil =>
    cases ok
    exact unlocked
  | cons block blocks ih =>
    rw [List.map_cons,run] at ok
    obtain ⟨s₁,got,rest⟩ := Option.bind_eq_some_iff.mp ok
    simp only [step] at got
    by_cases real : block < noBlock
    · rw [if_pos real] at got
      cases got
      exact ih rest unlocked
    · rw [if_neg real] at got
      cases got

/- The names that successive calls list are those of the records, in their order. -/
theorem callsList (steady : Steady disk sbi inode n) (size : inode.blocks*blockSize ≤ 2^32) {offset : Nat} {s s' : Session}
    {ls : List Listed} (small : offset < 2^32) (free : Free disk n s) (sub : ∀ g ∈ inode.rest disk offset, g ∈ inode.rest disk 0)
    (calls : Calls disk behind sbi inode s offset ls s') :
    Free disk n s' ∧
    (∀ l ∈ ls, l.dirent.dOff ∈ inode.rest disk 0 ∧
      NamedAs disk sbi (inode.lba + l.dirent.dOff / blockSize) (l.dirent.dOff % blockSize) l.rockRidge l.dirent.dName) ∧
    (ls.map (·.dirent.dOff) <+: inode.rest disk offset ∨ inode.rest disk offset <+: ls.map (·.dirent.dOff)) := by
  induction calls with
  | nil s offset => exact ⟨free,by simp,Or.inl List.nil_prefix⟩
  | next other call rest ih =>
    rename_i s s₁ s₂ s₃ offset offset' l ls blocks fuel turns
    obtain ⟨free',member,named,after,_,bound,rfl,next⟩ := readdirLists steady size small (runFree free other) sub call
    have sub' : ∀ g ∈ inode.rest disk after, g ∈ inode.rest disk 0 := by
      intro g mem
      rcases next with next | ⟨_,next⟩
      · exact sub g (by rw [next]; exact List.mem_cons_of_mem _ mem)
      · rw [next]; exact List.mem_cons_of_mem _ mem
    by_cases wrapped : after < 2^32
    · rw [Nat.mod_eq_of_lt wrapped] at ih
      obtain ⟨free'',all,order⟩ := ih wrapped free' sub'
      refine ⟨free'',List.forall_mem_cons.mpr ⟨⟨member,named⟩,all⟩,?_⟩
      rcases next with next | ⟨next,_⟩
      · rw [next,List.map_cons,List.cons_prefix_cons,List.cons_prefix_cons]
        exact order.imp (fun p => ⟨rfl,p⟩) fun p => ⟨rfl,p⟩
      · rw [next]
        exact Or.inr List.nil_prefix
    · -- behind the last of 2^32 bytes the listing starts again
      obtain rfl : after = 2^32 := by omega
      rw [Nat.mod_self] at ih
      obtain ⟨free'',all,_⟩ := ih (by norm_num) free' fun _ mem => mem
      have last : inode.rest disk (2^32) = [] := by
        unfold Inode.rest
        exact if_neg (by unfold blockSize blockShift at size ⊢; omega)
      refine ⟨free'',List.forall_mem_cons.mpr ⟨⟨member,named⟩,all⟩,Or.inr ?_⟩
      rcases next with next | ⟨next,_⟩
      · rw [next,last,List.map_cons,List.cons_prefix_cons]
        exact ⟨rfl,List.nil_prefix⟩
      · rw [next]
        exact List.nil_prefix

theorem initFree {start : Session} (disk : Nat → UInt8) (init : CacheInit start n) : Free disk n start := by
  obtain ⟨sizeofCache,dev,room,fits,rfl,entries⟩ := init
  obtain ⟨n',lru,kept⟩ := Cache.keptInit disk room fits
  obtain rfl : n' = n := kept.entries.symm.trans entries
  exact ⟨⟨lru,kept⟩,rfl⟩

theorem ownName {l : Listed} {block off : Nat} (named : NamedAs disk sbi block off l.rockRidge l.dirent.dName) : l.under l.name := by
  obtain ⟨_,ret,_,_,rr,name⟩ := named
  unfold Listed.under
  rw [rr]
  by_cases positive : 0 < ret
  · rw [decide_eq_true positive,if_pos rfl]
  · rw [if_neg positive] at name
    rw [decide_eq_false positive,if_neg Bool.false_ne_true,Listed.name,name,isoConvertPlain,isoConvertLower]

end

section
variable {disk : Nat → UInt8} {sbi : SbInfo} {n : Nat} {start : Session}

theorem inodeBlocks (de : Nat → UInt8) : (isoGetInode de).blocks*blockSize ≤ 2^32 := by
  have size := Susp.le32Small de 10
  simp only [isoGetInode,deSizeLe,Nat.shiftRight_eq_div_pow]
  unfold blockSize blockShift
  omega

/- On a steady directory lookup finds what is listed. -/
theorem listedFound (behind de : Nat → UInt8) (init : CacheInit start n) (ends : NamesEnd disk sbi (isoGetInode de))
    (steady : Steady disk sbi (isoGetInode de) n) : FindsListed disk behind sbi (isoGetInode de) start := by
  intro ls s s₁ blocks calls other k l atK
  have size := inodeBlocks de
  generalize isoGetInode de = inode at ends steady calls size ⊢
  obtain ⟨free,all,order⟩ := callsList steady size (by norm_num) (initFree disk init) (fun _ mem => mem) calls
  obtain ⟨member,named⟩ := all l (List.mem_of_getElem? atK)
  have underIff : ∀ l' ∈ ls, (l'.under l.name ↔ inode.under disk sbi l.name l'.dirent.dOff) := fun l' mem =>
    (underNamed (all l' mem).2).symm
  have own := (underIff l (List.mem_of_getElem? atK)).mp (ownName named)
  -- as far as both go, the calls list the records of the directory
  have agree : ∀ (m : Nat) (l' : Listed) g, ls[m]? = some l' → (inode.rest disk 0)[m]? = some g → l'.dirent.dOff = g := by
    intro m l' g atM atG
    have listed : (ls.map (·.dirent.dOff))[m]? = some l'.dirent.dOff := by rw [List.getElem?_map,atM]; rfl
    rcases order with ⟨t,eq⟩ | ⟨t,eq⟩
    · rw [← eq,List.getElem?_append_left (List.getElem?_eq_some_iff.mp listed).1,listed] at atG
      exact Option.some.inj atG
    · rw [← eq,List.getElem?_append_left (List.getElem?_eq_some_iff.mp atG).1,atG] at listed
      exact (Option.some.inj listed).symm
  obtain ⟨fuel,readable⟩ := readableAll steady ends
  have whole := restBlock disk inode (Nat.zero_le _)
  rw [Nat.zero_mul,Nat.sub_zero] at whole
  have lba := steady.lba
  have plain : ∀ c ∈ l.name, c ≠ 0 := cstrBytes
  rcases findLater behind inode plain
      (show inode.lba + inode.blocks ≤ noBlock by unfold noBlock; omega) readable inode.blocks 0 (Nat.zero_add _) 0
      (runFree free other) with
    ⟨pre,f,post,split,before,under,turns,s₂,e,others,stays,lies,found⟩ | ⟨none',_⟩
  · rw [← whole] at split
    have fromPre : ∀ (m : Nat) (l' : Listed), m < pre.length → ls[m]? = some l' → ¬ l'.under l.name := by
      intro m l' less atM h
      have here : (inode.rest disk 0)[m]? = some pre[m] := by
        rw [split,List.getElem?_append_left less,List.getElem?_eq_getElem]
      have same := agree m l' _ atM here
      have h := (underIff l' (List.mem_of_getElem? atM)).mp h
      rw [same] at h
      exact before _ (List.getElem_mem less) h
    have le : pre.length ≤ k := by
      by_contra less
      exact fromPre k l (by omega) atK (ownName named)
    obtain ⟨bound,_⟩ := List.getElem?_eq_some_iff.mp atK
    obtain ⟨l',atJ⟩ : ∃ l', ls[pre.length]? = some l' := ⟨_,List.getElem?_eq_getElem (by omega)⟩
    obtain rfl := agree pre.length l' f atJ (by rw [split]; simp)
    refine ⟨fuel,turns,s₂,_,found,pre.length,l',le,atJ,?_,fun m less l'' atM => fromPre m l'' less atM,?_⟩
    · exact (underIff l' (List.mem_of_getElem? atJ)).mpr under
    · intro m less
      have fits := lies.fits
      exact bytesStay stays (by unfold Inode.record at less; omega)
  · exact absurd own (none' _ (by rw [← whole]; exact member))

end

section
variable {disk behind : Nat → UInt8} {sbi : SbInfo} {inode : Inode} {fuel : Nat} {dname : Bytes}

/- More fuel and more turns than are needed make no difference. -/
theorem findMore {turns : Nat} {s : Session} {data : Option Nat} {i offset dirBlock : Nat} {res : Session × Option Nat}
    (ok : findLoop disk behind sbi inode fuel dname turns s data i offset dirBlock = some res) (more more' : Nat) :
    findLoop disk behind sbi inode (fuel + more) dname (turns + more') s data i offset dirBlock = some res := by
  induction turns generalizing s data i offset dirBlock with
  | zero => simp [findLoop] at ok
  | succ turns ih =>
    rw [show turns + 1 + more' = turns + more' + 1 by omega]
    cases data with
    | none =>
      simp only [findLoop] at ok ⊢
      by_cases over' : inode.blocks < i + 1
      · rw [if_pos over'] at ok ⊢
        exact ok
      · rw [if_neg over'] at ok ⊢
        exact ih ok
    | some data =>
      simp only [findLoop] at ok ⊢
      generalize deLength (bytesAt s (data + offset)) = len at ok ⊢
      by_cases end' : len < 33 ∨ blockSize < offset + len
      · rw [if_pos end'] at ok ⊢
        exact ih ok
      rw [if_neg end'] at ok ⊢
      cases nm : suspRrGetNm (cacheReader disk behind) (bytesAt s (data + offset)) sbi fuel s with
      | none => rw [nm] at ok; cases ok
      | some named =>
        rw [nm] at ok
        rw [nmMore nm more]
        obtain ⟨s',ret,rrName⟩ := named
        simp only at ok ⊢
        split_ifs at ok ⊢
        · exact ok
        · exact ih ok
        · exact ok
        · exact ih ok

theorem findOnly {fuel' turns turns' : Nat} {s : Session} {res res' : Session × Option Nat}
    (ok : isoFindEntry disk behind sbi inode fuel dname turns s = some res)
    (ok' : isoFindEntry disk behind sbi inode fuel' dname turns' s = some res') : res = res' := by
  have first := findMore ok fuel' turns'
  rw [Nat.add_comm fuel,Nat.add_comm turns,findMore ok' fuel turns] at first
  exact (Option.some.inj first).symm

end

theorem nmOff (disk de : Nat → UInt8) (suspSkip fuel : Nat) :
    suspRrGetNm (diskReader disk) de ⟨0,suspSkip⟩ fuel () = some ((),0,none) := rfl

theorem namesEndOff (disk : Nat → UInt8) (suspSkip : Nat) (inode : Inode) : NamesEnd disk ⟨0,suspSkip⟩ inode :=
  fun _ _ _ _ => ⟨0,_,nmOff _ _ _ _⟩

def emptyCache : Session := opened 20 ⟨0,0,0,128*1024,⟨id,id⟩,id,fun _ => none,fun _ => 0⟩ blockShift

theorem emptyInit : CacheInit emptyCache 63 :=
  ⟨20,⟨0,0,0,128*1024,⟨id,id⟩,id,fun _ => none,fun _ => 0⟩,by decide,⟨by decide,by decide⟩,rfl,by decide⟩

/- A record of 34 bytes with a name of one letter, at the start of block b. -/
def oneRecord (b i : Nat) : UInt8 :=
  if i = b*2048 then 34 else if i = b*2048 + 32 then 1 else if i = b*2048 + 33 then 0x41 else 0

theorem oneRecordLies (b : Nat) : Lies (oneRecord b) b 0 := by
  have length : deLength (record (oneRecord b) b 0) = 34 := by simp [deLength,record,diskBlock,oneRecord]
  exact ⟨by omega,by rw [length]; decide⟩

theorem oneRecordOther {b c off : Nat} (other : c ≠ b ∨ off = 34) : ¬ Lies (oneRecord b) c off := by
  rintro ⟨header,_⟩
  have zero : deLength (record (oneRecord b) c off) = 0 := by
    unfold deLength record diskBlock oneRecord
    split_ifs <;> first | rfl | omega
  omega

/- A directory of one block, block 16, with that record. -/
def smallDir (i : Nat) : UInt8 := if i = 2 then 16 else if i = 11 then 8 else if i = 25 then 2 else 0

/- In block 16 the record of a file with the Rock Ridge name "alpha", and one of a file without. -/
def namesBlock : List UInt8 :=
  [44] ++ List.replicate 31 0 ++ [1,0x41,0x4e,0x4d,10,1,0,97,108,112,104,97,34] ++ List.replicate 31 0 ++ [1,0x42]
def namesDisk (i : Nat) : UInt8 := if i < 16*2048 then 0 else namesBlock.getD (i - 16*2048) 0

theorem namesRecords : (isoGetInode smallDir).blockRecords namesDisk 0 = [0,44] := by
  have first : Lies namesDisk 16 0 := ⟨by decide,by decide⟩
  have second : Lies namesDisk 16 44 := ⟨by decide,by decide⟩
  have last : ¬ Lies namesDisk 16 78 := fun lies => absurd lies.header (by decide)
  rw [show (isoGetInode smallDir).blockRecords namesDisk 0 = recordsFrom (diskBlock namesDisk 16) 0 from rfl,recordsFromLies first,
    show 0 + deLength (record namesDisk 16 0) = 44 by decide,recordsFromLies second,
    show 44 + deLength (record namesDisk 16 44) = 78 by decide,recordsFromNone last]

set_option maxRecDepth 8000 in
theorem listedFoundNames : FindsListed namesDisk (fun _ => 0) ⟨1,0⟩ (isoGetInode smallDir) emptyCache := by
  have inode : isoGetInode smallDir = ⟨.dir,2048,16,1⟩ := by decide
  have records : ∀ i < (isoGetInode smallDir).blocks, ∀ off ∈ (isoGetInode smallDir).blockRecords namesDisk i,
      i = 0 ∧ (off = 0 ∨ off = 44) := by
    intro i less off mem
    obtain rfl : i = 0 := by rw [inode] at less; simpa using less
    rw [namesRecords] at mem
    simpa using mem
  refine listedFound (fun _ => 0) smallDir emptyInit (fun i less off mem => ?_) ⟨?_,fun i less => ⟨∅,by simp,fun off mem => ?_⟩⟩
  · obtain ⟨rfl,rfl | rfl⟩ := records i less off mem
    · exact ⟨1,_,rfl⟩
    · exact ⟨1,_,rfl⟩
  · rw [inode]
    decide
  obtain ⟨rfl,rfl | rfl⟩ := records i less off mem
  · refine ⟨fun it _ new k at' state => ?_,fun fuel ret rrName named plain => ?_⟩
    · cases new
      cases k with
      | zero =>
        cases state
        refine ⟨fun _ => (by decide : 34 + 4 ≤ 2048),fun pos next found => ?_⟩
        cases found
        exact ⟨(by decide : 34 + 10 ≤ 2048),by simp⟩
      | succ k =>
        -- The NM entry is all of the name: there is no second turn.
        have over' := Walk.noneLater (n := 1) (m := k + 1) (rfl : Walk.state (Susp.turn (diskReader namesDisk) (record namesDisk 16 0)
          (0x4e,0x4d) true) (⟨false,[],34,44,0,0,0,0,44⟩,0) 1 = none) (by omega)
        exact absurd (over'.symm.trans state) (by simp)
    · rw [inode]
      decide
  · refine ⟨fun it _ new => ?_,fun fuel ret rrName _ _ => ?_⟩
    · cases new
    · rw [inode]
      decide

/- A directory of two blocks, the last one with a number of 32 bits and the one behind it. -/
def lastDir (i : Nat) : UInt8 := if 2 ≤ i ∧ i < 6 then 0xff else if i = 11 then 16 else if i = 25 then 2 else 0

def lastInode : Inode := ⟨.dir,4096,2^32 - 1,2⟩

theorem wrappedCall {disk : Nat → UInt8} {n : Nat} {s : Session} (free : Free disk n s) (empty : ¬ Lies disk (2^32 - 1) 0)
    (lies : Lies disk 0 0) : ∃ s' e, (∀ others, Staying disk n others 0 e s') ∧
      readdirLoop disk lastInode 4 s none 0 = some (s',2048,some (place blockShift e)) := by
  obtain ⟨e,pointer,got⟩ := freeGot free (show 2^32 - 1 < noBlock by decide)
  generalize first : s.get disk (2^32 - 1) = s₁ at got
  obtain ⟨e',pointer',got'⟩ := freeGot (stayingFree (got ∅)) (show 0 < noBlock by decide)
  refine ⟨s₁.get disk 0,e',got',?_⟩
  have stop := (endStay (Nat.zero_le _) (got ∅)).mpr empty
  have here := mt (endStay (Nat.zero_le _) (got' ∅)).mp (not_not.mpr lies)
  have block : add32 lastInode.lba (0 >>> blockShift) = 2^32 - 1 := by decide
  have wrapped : add32 lastInode.lba (2048 >>> blockShift) = 0 := by decide
  have next : Align.alignDown (add32 0 blockSize) blockSize = 2048 := by decide
  have within : ¬ lastInode.blocks ≤ 0 >>> blockShift := by decide
  have within' : ¬ lastInode.blocks ≤ 2048 >>> blockShift := by decide
  have start : 0 &&& (blockSize - 1) = 0 := by decide
  have start' : 2048 &&& (blockSize - 1) = 0 := by decide
  rw [Nat.add_zero] at stop here
  simp only [readdirLoop,block,within,if_false,pointer,Option.getD_some,first,start,Nat.add_zero,stop,if_true,next,within',
    wrapped,pointer',start',here]

/- iso_readdir lists the record of block 0; iso_find_entry looks for it in block 2^32. -/
theorem wrappedMissed : ¬ ∀ (disk behind de : Nat → UInt8) (sbi : SbInfo) (n : Nat) (start : Session), CacheInit start n →
    NamesEnd disk sbi (isoGetInode de) → FindsListed disk behind sbi (isoGetInode de) start := by
  intro claim
  have inode : isoGetInode lastDir = lastInode := by decide
  have finds := claim (oneRecord 0) (fun _ => 0) lastDir ⟨0,0⟩ 63 emptyCache emptyInit (namesEndOff _ 0 _)
  rw [inode] at finds
  have free := initFree (oneRecord 0) emptyInit
  generalize emptyCache = s at finds free
  obtain ⟨s',e,got,loop⟩ := wrappedCall free (oneRecordOther (Or.inl (by norm_num))) (oneRecordLies 0)
  have inside : Inside (oneRecord 0) ⟨0,0⟩ 0 0 ∅ := ⟨fun it on => absurd rfl on,fun fuel ret rrName _ _ => by decide⟩
  have plain := plainStay (oneRecordLies 0) inside (got ∅) (nmOff _ _ 0 0) (Int.le_refl 0)
  rw [show isoConvertName (deName (record (oneRecord 0) 0 0)) (deNameLen (record (oneRecord 0) 0 0)) = [0x61] by decide,
    Nat.add_zero] at plain
  obtain ⟨offset',l,call,name⟩ : ∃ offset' l,
      isoReaddir (oneRecord 0) (fun _ => 0) ⟨0,0⟩ lastInode 0 4 s 0 = some (s',offset',some l) ∧ l.name = [0x61] := by
    unfold isoReaddir
    rw [loop]
    refine ⟨_,_,rfl,?_⟩
    unfold Listed.name
    simp only [lt_irrefl,if_false,plain]
    decide
  have calls : Calls (oneRecord 0) (fun _ => 0) ⟨0,0⟩ lastInode s 0 [l] s' :=
    .next (show run (step (oneRecord 0)) s (([] : List Nat).map Event.get) = some s from rfl) call (.nil _ _)
  obtain ⟨fuel,turns,s₂,p,found,_⟩ := finds [l] s' s' [] calls rfl 0 l rfl
  rw [name] at found
  -- the lookup walks over two blocks without a record
  have lba : lastInode.lba = 2^32 - 1 := rfl
  have none' : ∀ i < 2, lastInode.blockRecords (oneRecord 0) i = [] := fun i _ =>
    recordsFromNone (oneRecordOther (Or.inl (by rw [lba]; omega)))
  have readable : ∀ i < 2, ∃ others,
      Readable (oneRecord 0) ⟨0,0⟩ (lastInode.lba + i) 63 0 others (lastInode.blockRecords (oneRecord 0) i) := by
    intro i less
    rw [none' i less]
    exact ⟨∅,by simp,by simp,by simp⟩
  have plain' : ∀ c ∈ ([0x61] : Bytes), c ≠ 0 := by
    intro c member
    rw [List.mem_singleton.mp member]
    decide
  rcases findLater (fun _ => 0) lastInode plain' (by decide) readable 2 0 rfl 0 (stayingFree (got ∅)) with
    ⟨pre,f,post,split,_⟩ | ⟨_,turns',s'',missed⟩
  · rw [Inode.later,Inode.later,Inode.later,none' 0 (by norm_num),none' 1 (by norm_num)] at split
    simp at split
  · cases findOnly found missed

end Syslinux.Iso
