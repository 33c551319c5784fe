import Syslinux.PartiterDos

/-! The entries of a GPT partition list that the iterator reports, and where they lie under PIF_STRICT. -/
namespace Syslinux.Partiter
open Iterators

def listedEntry (u : Gpt) (data : Buffer) (i : Int) : Entry :=
  ⟨i + 1,lbaFirst data (gptEntry u i),(lbaLast data (gptEntry u i) + 2^64 - lbaFirst data (gptEntry u i) + 1) % 2^64,guid data (gptEntry u i)⟩

/- Not stopped at: the iterator comes to the i-th entry from the one it stands at, and does not stop with PI_INSANE. -/
def ComesTo (f : Flags) (u : Gpt) (data : Buffer) (index0 i : Int) : Prop :=
  index0 < i ∧ i < u.peCount ∧ ∀ j, index0 < j → j ≤ i → notsaneGpt f data u j = none

structure Usable (u : Gpt) (e : Entry) : Prop where
  some' : 1 ≤ e.length
  first : u.ufirst ≤ e.absLba
  last : e.absLba + (e.length - 1) ≤ u.ulast

section
variable {d : Disk} {f : Flags} {data : Buffer} {u : Gpt} {i index0 : Int}

theorem Runs.unique {C E S : Type} {next : C → Option (Answer C E S)} {c : C} {es es' : List E} {s s' : S}
    (one : Runs next c es s) (other : Runs next c es' s') : es = es' ∧ s = s' := by
  induction one generalizing es' s' with
  | stop here =>
    cases other with
    | stop there =>
      cases here.symm.trans there
      exact ⟨rfl,rfl⟩
    | more there _ => cases here.symm.trans there
  | more here _ ih =>
    cases other with
    | stop there => cases here.symm.trans there
    | more there later =>
      cases here.symm.trans there
      obtain ⟨rfl,rfl⟩ := ih later
      exact ⟨rfl,rfl⟩

theorem comesFirst (more : index0 + 1 < u.peCount) (sane : notsaneGpt f data u (index0 + 1) = none) :
    ComesTo f u data index0 i ↔ i = index0 + 1 ∨ ComesTo f u data (index0 + 1) i := by
  constructor
  · rintro ⟨behind,inside,all⟩
    by_cases first : i = index0 + 1
    · exact Or.inl first
    · exact Or.inr ⟨by omega,inside,fun j low high => all j (by omega) high⟩
  · rintro (rfl | ⟨behind,inside,all⟩)
    · exact ⟨by omega,more,fun j low high => (by omega : j = index0 + 1) ▸ sane⟩
    · refine ⟨by omega,inside,fun j low high => ?_⟩
      by_cases first : j = index0 + 1
      · exact first ▸ sane
      · exact all j (by omega) high

theorem comesNot (insane : notsaneGpt f data u (index0 + 1) ≠ none) : ¬ ComesTo f u data index0 i :=
  fun comes => insane (comes.2.2 _ (by omega) (by have := comes.1; omega))

/- With PIF_STEPALL each entry is reported that the iterator comes to. -/
theorem allListed {it : PartIter Gpt GptPart} (all : it.flags.stepall = true) (inv : GptInv it.toCursor) (loaded : it.data = some data) :
    ∃ entries status, Runs (advance d) (.typegpt it) entries status ∧
      ∀ e, e ∈ entries ↔ ∃ i, ComesTo it.flags it.u data it.index0 i ∧ e = listedEntry it.u data i := by
  induction left : (it.u.peCount - it.index0).toNat using Nat.strong_induction_on generalizing it with
  | _ n ih =>
    by_cases last : it.index0 + 1 = it.u.peCount
    · refine ⟨[],_,.stop (advanceOver inv.status (gptLoopOver last) inv.status rfl),fun e => ?_⟩
      refine iff_of_false List.not_mem_nil ?_
      rintro ⟨i,comes,_⟩
      have := comes.1
      have := comes.2.1
      omega
    have under := inv.under
    have turn := gptLoopTurn (f := it.flags) (by omega : it.index0 + 1 < it.u.peCount) loaded none
    cases sane : notsaneGpt it.flags data it.u (it.index0 + 1) with
    | some text =>
      rw [sane] at turn
      refine ⟨[],_,.stop (advanceInsane inv.status turn (by simp [Cursor.error])),fun e => ?_⟩
      refine iff_of_false List.not_mem_nil ?_
      rintro ⟨i,comes,_⟩
      exact comesNot (by simp [sane]) comes
    | none =>
      simp only [sane,all,Bool.or_true,if_true] at turn
      have inv' : GptInv { it.toCursor with index0 := it.index0 + 1 } := ⟨inv.status,inv.data,by show it.index0 + 1 < it.u.peCount; omega⟩
      obtain ⟨entries,status,runs,listed⟩ := @ih _ (by simp only [gptReach]; omega)
        (gptReach it { it.toCursor with index0 := it.index0 + 1 } data (gptEntry it.u (it.index0 + 1))) all inv' loaded rfl
      refine ⟨_,status,.more (advanceGpt inv.status turn inv.status inv'.under loaded) runs,fun e => ?_⟩
      have first : gptPartEntry { it.toCursor with index0 := it.index0 + 1 } data (gptEntry it.u (it.index0 + 1)) = listedEntry it.u data (it.index0 + 1) := rfl
      rw [List.mem_cons,listed,first]
      simp only [comesFirst (by omega : it.index0 + 1 < it.u.peCount) sane,or_and_right,exists_or,exists_eq_left]
      rfl

theorem gptListed {it : PartIter Gpt GptPart} (inv : GptInv it.toCursor) (loaded : it.data = some data) :
    ∃ entries status, Runs (advance d) (.typegpt it) entries status ∧
      ∀ e, (e ∈ entries ∧ e.isData = true) ↔ ∃ i, ComesTo it.flags it.u data it.index0 i ∧ e = listedEntry it.u data i ∧ e.isData = true := by
  obtain ⟨entries,status,runs,listed⟩ := @allListed d data { it with flags := it.flags.all } rfl inv loaded
  have comes {i : Int} : ComesTo it.flags.all it.u data it.index0 i = ComesTo it.flags it.u data it.index0 i := rfl
  have same (e : Entry) : (e ∈ entries ∧ e.isData = true) ↔ ∃ i, ComesTo it.flags it.u data it.index0 i ∧ e = listedEntry it.u data i ∧ e.isData = true := by
    rw [listed]
    constructor
    · rintro ⟨⟨i,here,eq⟩,isData⟩
      exact ⟨i,here,eq,isData⟩
    · rintro ⟨i,here,eq,isData⟩
      exact ⟨⟨i,here,eq⟩,isData⟩
  cases every : it.flags.stepall
  · have plain : it.flags = it.flags.plain := by rw [Flags.plain,← every]
    obtain ⟨entries',status',runs',plainRuns⟩ := gptRuns (d := d) (.mk rfl plain rfl inv :
      GptPair it.flags (.typegpt { it with flags := it.flags.all }) (.typegpt it))
    obtain ⟨rfl,rfl⟩ := Runs.unique runs runs'
    refine ⟨_,_,plainRuns,fun e => ?_⟩
    rw [List.mem_filter,and_assoc,and_self,same]
  · have all : it.flags = it.flags.all := by rw [Flags.all,← every]
    refine ⟨entries,status,?_,same⟩
    rwa [← all] at runs

/- Where pi_begin looks for a GPT: behind a protective MBR. -/
def Protective (d : Disk) (f : Flags) (mbr : Buffer) : Prop :=
  d.malloc .partIter = true ∧ diskReadSectors d 0 1 = some mbr ∧ le mbr 510 2 = 0xAA55 ∧
    ((List.range 4).any (fun i => ostype mbr (tableEntry i) == 0xEE) && !f.prefmbr) = true

/- The header of a GPT v1.0, with sane values. -/
def Header (d : Disk) (f : Flags) (gpth : Buffer) : Prop :=
  gptRev gpth = 0x00010000 ∧ gptSig gpth = diskGptSigMagic ∧ notsaneGptHdr d gpth f = false

def gptOf (gpth : Buffer) : Gpt :=
  { diskGuid := headerGuid gpth, peCount := toInt (partCount gpth), peSize := toInt (partSize gpth),
    ufirst := lbaFirstUsable gpth, ulast := lbaLastUsable gpth }

theorem piBeginGpt {it : PartIter Gpt GptPart} (begun : (piBegin d f).1 = some (.typegpt it)) : ∃ mbr gpth gptl said,
    Protective d f mbr ∧ (findGptHdr d true).1 = some (some gpth) ∧ Header d f gpth ∧ (findGptList d gpth).1 = some gptl ∧
      d.malloc (.list (gptLsiz gpth % 2^32)) = true ∧ it = piCtor d f (gptOf gpth) ⟨headerGuid gpth,List.replicate 37 0⟩ (some gptl) said := by
  have notDos {mbr : Buffer} {said : List String} (made : (piDosCtor d f mbr said).1 = some (.typegpt it)) : False := by
    unfold piDosCtor at made
    split at made <;> cases made
  unfold piBegin at begun
  split at begun
  · cases begun
  rename_i memory
  split at begun
  · cases begun
  rename_i mbr read
  split at begun
  · cases begun
  rename_i magic
  simp only at begun
  cases isgpt : (List.range 4).any (fun i => ostype mbr (tableEntry i) == 0xEE) && !f.prefmbr with
  | false =>
    rw [isgpt] at begun
    exact (notDos begun).elim
  | true =>
    rw [isgpt] at begun
    split at begun
    · cases begun
    rename_i header said found
    split at begun
    · exact (notDos begun).elim
    rename_i gpth
    split at begun
    case isFalse => exact (notDos begun).elim
    rename_i version
    split at begun
    · cases begun
    rename_i sane
    split at begun
    · cases begun
    rename_i gptl more listed
    unfold piGptCtor at begun
    split at begun
    · cases begun
    rename_i room
    refine ⟨mbr,gpth,gptl,said ++ more,⟨by simpa using memory,read,not_not.mp magic,isgpt⟩,by rw [found],⟨version.1,version.2,by simpa using sane⟩,
      by rw [listed],by simpa using room,?_⟩
    cases begun
    rfl

theorem piBeginList {mbr gpth gptl : Buffer} {said : List String} (protective : Protective d f mbr)
    (found : findGptHdr d true = (some (some gpth),said)) (header : Header d f gpth) (accepted : (findGptList d gpth).1 = some gptl)
    (room : d.malloc (.list (gptLsiz gpth % 2^32)) = true) : (piBegin d f).1 =
      some (.typegpt (piCtor d f (gptOf gpth) ⟨headerGuid gpth,List.replicate 37 0⟩ (some gptl) (said ++ (findGptList d gpth).2))) := by
  generalize listed : findGptList d gpth = list at accepted ⊢
  obtain ⟨_,more⟩ := list
  cases accepted
  obtain ⟨memory,read,magic,isgpt⟩ := protective
  obtain ⟨version,signature,sane⟩ := header
  unfold piBegin
  simp only [memory,read,magic,isgpt,found,version,signature,sane,listed,piGptCtor,room,Bool.not_true,Bool.false_eq_true,if_false,
    ne_eq,not_true_eq_false,and_self,if_true]
  rfl

theorem sectorSizeSmall {mbr : Buffer} (read : diskReadSectors d 0 1 = some mbr) : 1 ≤ d.bps ∧ d.bps ≤ 32768 := by
  unfold diskReadSectors at read
  simp only at read
  split at read
  · cases read
  rename_i fits
  have turns : 1 ≤ (65536 - d.bps) / d.bps := by omega
  have some' : 0 < d.bps := by
    refine Nat.pos_of_ne_zero fun zero => ?_
    rw [zero,Nat.div_zero] at turns
    exact absurd turns (by decide)
  rw [Nat.le_div_iff_mul_le some'] at turns
  omega

theorem partSmall (gpth : Buffer) : partSize gpth < 2^32 ∧ partCount gpth < 2^32 := ⟨leSmall gpth 84 4,leSmall gpth 80 4⟩

theorem gptLsizEq (gpth : Buffer) : gptLsiz gpth = partSize gpth*partCount gpth := by
  obtain ⟨size,count⟩ := partSmall gpth
  have product : partSize gpth*partCount gpth ≤ (2^32 - 1)*(2^32 - 1) := Nat.mul_le_mul (by omega) (by omega)
  exact Nat.mod_eq_of_lt (by omega)

theorem gptLcntEq (gpth : Buffer) (small : 1 ≤ d.bps ∧ d.bps ≤ 32768) : gptLcnt d gpth = (gptLsiz gpth + (d.bps - 1)) / d.bps := by
  obtain ⟨size,count⟩ := partSmall gpth
  have product : partSize gpth*partCount gpth ≤ (2^32 - 1)*(2^32 - 1) := Nat.mul_le_mul (by omega) (by omega)
  have sum : (gptLsiz gpth + d.bps + 2^64 - 1) % 2^64 = gptLsiz gpth + (d.bps - 1) := by
    rw [gptLsizEq]
    omega
  rw [gptLcnt,sum]

theorem gptLsizFits (gpth : Buffer) (small : 1 ≤ d.bps ∧ d.bps ≤ 32768) : gptLsiz gpth ≤ gptLcnt d gpth*d.bps := by
  rw [gptLcntEq gpth small]
  have := Nat.div_add_mod (gptLsiz gpth + (d.bps - 1)) d.bps
  have := Nat.mod_lt (gptLsiz gpth + (d.bps - 1)) (show 0 < d.bps by omega)
  rw [Nat.mul_comm]
  omega

theorem strictHeader {gpth : Buffer} (strict : f.strict = true) (sane : notsaneGptHdr d gpth f = false) :
    gptLcnt d gpth ≤ 255 ∧ gptLsiz gpth ≠ 0 ∧ 128 ≤ partSize gpth ∧ ¬ (lbaFirstUsable gpth = 0 ∧ lbaLastUsable gpth = 2^64 - 1) := by
  unfold notsaneGptHdr at sane
  simp only [strict,Bool.not_true,Bool.false_eq_true,if_false,decide_eq_false_iff_not,not_or] at sane
  obtain ⟨loff,lsiz,lcnt,_,wraps,apart,_,_,size⟩ := sane
  have table : lbaTable gpth < 2^64 := leSmall gpth 72 8
  refine ⟨by omega,lsiz,by omega,?_⟩
  rintro ⟨zero,full⟩
  have noWrap : lbaTable gpth < (lbaTable gpth + gptLcnt d gpth) % 2^64 := by simpa [sane64] using wraps
  omega

theorem toIntSmall {n : Nat} (small : n < 2^31) : toInt n = n := by
  unfold toInt
  rw [Int.bmod_def]
  omega

theorem gptOfCount (gpth : Buffer) : (gptOf gpth).peCount = toInt (partCount gpth) := by simp only [gptOf]

theorem strictCount {gpth : Buffer} (small : 1 ≤ d.bps ∧ d.bps ≤ 32768) (lcnt : gptLcnt d gpth ≤ 255) (size : 128 ≤ partSize gpth) :
    (gptOf gpth).peCount = partCount gpth := by
  have fits := gptLsizFits gpth small
  rw [gptLsizEq] at fits
  have sectors : gptLcnt d gpth*d.bps ≤ 255*32768 := Nat.mul_le_mul lcnt small.2
  have entries : 128*partCount gpth ≤ partSize gpth*partCount gpth := Nat.mul_le_mul_right _ size
  have less : partCount gpth < 2^31 := by omega
  exact (gptOfCount gpth).trans (toIntSmall less)

theorem strictBegun {it : PartIter Gpt GptPart} (strict : f.strict = true) (begun : (piBegin d f).1 = some (.typegpt it)) :
    GptInv it.toCursor ∧ it.flags = f ∧ it.index0 = -1 ∧ it.u.ulast < 2^64 ∧ ¬ (it.u.ufirst = 0 ∧ it.u.ulast = 2^64 - 1) := by
  obtain ⟨mbr,gpth,gptl,said,protective,_,header,_,_,rfl⟩ := piBeginGpt begun
  have small := sectorSizeSmall protective.2.1
  obtain ⟨lcnt,_,size,usable⟩ := strictHeader strict header.2.2
  have count := strictCount small lcnt size
  have low : (gptOf gpth).ulast < 2^64 := leSmall gpth 48 8
  have inv : GptInv (piCtor d f (gptOf gpth) (⟨headerGuid gpth,List.replicate 37 0⟩ : GptPart) (some gptl) said).toCursor := by
    constructor
    · simp [piCtor]
    · simp [piCtor]
    · simp only [piCtor]
      omega
  exact ⟨inv,rfl,rfl,low,usable⟩

theorem usableIff (low : u.ulast < 2^64) (some' : ¬ (u.ufirst = 0 ∧ u.ulast = 2^64 - 1)) (first : u.ufirst ≤ lbaFirst data (gptEntry u i))
    (last : lbaLast data (gptEntry u i) ≤ u.ulast) :
    Usable u (listedEntry u data i) ↔ lbaFirst data (gptEntry u i) ≤ lbaLast data (gptEntry u i) := by
  have firstLow : lbaFirst data (gptEntry u i) < 2^64 := leSmall data (gptEntry u i + 32) 8
  constructor
  · rintro ⟨some',_,inside⟩
    simp only [listedEntry] at some' inside
    omega
  · intro ordered
    refine ⟨?_,first,?_⟩ <;> simp only [listedEntry] <;> omega

theorem saneRange (strict : f.strict = true) (sane : notsaneGpt f data u i = none) (some' : guidIs0 data (gptEntry u i) = false) :
    u.ufirst ≤ lbaFirst data (gptEntry u i) ∧ lbaLast data (gptEntry u i) ≤ u.ulast := by
  unfold notsaneGpt at sane
  simp only [some',strict,Bool.not_true,Bool.false_eq_true,if_false,ite_eq_right_iff,reduceCtorEq,imp_false,not_or] at sane
  omega

theorem gptUsableIff {it : PartIter Gpt GptPart} (strict : f.strict = true) (begun : (piBegin d f).1 = some (.typegpt it))
    (loaded : it.data = some data) : ∃ entries status, Runs (advance d) (.typegpt it) entries status ∧
      ((∀ e ∈ entries, e.isData = true → Usable it.u e) ↔
        ∀ i : Int, 0 ≤ i → i < it.u.peCount → (∀ j, 0 ≤ j → j ≤ i → notsaneGpt f data it.u j = none) →
          guidIs0 data (gptEntry it.u i) = false → lbaFirst data (gptEntry it.u i) ≤ lbaLast data (gptEntry it.u i)) := by
  obtain ⟨inv,flags,index,low,usable⟩ := strictBegun strict begun
  obtain ⟨entries,status,runs,listed⟩ := @gptListed d data it inv loaded
  rw [flags,index] at listed
  refine ⟨entries,status,runs,?_⟩
  have kind (i : Int) : (listedEntry it.u data i).isData = !guidIs0 data (gptEntry it.u i) := rfl
  have range (i : Int) (sane : notsaneGpt f data it.u i = none) (some' : guidIs0 data (gptEntry it.u i) = false) :=
    (saneRange strict sane some').elim fun first last => @usableIff data it.u i low usable first last
  constructor
  · intro all i least less sane some'
    have reported := (listed (listedEntry it.u data i)).mpr ⟨i,⟨by omega,less,fun j low high => sane j (by omega) high⟩,rfl,by rw [kind,some']; rfl⟩
    exact (range i (sane i least (Int.le_refl _)) some').mp (all _ reported.1 reported.2)
  · intro ordered e mem isData
    obtain ⟨i,⟨behind,less,sane⟩,rfl,isData⟩ := (listed e).mp ⟨mem,isData⟩
    rw [kind,Bool.not_eq_true'] at isData
    exact (range i (sane i behind (Int.le_refl _)) isData).mpr
      (ordered i (by omega) less (fun j low high => sane j (by omega) high) isData)

/- crc32 of zlib, bit by bit. -/
def crcBit (c : Nat) : Nat := if c % 2 = 1 then (c / 2) ^^^ 0xEDB88320 else c / 2
def zlibCrc32 (buf : Buffer) (siz : Nat) : Nat :=
  ((List.range siz).foldl (fun c (i : Nat) => Nat.repeat crcBit 8 (c ^^^ (buf i).toNat)) 0xFFFFFFFF) ^^^ 0xFFFFFFFF

/- A GPT with one partition, from 50 to 49. -/
def reversedHeader : Buffer := sectorOf [(0,69),(1,70),(2,73),(3,32),(4,80),(5,65),(6,82),(7,84),(10,1),(12,92),(16,231),(17,228),(18,19),(19,111),
  (24,1),(32,200),(40,34),(48,100),(56,7),(72,2),(80,1),(84,128),(88,237),(89,98),(90,18),(91,127)]
def reversedList : Buffer := sectorOf [(0,9),(32,50),(40,49)]
def protectiveMbr : Buffer := sectorOf [(450,0xEE),(510,0x55),(511,0xAA)]

def reversedDisk : Disk where
  bps := 512
  lbacnt := 1000
  int13 := fun lba _ => if lba = 0 then some protectiveMbr else if lba = 1 then some reversedHeader else some reversedList
  malloc := fun _ => true
  crc32 := zlibCrc32

theorem reversedBegun : ∃ said, (piBegin reversedDisk strictly).1 = some (.typegpt (piCtor reversedDisk strictly (gptOf reversedHeader)
    ⟨headerGuid reversedHeader,List.replicate 37 0⟩ (some reversedList) said)) := by
  have valid : validCrcHdr reversedDisk reversedHeader = true := by decide +kernel
  have validList : validCrc reversedDisk (tableChksum reversedHeader) reversedList (gptLsiz reversedHeader) = true := by decide +kernel
  have found : findGptHdr reversedDisk true = (some (some reversedHeader),[]) := by
    have read : diskReadSectors reversedDisk 1 1 = some reversedHeader := rfl
    simp [findGptHdr,tryGptHdr,read,valid]
  have listed : (findGptList reversedDisk reversedHeader).1 = some reversedList := by
    have size : gptLsiz reversedHeader = 128 := by decide +kernel
    have count : gptLcnt reversedDisk reversedHeader = 1 := by
      rw [gptLcntEq _ (by decide),size]
      rfl
    have loff : gptLoff reversedDisk reversedHeader false = 2 := by
      rw [gptLoff,Bool.not_false,if_pos rfl]
      decide +kernel
    have here : diskReadSectors reversedDisk 2 1 = some reversedList := rfl
    rw [findGptListEq,tryGptListEq,loff,count,here]
    simp [Option.filter,validList]
  have read : diskReadSectors reversedDisk 0 1 = some protectiveMbr := rfl
  exact ⟨_,@piBeginList reversedDisk strictly protectiveMbr reversedHeader reversedList [] ⟨rfl,read,by decide +kernel,by decide +kernel⟩
    found ⟨by decide +kernel,by decide +kernel,by decide +kernel⟩ listed rfl⟩

theorem gptUsableIffReversed : ∃ it, (piBegin reversedDisk strictly).1 = some (.typegpt it) ∧
    ∃ entries status, Runs (advance reversedDisk) (.typegpt it) entries status ∧
      ((∀ e ∈ entries, e.isData = true → Usable it.u e) ↔
        ∀ i : Int, 0 ≤ i → i < it.u.peCount → (∀ j, 0 ≤ j → j ≤ i → notsaneGpt strictly reversedList it.u j = none) →
          guidIs0 reversedList (gptEntry it.u i) = false → lbaFirst reversedList (gptEntry it.u i) ≤ lbaLast reversedList (gptEntry it.u i)) :=
  reversedBegun.elim fun _ begun => ⟨_,begun,gptUsableIff rfl begun rfl⟩

theorem reversedEntryReported : ¬ ∀ (d : Disk) (f : Flags) (it : PartIter Gpt GptPart), f.strict = true →
    (piBegin d f).1 = some (.typegpt it) → ∀ entries status, Runs (advance d) (.typegpt it) entries status →
      ∀ e ∈ entries, e.isData = true → Usable it.u e := by
  intro all
  obtain ⟨said,begun⟩ := reversedBegun
  obtain ⟨inv,_,_,low,usable⟩ := strictBegun rfl begun
  obtain ⟨entries,status,runs,reported⟩ := @gptListed reversedDisk reversedList _ inv rfl
  have comes : ComesTo strictly (gptOf reversedHeader) reversedList (-1) 0 := by
    refine ⟨by decide,by decide,fun j least most => ?_⟩
    obtain rfl : j = 0 := by omega
    decide
  have isData : (listedEntry (gptOf reversedHeader) reversedList 0).isData = true := by decide
  obtain ⟨mem,_⟩ := (reported _).mpr ⟨0,comes,rfl,isData⟩
  have first : (gptOf reversedHeader).ufirst ≤ lbaFirst reversedList (gptEntry (gptOf reversedHeader) 0) := by decide
  have last : lbaLast reversedList (gptEntry (gptOf reversedHeader) 0) ≤ (gptOf reversedHeader).ulast := by decide
  have ordered := (@usableIff reversedList (gptOf reversedHeader) 0 low usable first last).mp
    (all _ _ _ rfl begun entries status runs _ mem isData)
  exact absurd ordered (by decide)

/- PIF_STEPALL yields the entries that are neither empty nor extended, and others; both runs
end, with one status. -/
def SameRuns (d : Disk) (f : Flags) : Prop :=
  ((piBegin d f.all).1 = none ∧ (piBegin d f.plain).1 = none) ∨
  ∃ a b entries status, (piBegin d f.all).1 = some a ∧ (piBegin d f.plain).1 = some b ∧
    Runs (advance d) a entries status ∧ Runs (advance d) b (entries.filter Entry.isData) status

/- The headers that pi_begin makes an iterator of. -/
def CountsFit (d : Disk) (f : Flags) : Prop :=
  ∀ mbr gpth, Protective d f mbr → (findGptHdr d true).1 = some (some gpth) → Header d f gpth →
    (findGptList d gpth).1 ≠ none → d.malloc (.list (gptLsiz gpth % 2^32)) = true → partCount gpth < 2^31

theorem strictCountsFit (strict : f.strict = true) : CountsFit d f := by
  intro mbr gpth protective found header _ _
  obtain ⟨lcnt,_,size,_⟩ := strictHeader strict header.2.2
  have fits := gptLsizFits gpth (sectorSizeSmall protective.2.1)
  rw [gptLsizEq] at fits
  have sectors : gptLcnt d gpth*d.bps ≤ 255*32768 := Nat.mul_le_mul lcnt (sectorSizeSmall protective.2.1).2
  have entries : 128*partCount gpth ≤ partSize gpth*partCount gpth := Nat.mul_le_mul_right _ size
  omega

theorem toIntLarge {n : Nat} (small : n < 2^32) (large : 2^31 ≤ n) : toInt n < 0 := by
  unfold toInt
  rw [Int.bmod_def]
  omega

theorem partiterStepall (d : Disk) (f : Flags) : SameRuns d f ↔ CountsFit d f := by
  constructor
  · intro same mbr gpth protective found header accepted room
    by_contra many
    obtain ⟨gptl,accepted⟩ := Option.ne_none_iff_exists'.mp accepted
    generalize both : findGptHdr d true = headerFound at found
    obtain ⟨_,said⟩ := headerFound
    cases found
    have begun := @piBeginList d f.all mbr gpth gptl said protective both header accepted room
    rcases same with ⟨none',_⟩ | ⟨a,b,entries,status,begunA,_,runs,_⟩
    · cases begun.symm.trans none'
    · have negative : (gptOf gpth).peCount < 0 := by
        rw [gptOfCount]
        exact toIntLarge (partSmall gpth).2 (by omega)
      cases begun.symm.trans begunA
      have stuck : advance d (.typegpt (piCtor d f.all (gptOf gpth) ⟨headerGuid gpth,List.replicate 37 0⟩ (some gptl)
          (said ++ (findGptList d gpth).2))) = none := advanceNegative rfl rfl negative
      cases runs with
      | stop here => cases stuck.symm.trans here
      | more here => cases stuck.symm.trans here
  · intro fits
    have begun := piBegun d f
    generalize first : (piBegin d f.all).1 = a at begun
    generalize second : (piBegin d f.plain).1 = b at begun
    cases begun with
    | none => exact Or.inl ⟨first,second⟩
    | raw => exact Or.inr ⟨_,_,[],.done,first,second,.stop rfl,.stop rfl⟩
    | dos pair =>
      obtain ⟨entries,status,all,plain⟩ := dosRuns (d := d) pair
      exact Or.inr ⟨_,_,entries,status,first,second,all,plain⟩
    | @gpt a b all plain same status data start =>
      obtain ⟨mbr,gpth,gptl,said,protective,found,header,accepted,room,made⟩ := piBeginGpt first
      have count : 0 ≤ a.u.peCount := by
        have small := fits mbr gpth protective found header (by simp [accepted]) room
        rw [made]
        show 0 ≤ (gptOf gpth).peCount
        rw [gptOfCount,toIntSmall small]
        omega
      obtain ⟨entries,status',runs,plainRuns⟩ := gptRuns (d := d) (.mk all plain same ⟨status,data,by omega⟩)
      exact Or.inr ⟨_,_,entries,status',first,second,runs,plainRuns⟩

theorem partiterStepallStrict : SameRuns reversedDisk strictly := (partiterStepall reversedDisk strictly).mpr (strictCountsFit rfl)

/- A GPT that announces 2^31 + 4 partitions of 128 bytes: the count of sectors is 1 modulo 256, the
size 512 modulo 2^32. The two checksums are those of zlib. -/
def manyHeader : Buffer := sectorOf [(0,69),(1,70),(2,73),(3,32),(4,80),(5,65),(6,82),(7,84),(10,1),(12,92),(16,57),(17,18),(18,145),(19,67),
  (24,1),(32,200),(40,34),(48,100),(56,7),(72,2),(80,4),(83,128),(84,128),(88,158),(89,76),(90,225),(91,218)]
def manyList : Buffer := sectorOf [(0,9),(32,50),(40,60)]

def manyDisk : Disk := { reversedDisk with
  int13 := fun lba _ => if lba = 0 then some protectiveMbr else if lba = 1 then some manyHeader else some manyList
  crc32 := fun _ siz => if siz = 92 then 0x43911239 else 0xdae14c9e }

def lax : Flags := ⟨false,false,false,false⟩

theorem manyDiffer : ¬ ∀ (d : Disk) (f : Flags), SameRuns d f := by
  intro all
  have count : gptLcnt manyDisk manyHeader = 2^29 + 1 := by decide
  have loff : gptLoff manyDisk manyHeader false = 2 := by decide
  have found : findGptHdr manyDisk true = (some (some manyHeader),[]) := by
    have read : diskReadSectors manyDisk 1 1 = some manyHeader := rfl
    have valid : validCrcHdr manyDisk manyHeader = true := by decide
    simp [findGptHdr,tryGptHdr,read,valid]
  have listed : (findGptList manyDisk manyHeader).1 = some manyList := by
    have read : diskReadSectors manyDisk 2 (2^29 + 1) = some manyList := rfl
    have valid : validCrc manyDisk (tableChksum manyHeader) manyList (gptLsiz manyHeader) = true := by decide
    rw [findGptListEq,tryGptListEq,loff,count,read]
    simp [Option.filter,valid]
  have small := (partiterStepall manyDisk lax).mp (all manyDisk lax) protectiveMbr manyHeader ⟨rfl,rfl,by decide,by decide⟩
    (by rw [found]) ⟨by decide,by decide,by decide⟩ (by simp [listed]) rfl
  exact absurd small (by decide)

end
end Syslinux.Partiter
