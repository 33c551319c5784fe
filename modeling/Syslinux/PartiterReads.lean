import Syslinux.PartiterGpt

/-! What pi_begin and the GPT iterator read of the sectors they have loaded: the header and the list for
their checksums, the list to copy it, and its entries. -/
namespace Syslinux.Partiter
open Iterators

structure Access where
  off : Int
  len : Nat
  size : Nat
  deriving DecidableEq, Repr

def Access.Inside (a : Access) : Prop := 0 ≤ a.off ∧ a.off + a.len ≤ a.size
instance (a : Access) : Decidable a.Inside := by unfold Access.Inside; infer_instance

def headerLba (d : Disk) (sec : Bool) : Nat := if sec then (d.lbacnt + 2^64 - 1) % 2^64 else 1

/- valid_crc_hdr: as many bytes as the header has itself. -/
def tryGptHdrReads (d : Disk) (sec : Bool) : List Access :=
  (diskReadSectors d (headerLba d sec) 1).toList.map fun gpth => ⟨0,hdrSize gpth,d.bps⟩

def findGptHdrReads (d : Disk) : List Access :=
  tryGptHdrReads d false ++ if (tryGptHdr d false).1.isNone then tryGptHdrReads d true else []

/- The size of the list as an unsigned int, and as a size_t; and the size of what disk_read_sectors loads. -/
def listSize (gpth : Buffer) : Nat := gptLsiz gpth % 2^32
def loadedSize (d : Disk) (gpth : Buffer) : Nat := gptLcnt d gpth % 2^8*d.bps

def tryGptListReads (d : Disk) (gpth : Buffer) (alt : Bool) : List Access :=
  (diskReadSectors d (gptLoff d gpth alt) (gptLcnt d gpth)).toList.map fun _ => ⟨0,listSize gpth,loadedSize d gpth⟩

def findGptListReads (d : Disk) (gpth : Buffer) : List Access :=
  tryGptListReads d gpth false ++ if (tryGptList d gpth false).1.isNone then tryGptListReads d gpth true else []

/- memcpy(iter->data,gptl,(size_t)siz) -/
def piGptCtorReads (d : Disk) (gpth : Buffer) : List Access :=
  if d.malloc (.list (gptLsiz gpth % 2^32)) then [⟨0,listSize gpth,loadedSize d gpth⟩] else []

def gptReads (d : Disk) (f : Flags) (gpth : Buffer) : List Access :=
  if gptRev gpth = 0x00010000 ∧ gptSig gpth = diskGptSigMagic ∧ notsaneGptHdr d gpth f = false then
    findGptListReads d gpth ++ (findGptList d gpth).1.toList.flatMap fun _ => piGptCtorReads d gpth
  else []

def piBeginReads (d : Disk) (f : Flags) : List Access :=
  if !d.malloc .partIter then [] else
  (diskReadSectors d 0 1).toList.flatMap fun mbr =>
    if le mbr 510 2 = 0xAA55 ∧ ((List.range 4).any (fun i => ostype mbr (tableEntry i) == 0xEE) && !f.prefmbr) = true then
      findGptHdrReads d ++ (findGptHdr d true).1.join.toList.flatMap fun gpth => gptReads d f gpth
    else []

/- guid_is0 and notsane_gpt, of the entry at index0 of a list of this size. -/
def checkReads (f : Flags) (data : Buffer) (u : Gpt) (size : Nat) (index0 : Int) : List Access :=
  let gp := gptEntry u index0
  ⟨gp,16,size⟩::
    if guidIs0 data gp || !f.strict then []
    else ⟨gp + 32,8,size⟩::if lbaFirst data gp < u.ufirst then [] else [⟨gp + 40,8,size⟩]

def gptTurnsReads (f : Flags) (size : Nat) : Nat → Cursor Gpt → List Access
  | 0,_ => []
  | turns+1,c =>
    let c := { c with index0 := c.index0 + 1 }
    if c.index0 < c.u.peCount then
      c.data.toList.flatMap fun data => checkReads f data c.u size c.index0 ++
        if (notsaneGpt f data c.u c.index0).isSome || !guidIs0 data (gptEntry c.u c.index0) || f.stepall then []
        else gptTurnsReads f size turns c
    else []

/- lba_first, lba_last, uid and name. -/
def reportReads (size : Nat) (gp : Int) : List Access := [⟨gp + 32,8,size⟩,⟨gp + 40,8,size⟩,⟨gp + 16,16,size⟩,⟨gp + 56,72,size⟩]

def nullReads : List Access := [⟨32,8,0⟩]

/- pi_gpt_next after its search. -/
def foundReads (size : Nat) (found : Cursor Gpt × Option Int) : List Access :=
  if found.1.status ≠ .ok ∨ found.1.index0 = found.1.u.peCount then [] else found.2.elim nullReads (reportReads size)

def piGptNextReads (size : Nat) (it : PartIter Gpt GptPart) : List Access :=
  if it.status ≠ .ok then [] else
  gptTurnsReads it.flags size (max 1 (it.u.peCount - it.index0).toNat) it.toCursor ++
    (gptSearch it.flags it.toCursor).toList.flatMap (foundReads size)

def GptCalls : PartIter Gpt GptPart → PartIter Gpt GptPart → Prop := Relation.ReflTransGen fun it it' => piGptNext it = some it'

structure ReadsInside (d : Disk) (f : Flags) : Prop where
  begins : ∀ a ∈ piBeginReads d f, a.Inside
  iterates : ∀ it gpth, (piBegin d f).1 = some (.typegpt it) → (findGptHdr d true).1 = some (some gpth) →
    ∀ it', GptCalls it it' → ∀ a ∈ piGptNextReads (listSize gpth) it', a.Inside

def HeaderFits (d : Disk) (sec : Bool) : Prop := ∀ gpth, diskReadSectors d (headerLba d sec) 1 = some gpth → hdrSize gpth ≤ d.bps
def HeadersFit (d : Disk) : Prop := HeaderFits d false ∧ ((tryGptHdr d false).1 = none → HeaderFits d true)

/- An entry that is reported has 128 bytes of the list, and another one 16. -/
def EntriesFit (f : Flags) (gpth gptl : Buffer) : Prop := ∀ i < partCount gpth,
  i*partSize gpth + (if f.stepall = true ∨ guidIs0 gptl (i*partSize gpth : Nat) = false then 128 else 16) ≤ listSize gpth

structure ListFits (d : Disk) (f : Flags) (gpth : Buffer) : Prop where
  main : diskReadSectors d (gptLoff d gpth false) (gptLcnt d gpth) ≠ none → listSize gpth ≤ loadedSize d gpth
  alternative : (tryGptList d gpth false).1 = none → diskReadSectors d (gptLoff d gpth true) (gptLcnt d gpth) ≠ none →
    listSize gpth ≤ loadedSize d gpth
  entries : ∀ gptl, (findGptList d gpth).1 = some gptl → d.malloc (.list (gptLsiz gpth % 2^32)) = true → EntriesFit f gpth gptl

section
variable {d : Disk} {f : Flags} {data gpth gptl : Buffer} {u : Gpt} {size : Nat} {g : Cursor Gpt} {it : PartIter Gpt GptPart}

def readsLoop (f : Flags) (size : Nat) (g : Cursor Gpt) : List Access := gptTurnsReads f size (max 1 (g.u.peCount - g.index0).toNat) g

theorem readsLoopTurn (more : g.index0 + 1 < g.u.peCount) (loaded : g.data = some data) : readsLoop f size g =
    checkReads f data g.u size (g.index0 + 1) ++
      if (notsaneGpt f data g.u (g.index0 + 1)).isSome || !guidIs0 data (gptEntry g.u (g.index0 + 1)) || f.stepall then []
      else readsLoop f size { g with index0 := g.index0 + 1 } := by
  obtain ⟨n,turns⟩ : ∃ n, max 1 (g.u.peCount - g.index0).toNat = n+1 := ⟨max 1 (g.u.peCount - g.index0).toNat - 1,by omega⟩
  have turns' : max 1 (g.u.peCount - (g.index0 + 1)).toNat = n := by omega
  rw [readsLoop,turns,gptTurnsReads]
  simp only [if_pos more,loaded,Option.toList_some,List.flatMap_cons,List.flatMap_nil,List.append_nil,readsLoop,turns']

theorem readsLoopOver (last : g.u.peCount ≤ g.index0 + 1) : readsLoop f size g = [] := by
  obtain ⟨n,turns⟩ : ∃ n, max 1 (g.u.peCount - g.index0).toNat = n+1 := ⟨max 1 (g.u.peCount - g.index0).toNat - 1,by omega⟩
  rw [readsLoop,turns,gptTurnsReads]
  exact if_neg (by simpa using last)

structure EntryInside (f : Flags) (data : Buffer) (u : Gpt) (size : Nat) (i : Int) : Prop where
  behind : 0 ≤ gptEntry u i
  type : gptEntry u i + 16 ≤ size
  whole : f.stepall = true ∨ guidIs0 data (gptEntry u i) = false → gptEntry u i + 128 ≤ size

theorem checkInside {i : Int} (inside : EntryInside f data u size i) : ∀ a ∈ checkReads f data u size i, a.Inside := by
  obtain ⟨behind,type,whole⟩ := inside
  intro a mem
  unfold checkReads at mem
  simp only at mem
  rcases List.mem_cons.mp mem with rfl | mem
  · exact ⟨behind,type⟩
  split at mem
  · exact (List.not_mem_nil mem).elim
  rename_i some'
  have nonzero : guidIs0 data (gptEntry u i) = false := by
    cases zero : guidIs0 data (gptEntry u i)
    · rfl
    · simp [zero] at some'
  have room := whole (Or.inr nonzero)
  rcases List.mem_cons.mp mem with rfl | mem
  · constructor <;> dsimp only <;> omega
  split at mem
  · exact (List.not_mem_nil mem).elim
  · obtain rfl := List.mem_singleton.mp mem
    constructor <;> dsimp only <;> omega

theorem reportInside {gp : Int} : (∀ a ∈ reportReads size gp, a.Inside) ↔ -16 ≤ gp ∧ gp + 128 ≤ size := by
  simp only [reportReads,List.forall_mem_cons,Access.Inside,List.not_mem_nil,false_imp_iff,implies_true,Nat.cast_ofNat,and_true]
  omega

theorem readsLoopMem (loaded : g.data = some data) {a : Access} (mem : a ∈ readsLoop f size g) :
    ∃ i, g.index0 < i ∧ i < g.u.peCount ∧ a ∈ checkReads f data g.u size i := by
  induction left : (g.u.peCount - g.index0).toNat using Nat.strong_induction_on generalizing g with
  | _ n ih =>
    by_cases more : g.index0 + 1 < g.u.peCount
    case neg =>
      rw [readsLoopOver (by omega)] at mem
      exact (List.not_mem_nil mem).elim
    rw [readsLoopTurn more loaded] at mem
    rcases List.mem_append.mp mem with here | later
    · exact ⟨g.index0 + 1,by omega,more,here⟩
    · split at later
      · exact (List.not_mem_nil later).elim
      · obtain ⟨i,behind,under,there⟩ := @ih _ (by simp only; omega) { g with index0 := g.index0 + 1 } loaded later rfl
        exact ⟨i,by simp only at behind; omega,under,there⟩

inductive Ends (f : Flags) (data : Buffer) (g : Cursor Gpt) : Cursor Gpt × Option Int → Prop where
  | insane {i : Int} {text : String} {part : Option Int} (behind : g.index0 < i) :
      Ends f data g ({ g with index0 := i }.error .insane text,part)
  | last {part : Option Int} : Ends f data g ({ g with index0 := g.u.peCount },part)
  | entry {i : Int} (behind : g.index0 < i) (under : i < g.u.peCount) (reported : f.stepall = true ∨ guidIs0 data (gptEntry g.u i) = false) :
      Ends f data g ({ g with index0 := i },some (gptEntry g.u i))

theorem gptLoopEnds {part : Option Int} (inv : GptInv g) (loaded : g.data = some data) :
    ∃ found, gptLoop f g part = some found ∧ Ends f data g found := by
  induction left : (g.u.peCount - g.index0).toNat using Nat.strong_induction_on generalizing g part with
  | _ n ih =>
    have under := inv.under
    by_cases last : g.index0 + 1 = g.u.peCount
    · exact ⟨_,gptLoopOver last,.last⟩
    rw [gptLoopTurn (by omega) loaded]
    split
    · exact ⟨_,rfl,.insane (by omega)⟩
    split
    · rename_i reported
      refine ⟨_,rfl,.entry (by omega) (by omega) ?_⟩
      simpa [or_comm] using reported
    · obtain ⟨found,ran,ends⟩ := @ih _ (by simp only; omega) { g with index0 := g.index0 + 1 } (some (gptEntry g.u (g.index0 + 1)))
        ⟨inv.status,inv.data,by show g.index0 + 1 < g.u.peCount; omega⟩ loaded rfl
      refine ⟨found,ran,?_⟩
      cases ends with
      | insane behind => exact .insane (by simp only at behind; omega)
      | last => exact .last
      | entry behind under reported => exact .entry (by simp only at behind; omega) under reported

structure Reading (f : Flags) (u : Gpt) (data : Buffer) (it : PartIter Gpt GptPart) : Prop where
  flags : it.flags = f
  union : it.u = u
  loaded : it.data = some data
  index : -1 ≤ it.index0
  inv : it.status = .ok → GptInv it.toCursor

theorem nextReading {it' : PartIter Gpt GptPart} (reading : Reading f u data it) (next : piGptNext it = some it') : Reading f u data it' := by
  unfold piGptNext at next
  split at next
  · cases next
    exact reading
  rename_i okay
  have inv := reading.inv (not_not.mp okay)
  obtain ⟨found,ran,ends⟩ := @gptLoopEnds it.flags data it.toCursor none inv reading.loaded
  have search : gptSearch it.flags it.toCursor = some found := ran
  simp only [search,Option.bind_eq_bind,Option.bind_some] at next
  obtain ⟨flags,union,loaded,index,_⟩ := reading
  cases ends with
  | insane behind =>
    simp only [Cursor.error,ne_eq,reduceCtorEq,not_false_eq_true,if_true] at next
    cases next
    exact ⟨flags,union,loaded,by simp only; omega,fun fine => absurd fine (by simp)⟩
  | last =>
    simp only [inv.status,ne_eq,not_true_eq_false,if_false,if_true] at next
    cases next
    exact ⟨flags,union,loaded,by have := inv.under; simp only; omega,fun fine => absurd fine (by simp)⟩
  | @entry i behind under reported =>
    simp only [inv.status,ne_eq,not_true_eq_false,if_false,under.ne,Option.bind_some,loaded] at next
    cases next
    exact ⟨flags,union,rfl,by simp only; omega,fun _ => ⟨rfl,by simp,under⟩⟩

theorem nextReadsInside (reading : Reading f u data it) (all : ∀ i, 0 ≤ i → i < u.peCount → EntryInside f data u size i) :
    ∀ a ∈ piGptNextReads size it, a.Inside := by
  obtain ⟨rfl,rfl,loaded,index,okay⟩ := reading
  intro a mem
  unfold piGptNextReads at mem
  split at mem
  · exact (List.not_mem_nil mem).elim
  rename_i fine
  have inv := okay (not_not.mp fine)
  rcases List.mem_append.mp mem with checked | reported
  · obtain ⟨i,behind,under,here⟩ := readsLoopMem loaded checked
    exact checkInside (all i (by omega) under) a here
  · obtain ⟨found,ran,ends⟩ := @gptLoopEnds it.flags data it.toCursor none inv loaded
    have search : gptSearch it.flags it.toCursor = some found := ran
    simp only [search,Option.toList_some,List.flatMap_cons,List.flatMap_nil,List.append_nil,foundReads] at reported
    split at reported
    · exact (List.not_mem_nil reported).elim
    rename_i stops
    rw [not_or,not_not] at stops
    cases ends with
    | insane behind => exact absurd stops.1 (by simp [Cursor.error])
    | last => exact absurd rfl stops.2
    | entry behind under here =>
      have entry := all _ (by omega) under
      exact reportInside.2 ⟨by have := entry.behind; omega,entry.whole here⟩ a reported

theorem nextSame {part : Option Int} (status : it.status = .ok) (inv : GptInv g) (search : gptSearch it.flags it.toCursor = gptLoop it.flags g part) :
    piGptNext it = piGptNext { it with toCursor := g } := by
  have plain : gptSearch it.flags g = gptLoop it.flags g none := rfl
  rcases gptLoopPart (f := it.flags) inv part none with same | ⟨g',last,fine,here,there⟩
  · simp only [piGptNext,status,inv.status,ne_eq,not_true_eq_false,if_false,search,same,plain]
  · simp [piGptNext,status,inv.status,search,plain,here,there,fine,last]

theorem nextReads (status : it.status = .ok) :
    piGptNextReads size it = readsLoop it.flags size it.toCursor ++ (gptLoop it.flags it.toCursor none).toList.flatMap (foundReads size) := by
  rw [piGptNextReads,if_neg (not_not.mpr status)]
  rfl

theorem laterReads {part : Option Int} {a : Access} (inv : GptInv g)
    (mem : a ∈ piGptNextReads size { it with toCursor := g }) :
    a ∈ readsLoop it.flags size g ++ (gptLoop it.flags g part).toList.flatMap (foundReads size) := by
  rw [nextReads inv.status] at mem
  rcases List.mem_append.mp mem with here | later
  · exact List.mem_append_left _ here
  · refine List.mem_append_right _ ?_
    rcases gptLoopPart (f := it.flags) inv none part with same | ⟨g',last,fine,none',some'⟩
    · rwa [← same]
    · simp [none',foundReads,last] at later

theorem nextReported {i : Int} (inv : GptInv it.toCursor) (loaded : it.data = some data)
    (search : gptSearch it.flags it.toCursor = some ({ it.toCursor with index0 := i },some (gptEntry it.u i))) (under : i < it.u.peCount) :
    piGptNext it = some (gptReach it { it.toCursor with index0 := i } data (gptEntry it.u i)) := by
  simp [piGptNext,inv.status,search,under.ne,loaded,gptReach]

/- Without PIF_STRICT every entry is read in some call, and its label if it is reported. -/
theorem entriesRead (lax : it.flags.strict = false) (inv : GptInv it.toCursor) (loaded : it.data = some data) :
    ∀ i, it.index0 < i → i < it.u.peCount → ∃ it', GptCalls it it' ∧ ⟨gptEntry it.u i,16,size⟩ ∈ piGptNextReads size it' ∧
      (it.flags.stepall = true ∨ guidIs0 data (gptEntry it.u i) = false →
        ⟨gptEntry it.u i + 56,72,size⟩ ∈ piGptNextReads size it') := by
  induction left : (it.u.peCount - it.index0).toNat using Nat.strong_induction_on generalizing it with
  | _ n ih =>
    intro i behind under
    have more : it.index0 + 1 < it.u.peCount := by omega
    have sane : notsaneGpt it.flags data it.u (it.index0 + 1) = none := by
      unfold notsaneGpt
      simp [lax]
    have turn := gptLoopTurn (f := it.flags) more loaded none
    have reads : readsLoop it.flags size it.toCursor = _ := readsLoopTurn more loaded
    simp only [sane,Option.isSome_none,Bool.false_or] at turn reads
    have all : piGptNextReads size it = _ := nextReads inv.status
    have inv' : GptInv { it.toCursor with index0 := it.index0 + 1 } := ⟨inv.status,inv.data,more⟩
    have first : (⟨gptEntry it.u (it.index0 + 1),16,size⟩ : Access) ∈ checkReads it.flags data it.u size (it.index0 + 1) := List.mem_cons_self ..
    by_cases reported : (!guidIs0 data (gptEntry it.u (it.index0 + 1)) || it.flags.stepall) = true
    · rw [if_pos reported] at turn reads
      rw [turn,reads] at all
      simp only [Option.toList_some,List.flatMap_cons,List.flatMap_nil,List.append_nil,inv.status,ne_eq,not_true_eq_false,false_or,more.ne,if_false,
        Option.elim_some,foundReads] at all
      by_cases here : i = it.index0 + 1
      · subst here
        refine ⟨it,.refl,?_,fun _ => ?_⟩
        · rw [all]
          exact List.mem_append_left _ first
        · rw [all]
          exact List.mem_append_right _ (by simp [reportReads])
      · obtain ⟨it',calls,there⟩ := @ih _ (by simp only [gptReach]; omega)
          (gptReach it { it.toCursor with index0 := it.index0 + 1 } data (gptEntry it.u (it.index0 + 1))) lax inv' loaded rfl i
          (by simp only [gptReach]; omega) under
        exact ⟨it',.head (nextReported inv loaded turn more) calls,there⟩
    · rw [if_neg reported] at turn reads
      rw [turn,reads] at all
      by_cases here : i = it.index0 + 1
      · subst here
        refine ⟨it,.refl,?_,fun whole => ?_⟩
        · rw [all]
          exact List.mem_append_left _ (List.mem_append_left _ first)
        · simp only [Bool.or_eq_true,Bool.not_eq_true',not_or] at reported
          exact whole.elim (fun every => absurd every reported.2) fun nonzero => absurd nonzero reported.1
      · obtain ⟨it',calls,there⟩ := @ih _ (by simp only; omega) { it with index0 := it.index0 + 1 } lax inv' loaded rfl i (by simp only; omega) under
        rcases Relation.ReflTransGen.cases_head calls with rfl | ⟨it₁,next,later⟩
        · have subset (a : Access) (mem : a ∈ piGptNextReads size { it with index0 := it.index0 + 1 }) : a ∈ piGptNextReads size it := by
            rw [all,List.append_assoc]
            exact List.mem_append_right _ (laterReads inv' mem)
          exact ⟨it,.refl,subset _ there.1,fun whole => subset _ (there.2 whole)⟩
        · exact ⟨it',.head ((nextSame inv.status inv' turn).trans next) later,there⟩

theorem readFits {lba count : Nat} (read : diskReadSectors d lba count ≠ none) : count % 2^8*d.bps ≤ 65536 := by
  unfold diskReadSectors at read
  simp only at read
  split at read
  · exact absurd rfl read
  rename_i fits
  have most : count % 2^8 ≤ (65536 - d.bps) / d.bps := by omega
  exact Nat.le_trans (Nat.mul_le_mul_right _ most) (Nat.le_trans (Nat.div_mul_le_self _ _) (Nat.sub_le _ _))

theorem toIntNonneg {n : Nat} (low : n < 2^32) : 0 ≤ toInt n ↔ n < 2^31 := by
  unfold toInt
  rw [Int.bmod_def]
  omega

theorem gptEntryNat (gpth : Buffer) (n : Nat) : gptEntry (gptOf gpth) n = toInt (n*partSize gpth) := by
  unfold gptEntry gptOf toInt
  simp only [Int.mul_bmod_bmod,Nat.cast_mul]

/- Of a list that is small enough, with all its entries inside, the offsets are what they are as an int. -/
theorem entriesFitIff (small : listSize gpth ≤ 65536) : EntriesFit f gpth gptl ↔ 0 ≤ (gptOf gpth).peCount ∧
    ∀ i, 0 ≤ i → i < (gptOf gpth).peCount → EntryInside f gptl (gptOf gpth) (listSize gpth) i := by
  obtain ⟨sizeLow,countLow⟩ := partSmall gpth
  rw [gptOfCount,toIntNonneg countLow]
  constructor
  · intro fit
    have few : partCount gpth < 2^31 := by
      by_contra many
      have first := fit 0 (by omega)
      have last := fit (partCount gpth - 1) (by omega)
      have some' : 1 ≤ partSize gpth := by
        refine Nat.one_le_iff_ne_zero.mpr fun zero => ?_
        have none' : listSize gpth = 0 := by rw [listSize,gptLsizEq,zero,Nat.zero_mul,Nat.zero_mod]
        rw [none'] at first
        split at first <;> omega
      have := Nat.mul_le_mul_left (partCount gpth - 1) some'
      omega
    refine ⟨few,fun i least less => ?_⟩
    rw [toIntSmall few] at less
    obtain ⟨n,rfl⟩ := Int.eq_ofNat_of_zero_le least
    have here := fit n (by omega)
    have place : gptEntry (gptOf gpth) n = (n*partSize gpth : Nat) := by
      rw [gptEntryNat]
      exact toIntSmall (by omega)
    refine ⟨by omega,?_,fun whole => ?_⟩
    · rw [place]
      split at here <;> omega
    · rw [place] at whole ⊢
      rw [if_pos whole] at here
      omega
  · rintro ⟨few,inside⟩ n less
    rw [toIntSmall few] at inside
    have place : gptEntry (gptOf gpth) n = (n*partSize gpth : Nat) := by
      rw [gptEntryNat]
      refine toIntSmall ?_
      induction n with
      | zero => omega
      | succ n ih =>
        have before := (inside n (by omega) (by omega)).type
        rw [gptEntryNat,toIntSmall (ih (by omega))] at before
        obtain ⟨behind,type,_⟩ := inside (1 : Nat) (by omega) (by omega)
        rw [gptEntryNat,Nat.one_mul] at behind type
        rw [toIntSmall ((toIntNonneg sizeLow).mp behind)] at type
        rw [Nat.succ_mul]
        omega
    obtain ⟨behind,type,whole⟩ := inside n (by omega) (by omega)
    rw [place] at type whole
    split
    · rename_i reported
      have := whole reported
      omega
    · omega

theorem headersInside : (∀ a ∈ findGptHdrReads d, a.Inside) ↔ HeadersFit d := by
  have one (sec : Bool) : (∀ a ∈ tryGptHdrReads d sec, a.Inside) ↔ HeaderFits d sec := by
    simp only [tryGptHdrReads,HeaderFits,List.mem_map,Option.mem_toList,forall_exists_index,and_imp,
      forall_apply_eq_imp_iff₂,Access.Inside]
    exact forall₂_congr fun gpth read => by omega
  unfold findGptHdrReads HeadersFit
  rw [List.forall_mem_append,one]
  refine and_congr_right fun _ => ?_
  cases (tryGptHdr d false).1 with
  | none => simp [one]
  | some gpth => simp

theorem listInside (alt : Bool) : (∀ a ∈ tryGptListReads d gpth alt, a.Inside) ↔
    (diskReadSectors d (gptLoff d gpth alt) (gptLcnt d gpth) ≠ none → listSize gpth ≤ loadedSize d gpth) := by
  unfold tryGptListReads
  generalize diskReadSectors d (gptLoff d gpth alt) (gptLcnt d gpth) = read
  cases read with
  | none => simp
  | some gptl => simp [Access.Inside]

theorem listsInside : (∀ a ∈ findGptListReads d gpth, a.Inside) ↔
    (diskReadSectors d (gptLoff d gpth false) (gptLcnt d gpth) ≠ none → listSize gpth ≤ loadedSize d gpth) ∧
      ((tryGptList d gpth false).1 = none → diskReadSectors d (gptLoff d gpth true) (gptLcnt d gpth) ≠ none →
        listSize gpth ≤ loadedSize d gpth) := by
  unfold findGptListReads
  rw [List.forall_mem_append,listInside]
  refine and_congr_right fun _ => ?_
  rw [← listInside]
  cases (tryGptList d gpth false).1 with
  | none => simp
  | some gptl => simp

theorem acceptedLoaded (accepted : (findGptList d gpth).1 = some gptl) :
    diskReadSectors d (gptLoff d gpth false) (gptLcnt d gpth) ≠ none ∨
      (tryGptList d gpth false).1 = none ∧ diskReadSectors d (gptLoff d gpth true) (gptLcnt d gpth) ≠ none := by
  have loaded {alt : Bool} {gptl : Buffer} (took : (tryGptList d gpth alt).1 = some gptl) :
      diskReadSectors d (gptLoff d gpth alt) (gptLcnt d gpth) ≠ none := by
    rw [tryGptListEq] at took
    intro failed
    rw [failed,Option.filter_none] at took
    cases took
  rw [findGptListEq] at accepted
  cases main : (tryGptList d gpth false).1 with
  | some gptl => exact Or.inl (loaded main)
  | none =>
    rw [main,Option.none_or] at accepted
    exact Or.inr ⟨rfl,loaded accepted⟩

theorem gptReadsIff : (∀ a ∈ gptReads d f gpth, a.Inside) ↔ (Header d f gpth →
    (diskReadSectors d (gptLoff d gpth false) (gptLcnt d gpth) ≠ none → listSize gpth ≤ loadedSize d gpth) ∧
      ((tryGptList d gpth false).1 = none → diskReadSectors d (gptLoff d gpth true) (gptLcnt d gpth) ≠ none →
        listSize gpth ≤ loadedSize d gpth)) := by
  unfold gptReads
  split
  case isFalse other => exact iff_of_true (by simp) fun header => absurd header other
  rename_i header
  rw [List.forall_mem_append,listsInside]
  constructor
  · exact fun all _ => all.1
  · intro all
    obtain ⟨main,alternative⟩ := all header
    refine ⟨⟨main,alternative⟩,?_⟩
    -- The copy takes no more than the checksum.
    cases accepted : (findGptList d gpth).1 with
    | none => simp
    | some gptl =>
      have fits : listSize gpth ≤ loadedSize d gpth := by
        rcases acceptedLoaded accepted with loaded | ⟨failed,loaded⟩
        · exact main loaded
        · exact alternative failed loaded
      intro a mem
      simp only [Option.toList_some,List.flatMap_cons,List.flatMap_nil,List.append_nil,piGptCtorReads] at mem
      split at mem
      · obtain rfl := List.mem_singleton.mp mem
        exact ⟨Int.le_refl _,by simp only; omega⟩
      · exact (List.not_mem_nil mem).elim

theorem beginReadsIff : (∀ a ∈ piBeginReads d f, a.Inside) ↔ ∀ mbr, Protective d f mbr → HeadersFit d ∧
    ∀ gpth, (findGptHdr d true).1 = some (some gpth) → ∀ a ∈ gptReads d f gpth, a.Inside := by
  have inner : (∀ a ∈ (findGptHdr d true).1.join.toList.flatMap fun gpth => gptReads d f gpth, a.Inside) ↔
      ∀ gpth, (findGptHdr d true).1 = some (some gpth) → ∀ a ∈ gptReads d f gpth, a.Inside := by
    simp only [List.mem_flatMap,Option.mem_toList,Option.join_eq_some_iff,forall_exists_index,and_imp]
    exact ⟨fun all gpth found a mem => all a gpth found mem,fun all a gpth found mem => all gpth found a mem⟩
  have outer : (∀ a ∈ piBeginReads d f, a.Inside) ↔ ∀ mbr, Protective d f mbr →
      ∀ a ∈ findGptHdrReads d ++ (findGptHdr d true).1.join.toList.flatMap (fun gpth => gptReads d f gpth), a.Inside := by
    unfold piBeginReads
    cases memory : d.malloc .partIter with
    | false =>
      refine iff_of_true (by simp) fun mbr protective => ?_
      have := protective.1
      simp [memory] at this
    | true =>
      simp only [Bool.not_true,Bool.false_eq_true,if_false,List.mem_flatMap,Option.mem_toList,forall_exists_index,and_imp]
      constructor
      · intro all mbr protective a mem
        refine all a mbr protective.2.1 ?_
        rw [if_pos protective.2.2]
        exact mem
      · intro all a mbr read mem
        split at mem
        · rename_i here
          exact all mbr ⟨memory,read,here⟩ a mem
        · exact (List.not_mem_nil mem).elim
  rw [outer]
  refine forall₂_congr fun mbr protective => ?_
  rw [List.forall_mem_append,headersInside,inner]

theorem strictFits {mbr : Buffer} (strict : f.strict = true) (protective : Protective d f mbr) (header : Header d f gpth) : ListFits d f gpth := by
  have small := sectorSizeSmall protective.2.1
  obtain ⟨lcnt,_,size,_⟩ := strictHeader strict header.2.2
  have fits := gptLsizFits gpth small
  have least : listSize gpth ≤ gptLsiz gpth := Nat.mod_le _ _
  have all : listSize gpth ≤ loadedSize d gpth := by
    rw [loadedSize,Nat.mod_eq_of_lt (by omega)]
    omega
  refine ⟨fun _ => all,fun _ _ => all,fun gptl _ _ n less => ?_⟩
  have sectors : gptLcnt d gpth*d.bps ≤ 255*32768 := Nat.mul_le_mul lcnt small.2
  have whole : listSize gpth = partSize gpth*partCount gpth := by
    rw [listSize,Nat.mod_eq_of_lt (by omega),gptLsizEq]
  have upto : (n + 1)*partSize gpth ≤ partCount gpth*partSize gpth := Nat.mul_le_mul_right _ less
  rw [Nat.succ_mul] at upto
  rw [whole,Nat.mul_comm (partSize gpth)]
  split <;> omega

theorem loadedSmall (accepted : (findGptList d gpth).1 = some gptl) : loadedSize d gpth ≤ 65536 := by
  rcases acceptedLoaded accepted with loaded | ⟨_,loaded⟩
  · exact readFits loaded
  · exact readFits loaded

theorem fitsSmall (fits : ListFits d f gpth) (accepted : (findGptList d gpth).1 = some gptl) : listSize gpth ≤ loadedSize d gpth := by
  rcases acceptedLoaded accepted with loaded | ⟨failed,loaded⟩
  · exact fits.main loaded
  · exact fits.alternative failed loaded

/- The iterator that pi_begin makes of a list. -/
def begunGpt (d : Disk) (f : Flags) (gpth gptl : Buffer) (said : List String) : PartIter Gpt GptPart :=
  piCtor d f (gptOf gpth) ⟨headerGuid gpth,List.replicate 37 0⟩ (some gptl) said

theorem begunInv {said : List String} (some' : 0 ≤ (gptOf gpth).peCount) : GptInv (begunGpt d f gpth gptl said).toCursor := by
  refine ⟨rfl,Option.some_ne_none gptl,?_⟩
  show -1 < (gptOf gpth).peCount
  omega

theorem iteratesFit {said : List String} (fit : EntriesFit f gpth gptl) (small : listSize gpth ≤ 65536) {it' : PartIter Gpt GptPart}
    (calls : GptCalls (begunGpt d f gpth gptl said) it') : ∀ a ∈ piGptNextReads (listSize gpth) it', a.Inside := by
  obtain ⟨some',inside⟩ := (entriesFitIff small).mp fit
  have reading : Reading f (gptOf gpth) gptl it' := by
    induction calls with
    | refl => exact ⟨rfl,rfl,rfl,Int.le_refl _,fun _ => begunInv some'⟩
    | tail _ next ih => exact nextReading ih next
  exact nextReadsInside reading inside

theorem fitIterates {said : List String} (lax : f.strict = false) (small : listSize gpth ≤ 65536)
    (all : ∀ it', GptCalls (begunGpt d f gpth gptl said) it' → ∀ a ∈ piGptNextReads (listSize gpth) it', a.Inside) : EntriesFit f gpth gptl := by
  have some' : 0 ≤ (gptOf gpth).peCount := by
    by_contra negative
    have turns : max 1 ((gptOf gpth).peCount - -1).toNat = 0 + 1 := by omega
    have search : gptSearch f (begunGpt d f gpth gptl said).toCursor = some ({ (begunGpt d f gpth gptl said).toCursor with index0 := 0 },none) := by
      rw [gptSearch]
      show gptTurns f (max 1 ((gptOf gpth).peCount - -1).toNat) (begunGpt d f gpth gptl said).toCursor none = _
      rw [turns,gptTurns]
      exact if_neg (show ¬ (0 : Int) < (gptOf gpth).peCount by omega)
    have null := all _ .refl ⟨32,8,0⟩ (by
      rw [nextReads rfl]
      refine List.mem_append_right _ ?_
      rw [show gptLoop (begunGpt d f gpth gptl said).flags (begunGpt d f gpth gptl said).toCursor none =
        some ({ (begunGpt d f gpth gptl said).toCursor with index0 := 0 },none) from search]
      simp only [Option.toList_some,List.flatMap_cons,List.flatMap_nil,List.append_nil]
      rw [foundReads,if_neg]
      · exact List.mem_singleton_self _
      · rintro (failed | last)
        · exact failed rfl
        · exact negative (Int.le_of_eq last))
    exact absurd null (by decide)
  refine (entriesFitIff small).mpr ⟨some',fun i least less => ?_⟩
  obtain ⟨it',calls,type,label⟩ := @entriesRead gptl (listSize gpth) (begunGpt d f gpth gptl said) lax (begunInv some') rfl i
    (show -1 < i by omega) less
  have typeInside := all it' calls _ type
  refine ⟨typeInside.1,typeInside.2,fun whole => ?_⟩
  have labelInside : gptEntry (gptOf gpth) i + 56 + (72 : Nat) ≤ listSize gpth := (all it' calls _ (label whole)).2
  omega

theorem readsInsideIff (d : Disk) (f : Flags) : ReadsInside d f ↔ ∀ mbr, Protective d f mbr → HeadersFit d ∧
    (f.strict = true ∨ ∀ gpth, (findGptHdr d true).1 = some (some gpth) → Header d f gpth → ListFits d f gpth) := by
  constructor
  · rintro ⟨begins,iterates⟩ mbr protective
    obtain ⟨headers,lists⟩ := beginReadsIff.1 begins mbr protective
    refine ⟨headers,?_⟩
    cases strict : f.strict with
    | true => exact Or.inl rfl
    | false =>
      refine Or.inr fun gpth found header => ?_
      obtain ⟨main,alternative⟩ := gptReadsIff.1 (lists gpth found) header
      refine ⟨main,alternative,fun gptl accepted room => ?_⟩
      generalize both : findGptHdr d true = headerFound at found
      obtain ⟨_,said⟩ := headerFound
      cases found
      have begun := piBeginList protective both header accepted room
      have small : listSize gpth ≤ loadedSize d gpth := by
        rcases acceptedLoaded accepted with loaded | ⟨failed,loaded⟩
        · exact main loaded
        · exact alternative failed loaded
      exact fitIterates strict (Nat.le_trans small (loadedSmall accepted)) (iterates _ gpth begun (by rw [both]))
  · intro fits
    have listFits (mbr gpth : Buffer) (protective : Protective d f mbr) (found : (findGptHdr d true).1 = some (some gpth))
        (header : Header d f gpth) : ListFits d f gpth := by
      rcases (fits mbr protective).2 with strict | lax
      · exact strictFits strict protective header
      · exact lax gpth found header
    refine ⟨beginReadsIff.2 fun mbr protective => ⟨(fits mbr protective).1,fun gpth found => gptReadsIff.2 fun header => ?_⟩,?_⟩
    · have fit := listFits mbr gpth protective found header
      exact ⟨fit.main,fit.alternative⟩
    · intro it gpth begun found it' calls
      obtain ⟨mbr,gpth',gptl,said,protective,found',header,accepted,room,rfl⟩ := piBeginGpt begun
      cases found.symm.trans found'
      have fit := listFits mbr gpth protective found header
      exact iteratesFit (fit.entries gptl accepted room) (Nat.le_trans (fitsSmall fit accepted) (loadedSmall accepted)) calls

/- A header that announces 1000 bytes of a sector of 512. -/
def longHeader : Buffer := sectorOf [(12,232),(13,3)]
def longDisk : Disk := { reversedDisk with int13 := fun lba _ => if lba = 0 then some protectiveMbr else some longHeader }

theorem longHeaderRead : ¬ ∀ (d : Disk) (f : Flags), ReadsInside d f := by
  intro all
  have protective : Protective longDisk strictly protectiveMbr := ⟨rfl,rfl,by decide,by decide⟩
  have fits := (beginReadsIff.1 (all longDisk strictly).begins protectiveMbr protective).1.1 longHeader rfl
  exact absurd fits (by decide)

end
end Syslinux.Partiter
