import Syslinux.Xfs

/-! What xfs_next_extent answers while a file is read: the records in their order, wherever
the sectors asked for lie. -/
namespace Syslinux.Xfs
open Opal (be16 be32)
open Getfssec (Extent Fs Ask extentZero extentVoid)

theorem be32Word (b : Nat → UInt8) (off : Nat) : be32 b off < 2^32 := by
  have first := (b off).toNat_lt
  have second := (b (off + 1)).toNat_lt
  have third := (b (off + 2)).toNat_lt
  have last := (b (off + 3)).toNat_lt
  unfold be32
  omega

def starts (recs : List Irec) (k : Nat) : Nat := ((recs.take k).map Irec.blockcount).sum

def InStep (recs : List Irec) (k : Nat) : Prop := ∀ j r, j < k → recs[j]? = some r → r.startoff = starts recs j

section
variable {recs : List Irec} {k : Nat}

theorem startsSucc {r : Irec} (at' : recs[k]? = some r) : starts recs (k + 1) = starts recs k + r.blockcount := by
  unfold starts
  rw [List.take_add_one,at']
  simp

theorem startsMono {j : Nat} (le : j ≤ k) : starts recs j ≤ starts recs k := by
  unfold starts
  obtain ⟨more,rfl⟩ := Nat.exists_eq_add_of_le le
  rw [List.take_add,List.map_append,List.sum_append]
  omega

theorem inStepSucc {r : Irec} (inStep : InStep recs k) (at' : recs[k]? = some r) (here : r.startoff = starts recs k) :
    InStep recs (k + 1) := by
  intro j s less there
  rcases Nat.lt_succ_iff_lt_or_eq.mp less with earlier | rfl
  · exact inStep j s earlier there
  · rw [at'] at there
    cases there
    exact here

theorem inStepCovers (inStep : InStep recs k) (le : k ≤ recs.length) {block : Nat} (inside : block < starts recs k) :
    ∃ r ∈ recs, r.Spans block := by
  induction k with
  | zero => exact absurd inside (Nat.not_lt_zero _)
  | succ k ih =>
    have at' : recs[k]? = some recs[k] := List.getElem?_eq_getElem (by omega)
    by_cases earlier : block < starts recs k
    · exact ih (fun j r less => inStep j r (by omega)) (by omega) earlier
    · rw [startsSucc at'] at inside
      have here := inStep k _ (by omega) at'
      exact ⟨recs[k],List.getElem_mem _,by rw [Irec.Spans,here]; omega⟩

/- The record for the block behind them can only be the next one, and begins there. -/
theorem coveredNext (sorted : recs.Pairwise fun r s => r.startoff + r.blockcount ≤ s.startoff) (inStep : InStep recs k)
    (positive : ∀ r ∈ recs, 0 < r.blockcount) (covered : ∃ r ∈ recs, r.Spans (starts recs k)) :
    ∃ r, recs[k]? = some r ∧ r.startoff = starts recs k := by
  obtain ⟨r,mem,low,high⟩ := covered
  obtain ⟨m,small,rfl⟩ := List.getElem_of_mem mem
  have order := List.pairwise_iff_getElem.mp sorted
  have behind : k ≤ m := by
    by_contra less
    have at' : recs[m]? = some recs[m] := List.getElem?_eq_getElem small
    have here := inStep m _ (by omega) at'
    have next := startsSucc at'
    have mono : starts recs (m + 1) ≤ starts recs k := startsMono (by omega)
    omega
  have inside : k < recs.length := by omega
  have lower : starts recs k ≤ recs[k].startoff := by
    cases k with
    | zero => exact Nat.zero_le _
    | succ k =>
      have at' : recs[k]? = some recs[k] := List.getElem?_eq_getElem (by omega)
      have here := inStep k _ (by omega) at'
      rw [startsSucc at',← here]
      exact order k (k + 1) (by omega) inside (Nat.lt_succ_self _)
  refine ⟨recs[k],List.getElem?_eq_getElem inside,?_⟩
  rcases Nat.lt_or_eq_of_le behind with less | rfl
  · have later := order k m inside small less
    have some' := positive recs[k] (List.getElem_mem _)
    omega
  · omega

end

section
variable {fs : XfsInfo} {ino : Nat} {core : Nat → UInt8} {recs : List Irec}

def XfsInfo.unit (fs : XfsInfo) : Nat := 2^(fs.blockShift - fs.sectorShift)
def XfsInfo.linear (fs : XfsInfo) (x : Nat) : Nat := x / 2^fs.agblkShift*fs.agblocks + x % 2^fs.agblkShift

theorem unitSectors (shifts : 9 ≤ fs.sectorShift ∧ fs.sectorShift ≤ fs.blockShift ∧ fs.blockShift ≤ 15) :
    2^fs.blockShift = fs.unit*2^fs.sectorShift := by
  rw [XfsInfo.unit,← Nat.pow_add]
  congr 1
  omega

theorem recordPlace (f : XfsFile fs ino core recs) {r : Irec} (mem : r ∈ recs) {d : Nat} (inside : d < r.blockcount) :
    fs.fsblockToBytes (r.startblock + d) = (fs.linear r.startblock + d)*2^fs.blockShift ∧
      (fs.linear r.startblock + d + 1)*2^fs.blockShift ≤ 2^63 := by
  obtain ⟨_,room,ag,volume⟩ := f.stored r mem
  have group := f.group
  have unit := Nat.two_pow_pos fs.blockShift
  have fits : r.startblock % 2^fs.agblkShift + d < 2^fs.agblkShift := by omega
  have inGroup : r.startblock % 2^fs.agblkShift + d + 1 ≤ fs.agblocks := by omega
  have number : (r.startblock + d) / 2^fs.agblkShift = r.startblock / 2^fs.agblkShift ∧
      (r.startblock + d) % 2^fs.agblkShift = r.startblock % 2^fs.agblkShift + d := by
    have whole := Nat.div_add_mod r.startblock (2^fs.agblkShift)
    refine Nat.div_mod_unique (Nat.two_pow_pos _) |>.mpr ⟨by omega,fits⟩
  unfold XfsInfo.fsblockToBytes XfsInfo.agnumberToBytes XfsInfo.agblockToBytes XfsInfo.linear
  rw [number.1,number.2,Nat.mod_eq_of_lt ag]
  generalize r.startblock / 2^fs.agblkShift = agno at *
  generalize r.startblock % 2^fs.agblkShift = agbno at *
  have word : agbno + d < 2^32 := by omega
  have upTo : (agno*fs.agblocks + agbno + d + 1)*2^fs.blockShift ≤ (agno + 1)*fs.agblocks*2^fs.blockShift := by
    refine Nat.mul_le_mul_right _ ?_
    rw [Nat.add_mul,Nat.one_mul]
    omega
  have parts : (agno*fs.agblocks + agbno + d + 1)*2^fs.blockShift =
      agno*fs.agblocks*2^fs.blockShift + (agbno + d)*2^fs.blockShift + 2^fs.blockShift := by ring
  have large : agno*fs.agblocks ≤ agno*fs.agblocks*2^fs.blockShift := Nat.le_mul_of_pos_right _ unit
  rw [Nat.mod_eq_of_lt word,Nat.mod_eq_of_lt (show agno*fs.agblocks < 2^64 by omega),
    Nat.mod_eq_of_lt (show agno*fs.agblocks*2^fs.blockShift < 2^64 by omega),
    Nat.mod_eq_of_lt (show (agbno + d)*2^fs.blockShift < 2^64 by omega),Nat.mod_eq_of_lt (by omega)]
  exact ⟨by ring,by omega⟩

theorem recordLen (shifts : 9 ≤ fs.sectorShift ∧ fs.sectorShift ≤ fs.blockShift ∧ fs.blockShift ≤ 15) {r : Irec}
    (narrow : r.blockcount < 2^21) (prev : Extent) :
    (recExtent fs prev r).len = r.blockcount*fs.unit ∧ r.blockcount*fs.unit < 2^28 := by
  have sectors := unitSectors shifts
  have some' : 0 < fs.unit := Nat.two_pow_pos _
  have size : 0 < 2^fs.sectorShift := Nat.two_pow_pos _
  have size' : 2^fs.sectorShift ≤ 2^16 := Nat.pow_le_pow_right (by decide) (by omega)
  have few : fs.unit ≤ 2^7 := by
    unfold XfsInfo.unit
    exact Nat.pow_le_pow_right (by decide) (by omega)
  have length : r.blockcount*fs.unit < 2^28 := by
    have := Nat.mul_lt_mul_of_lt_of_le narrow few (by omega)
    omega
  have bytes : r.blockcount*fs.unit*2^fs.sectorShift < 2^44 := by
    have := Nat.mul_lt_mul_of_lt_of_le length size' (by omega)
    omega
  refine ⟨?_,length⟩
  simp only [recExtent]
  rw [sectors,← Nat.mul_assoc,Nat.add_sub_assoc size,
    Nat.mod_eq_of_lt (show r.blockcount*fs.unit*2^fs.sectorShift + (2^fs.sectorShift - 1) < 2^64 by omega),
    Nat.mul_comm (_*fs.unit),
    Nat.mul_add_div size,Nat.div_eq_of_lt (show 2^fs.sectorShift - 1 < 2^fs.sectorShift by omega),Nat.add_zero]
  exact Nat.mod_eq_of_lt (by omega)

theorem recordStart (f : XfsFile fs ino core recs) {r : Irec} (mem : r ∈ recs) (prev : Extent) :
    (recExtent fs prev r).pstart = fs.linear r.startblock*fs.unit ∧
    fs.linear r.startblock*fs.unit + r.blockcount*fs.unit < 2^62 := by
  have sectors := unitSectors f.shifts
  have positive := (f.stored r mem).1
  obtain ⟨place,_⟩ := recordPlace f mem positive
  obtain ⟨_,last⟩ := recordPlace f mem (show r.blockcount - 1 < r.blockcount by omega)
  rw [Nat.add_assoc,Nat.sub_add_cancel positive] at last
  rw [Nat.add_zero,Nat.add_zero] at place
  have size : 2^9 ≤ 2^fs.sectorShift := Nat.pow_le_pow_right (by decide) f.shifts.1
  have below : fs.linear r.startblock*2^fs.blockShift < 2^64 := by
    have := Nat.mul_le_mul_right (2^fs.blockShift) (Nat.le_add_right (fs.linear r.startblock) r.blockcount)
    omega
  constructor
  · rw [recExtent,XfsInfo.blockOf,place,Nat.mul_div_cancel _ (Nat.two_pow_pos _)]
    simp only [Nat.mod_eq_of_lt below]
    rw [sectors,← Nat.mul_assoc,Nat.mul_div_cancel _ (by omega)]
  · rw [sectors,← Nat.mul_assoc] at last
    have := Nat.mul_le_mul_left ((fs.linear r.startblock + r.blockcount)*fs.unit) size
    rw [← Nat.add_mul]
    omega

theorem sectorReal {start k : Nat} (room : start + k < 2^62) :
    Getfssec.nextPsector start k = start + k ∧ start + k ≠ extentZero := by
  rw [Getfssec.nextPsector,if_neg (by unfold extentVoid; omega),Nat.mod_eq_of_lt (by omega)]
  exact ⟨rfl,by unfold extentZero; omega⟩

theorem recordRight (f : XfsFile fs ino core recs) {r : Irec} (mem : r ∈ recs) (narrow : r.blockcount < 2^21)
    (prev : Extent)
    (size : Nat) : Right fs recs size ⟨r.startoff*fs.unit,0,recExtent fs prev r⟩ := by
  obtain ⟨pstart,room⟩ := recordStart f mem prev
  obtain ⟨len,_⟩ := recordLen f.shifts narrow prev
  have some' : 0 < fs.unit := Nat.two_pow_pos _
  refine ⟨rfl,?_⟩
  simp only [len,pstart]
  refine ⟨Nat.mul_pos (f.stored r mem).1 some',fun k inside _ => Or.inl ⟨r,mem,?_⟩⟩
  have block : k / fs.unit < r.blockcount := (Nat.div_lt_iff_lt_mul some').mpr inside
  have place : fs.fileBlock (r.startoff*fs.unit + k) = r.startoff + k / fs.unit := by
    rw [XfsInfo.fileBlock,← XfsInfo.unit,Nat.mul_comm,Nat.mul_add_div some']
  have rest : fs.inBlock (r.startoff*fs.unit + k) = k % fs.unit := by
    rw [XfsInfo.inBlock,← XfsInfo.unit,Nat.mul_comm,Nat.mul_add_mod]
  have split := Nat.div_add_mod k fs.unit
  have spans : r.Spans (r.startoff + k / fs.unit) := ⟨Nat.le_add_right _ _,Nat.add_lt_add_left block _⟩
  simp only [place,rest,(sectorReal (show fs.linear r.startblock*fs.unit + k < 2^62 by omega)).1]
  refine ⟨spans,?_⟩
  rw [Nat.add_sub_cancel_left,(recordPlace f mem block).1,unitSectors f.shifts,← Nat.mul_assoc,
    Nat.mul_div_cancel _ (Nat.two_pow_pos _),Nat.add_mul,Nat.add_assoc,Nat.mul_comm (k / fs.unit),split]

theorem holeWrong (f : XfsFile fs ino core recs) {r : Irec} (mem : r ∈ recs) (prev : Extent) {size lstart : Nat}
    (below : lstart*2^fs.sectorShift < size) (hole : ∀ s ∈ recs, ¬ s.Spans (fs.fileBlock lstart)) :
    ¬ Right fs recs size ⟨lstart,0,recExtent fs prev r⟩ := by
  obtain ⟨pstart,room⟩ := recordStart f mem prev
  rintro ⟨_,some',right⟩
  obtain ⟨here,real⟩ := sectorReal (show fs.linear r.startblock*fs.unit + 0 < 2^62 by omega)
  rcases right 0 some' below with ⟨s,mem',spans,_⟩ | ⟨_,zero⟩
  · exact hole s mem' spans
  · simp only [pstart] at zero
    exact real (here.symm.trans zero)

end

section
variable {fs : XfsInfo} {ino : Nat} {core : Nat → UInt8} {recs : List Irec}

theorem extentsFork (f : XfsFile fs ino core recs) (extents : (core 5).toNat = fmtExtents) : ExtentsFork core recs := by
  rcases f.fork with ⟨_,fork⟩ | ⟨btree,_⟩
  · exact fork
  · rw [extents] at btree
    cases btree

theorem narrowRecord (src : Nat → UInt8) (off : Nat) : (bmbtIrecGet src off).blockcount < 2^21 := by
  unfold bmbtIrecGet
  exact Nat.mod_lt _ (Nat.two_pow_pos 21)

theorem forkNarrow (fork : ExtentsFork core recs) {r : Irec} (mem : r ∈ recs) : r.blockcount < 2^21 := by
  obtain ⟨i,at'⟩ := List.mem_iff_getElem?.mp mem
  rw [← fork i r at']
  exact narrowRecord _ _

theorem answerRecord (f : XfsFile fs ino core recs) (extents : (core 5).toNat = fmtExtents) (turns : Nat)
    {inode : XfsInode} {r : Irec}
    (at' : recs[inode.curExtent]? = some r) (prev : Extent) (lstart : Nat) : xfsNextExtent fs turns ino inode prev lstart =
      some (0,recExtent fs prev r,⟨inode.curExtent + 1,r.startoff⟩) := by
  obtain ⟨inside,_⟩ := List.getElem?_eq_some_iff.mp at'
  have word := be32Word core 76
  rw [f.count] at word
  have next : add32 inode.curExtent 1 = inode.curExtent + 1 := Nat.mod_eq_of_lt (by omega)
  simp only [xfsNextExtent,f.inode,f.count,if_neg (Nat.ne_of_lt inside),if_pos extents,extentsFork f extents _ _ at',next]

theorem answerEnd (f : XfsFile fs ino core recs) (turns : Nat) {inode : XfsInode} (done : inode.curExtent = recs.length)
    (prev : Extent) (lstart : Nat) : xfsNextExtent fs turns ino inode prev lstart = some (-1,prev,inode) := by
  simp only [xfsNextExtent,f.inode,f.count,if_pos done]

def firstChild (fs : XfsInfo) (core : Nat → UInt8) : Nat :=
  fs.blockOf (be64 core (literalArea + sizeofBmdrBlock + xfsBmdrMaxrecs (dforkSize fs core)*8))

theorem answerTree (f : XfsFile fs ino core recs) (btree : (core 5).toNat = fmtBtree) (turns : Nat) {inode : XfsInode}
    (more : inode.curExtent ≠ recs.length) (prev : Extent) (lstart : Nat) : xfsNextExtent fs turns ino inode prev lstart =
      ((findLeaf fs turns (firstChild fs core)).bind (findRec fs turns inode.curExtent)).map fun r =>
        (0,recExtent fs prev r,⟨add32 inode.curExtent 1,r.startoff⟩) := by
  have notExtents : (core 5).toNat ≠ fmtExtents := by
    rw [btree]
    decide
  simp only [xfsNextExtent,f.inode,f.count,if_neg more,if_neg notExtents,if_pos btree]
  rfl

theorem findRecNarrow (turns index : Nat) (blk : Nat → UInt8) {r : Irec} (found : findRec fs turns index blk = some r) :
    r.blockcount < 2^21 := by
  induction turns generalizing index blk with
  | zero => cases found
  | succ turns ih =>
    simp only [findRec] at found
    split at found
    · cases found
      exact narrowRecord _ _
    · exact ih _ _ found

theorem answerBounded (f : XfsFile fs ino core recs) (disk : Nat → Nat → UInt8) (turns : Nat) :
    Getfssec.BoundedTo (Getfssec.logged (xfsFs fs disk turns ino)) (2^23) := by
  rintro ⟨inode,log⟩ prev lstart inside ok
  simp only [Getfssec.logged,xfsFs] at ok ⊢
  have short : ∀ r : Irec, r.blockcount < 2^21 → lstart + (recExtent fs prev r).len < 2^32 := by
    intro r narrow
    obtain ⟨len,less⟩ := recordLen f.shifts narrow prev
    omega
  by_cases done : inode.curExtent = recs.length
  · rw [answerEnd f turns done] at ok
    cases ok
  rcases f.fork with ⟨extents,_⟩ | ⟨btree,_⟩
  · simp only [xfsNextExtent,f.inode,f.count,if_neg done,if_pos extents,Option.getD_some]
    exact short _ (narrowRecord _ _)
  · rw [answerTree f btree turns done] at ok ⊢
    cases walk : (findLeaf fs turns (firstChild fs core)).bind (findRec fs turns inode.curExtent) with
    | none =>
      rw [walk] at ok
      cases ok
    | some r =>
      obtain ⟨leaf,_,found⟩ := Option.bind_eq_some_iff.mp walk
      exact short r (findRecNarrow turns _ leaf found)

theorem sectorWord (shifts : 9 ≤ fs.sectorShift ∧ fs.sectorShift ≤ fs.blockShift ∧ fs.blockShift ≤ 15)
    {disk : Nat → Nat → UInt8} {turns size p : Nat} (inside : p < Getfssec.sectorsOf (xfsFs fs disk turns ino) size) :
    p < 2^23 := by
  have low : p*2^fs.sectorShift < size % 2^32 := Getfssec.sectorsBelow inside
  have word := Nat.mod_lt size (Nat.two_pow_pos 32)
  have := Nat.mul_le_mul_left p (Nat.pow_le_pow_right (show 0 < 2 by decide) shifts.1)
  omega

structure Reached (fs : XfsInfo) (recs : List Irec) (size p : Nat) (pvt : XfsInode × List Ask) : Prop where
  most : pvt.1.curExtent ≤ recs.length
  here : p = starts recs pvt.1.curExtent*fs.unit
  inStep : InStep recs pvt.1.curExtent
  right : ∀ ask ∈ pvt.2, Right fs recs size ask

/- One turn: while a record covers the sector the answer is right, in a hole it is not. -/
theorem reachedStep (f : XfsFile fs ino core recs) (extents : (core 5).toNat = fmtExtents) (disk : Nat → Nat → UInt8)
    (turns : Nat)
    {size p : Nat} {pvt : XfsInode × List Ask} (reached : Reached fs recs size p pvt)
    (inside : p < Getfssec.sectorsOf (xfsFs fs disk turns ino) size) (prev : Extent) {rv : Int} {e : Extent}
    {pvt' : XfsInode × List Ask} (call : (Getfssec.logged (xfsFs fs disk turns ino)).nextExtent pvt prev p = (rv,e,pvt')) :
    (∃ r ∈ recs, r.Spans (fs.fileBlock p)) ∧ rv = 0 ∧ 0 < e.len ∧ p + e.len < 2^32 ∧ Reached fs recs size (p + e.len) pvt' ∨
    (∀ r ∈ recs, ¬ r.Spans (fs.fileBlock p)) ∧ ∃ ask ∈ pvt'.2, ¬ Right fs recs size ask := by
  have some' : 0 < fs.unit := Nat.two_pow_pos _
  have low := Getfssec.sectorsBelow inside
  have inFile : p*2^fs.sectorShift < size := Nat.lt_of_lt_of_le low (Nat.mod_le _ _)
  have word : p < 2^23 := sectorWord f.shifts inside
  have fork := extentsFork f extents
  have block : fs.fileBlock p = starts recs pvt.1.curExtent := by
    rw [XfsInfo.fileBlock,← XfsInfo.unit,reached.here,Nat.mul_div_cancel _ some']
  simp only [Getfssec.logged,xfsFs] at call
  by_cases covered : ∃ r ∈ recs, r.Spans (fs.fileBlock p)
  · obtain ⟨r,at',start⟩ := coveredNext f.sorted reached.inStep (fun r mem => (f.stored r mem).1) (block ▸ covered)
    have mem := List.mem_of_getElem? at'
    have positive := (f.stored r mem).1
    obtain ⟨len,short⟩ := recordLen f.shifts (forkNarrow fork mem) prev
    rw [answerRecord f extents turns at'] at call
    cases call
    simp only [Option.getD_some,len]
    refine Or.inl ⟨covered,trivial,Nat.mul_pos positive some',by omega,?_,?_,inStepSucc reached.inStep at' start,?_⟩
    · exact (List.getElem?_eq_some_iff.mp at').1
    · rw [startsSucc at',Nat.add_mul,← reached.here]
    · intro ask mem'
      rcases List.mem_append.mp mem' with earlier | here
      · exact reached.right ask earlier
      · rw [List.mem_singleton.mp here,reached.here,← start]
        exact recordRight f mem (forkNarrow fork mem) prev size
  · have hole : ∀ r ∈ recs, ¬ r.Spans (fs.fileBlock p) := fun r mem spans => covered ⟨r,mem,spans⟩
    refine Or.inr ⟨hole,⟨p,rv,e⟩,?_,?_⟩
    · cases call
      exact List.mem_append_right _ (List.mem_singleton.mpr rfl)
    · rcases Nat.lt_or_eq_of_le reached.most with more | done
      · have at' : recs[pvt.1.curExtent]? = some recs[pvt.1.curExtent] := List.getElem?_eq_getElem more
        rw [answerRecord f extents turns at'] at call
        cases call
        exact holeWrong f (List.getElem_mem _) prev inFile hole
      · rw [answerEnd f turns done] at call
        cases call
        rintro ⟨ok,_⟩
        cases ok

def Failed (fs : XfsInfo) (recs : List Irec) (size : Nat) (pvt : XfsInode × List Ask) : Prop :=
  ∃ ask ∈ pvt.2, ¬ Right fs recs size ask

theorem reachedStart (size : Nat) : Reached fs recs size 0 (openInode,[]) := by
  refine ⟨Nat.zero_le _,?_,?_,?_⟩
  · simp [openInode,starts]
  · intro j r less
    exact absurd less (Nat.not_lt_zero _)
  · intro ask none'
    exact absurd none' List.not_mem_nil

theorem reachedFollows (f : XfsFile fs ino core recs) (extents : (core 5).toNat = fmtExtents) (disk : Nat → Nat → UInt8)
    (turns size : Nat) : Getfssec.Follows (Getfssec.logged (xfsFs fs disk turns ino))
      (Getfssec.sectorsOf (xfsFs fs disk turns ino) size) (Reached fs recs size) (Failed fs recs size) where
  step := by
    intro p pvt prev reached inside
    rcases reachedStep f extents disk turns reached inside prev rfl with ⟨_,ok⟩ | ⟨_,wrong⟩
    · exact Or.inr ok
    · exact Or.inl wrong
  keep := by
    rintro p pvt prev ⟨ask,mem,wrong⟩ _
    exact ⟨ask,List.mem_append_left _ mem,wrong⟩

theorem coveredFollows (f : XfsFile fs ino core recs) (extents : (core 5).toNat = fmtExtents) {disk : Nat → Nat → UInt8}
    (turns : Nat) {size : Nat} (covered : Covered fs recs disk ino size) :
    Getfssec.Follows (Getfssec.logged (xfsFs fs disk turns ino)) (Getfssec.sectorsOf (xfsFs fs disk turns ino) size)
      (Reached fs recs size) fun _ => False where
  step := by
    intro p pvt prev reached inside
    rcases reachedStep f extents disk turns reached inside prev rfl with ⟨_,ok⟩ | ⟨hole,_⟩
    · exact Or.inr ok
    · obtain ⟨r,mem,spans⟩ := covered p inside
      exact absurd spans (hole r mem)
  keep := by
    intro _ _ _ none'
    exact none'.elim

theorem coveredServes (f : XfsFile fs ino core recs) (extents : (core 5).toNat = fmtExtents) {disk : Nat → Nat → UInt8}
    {size : Nat}
    (covered : Covered fs recs disk ino size) : ServesAll fs recs disk ino size := by
  refine ⟨0,fun turns _ ask ⟨counts,file,counted,run,mem⟩ => ?_⟩
  by_cases fits : size % 2^32 + (2^fs.sectorShift - 1) < 2^32
  · have follows := coveredFollows f extents turns covered
    cases (Getfssec.readAlong follows rfl fits (Getfssec.openedReading (Or.inl (reachedStart size))) run).along with
    | turned is => exact is.elim
    | last _ is _ => exact is.right ask mem
    | ahead _ is _ _ => exact is.right ask mem
  · have wide : fs.sectorShift < 32 := by
      have := f.shifts
      omega
    rw [Getfssec.readNothing wide (Nat.le_of_not_lt fits) counted] at run
    cases run
    exact absurd mem List.not_mem_nil

/- When all answers are right, what holds of the place does so behind the last sector. -/
theorem servedReads (f : XfsFile fs ino core recs) {disk : Nat → Nat → UInt8} {turns size total : Nat}
    (total' : Getfssec.sectorsOf (xfsFs fs disk turns ino) size = total) (some' : 0 < total)
    {good : Nat → XfsInode × List Ask → Prop}
    (follows : Getfssec.Follows (Getfssec.logged (xfsFs fs disk turns ino)) total good (Failed fs recs size))
    (start : good 0 (openInode,[])) (serves : ∀ ask, Getfssec.Asked (xfsFs fs disk turns ino) size openInode ask →
      Right fs recs size ask) :
    ∃ p pvt, total ≤ p ∧ good p pvt := by
  have word : total ≤ 2^23 := by
    have := sectorWord f.shifts (show total - 1 < Getfssec.sectorsOf (xfsFs fs disk turns ino) size by omega)
    omega
  have bounded : Getfssec.BoundedTo (Getfssec.logged (xfsFs fs disk turns ino)) total :=
    fun pvt prev lstart less => answerBounded f disk turns pvt prev lstart (by omega)
  have fits : size % 2^32 + ((xfsFs fs disk turns ino).sectorSize - 1) < 2^32 := Getfssec.sectorsFit (by omega)
  obtain ⟨r,call,along,ends⟩ := Getfssec.wholeRead follows bounded total' fits start some' (Nat.le_refl total)
  have asked : ∀ ask ∈ r.file.inode.pvt.2, Right fs recs size ask := by
    intro ask mem
    refine serves ask ⟨[total],r.file,?_,?_,mem⟩
    · intro n only
      rw [List.mem_singleton.mp only]
      omega
    · rw [Getfssec.readOn,call]
      rfl
  have right : ¬ Failed fs recs size r.file.inode.pvt := by
    rintro ⟨ask,mem,wrong⟩
    exact wrong (asked ask mem)
  have place := ends.resolve_right right
  cases along with
  | turned is => exact absurd is right
  | last _ is _ => exact ⟨_,_,by rw [Getfssec.Extent.end']; omega,is⟩
  | ahead _ is behind _ => exact ⟨_,_,by rw [Getfssec.Extent.end',behind,Getfssec.Extent.end']; omega,is⟩

theorem servesCovered (f : XfsFile fs ino core recs) (extents : (core 5).toNat = fmtExtents) {disk : Nat → Nat → UInt8}
    {size : Nat}
    (serves : ServesAll fs recs disk ino size) : Covered fs recs disk ino size := by
  obtain ⟨enough,serves⟩ := serves
  intro sector (inside : sector < Getfssec.sectorsOf (xfsFs fs disk enough ino) size)
  obtain ⟨p,pvt,upTo,reached⟩ := servedReads f rfl (by omega) (reachedFollows f extents disk enough size)
    (reachedStart size)
    (serves enough (Nat.le_refl _))
  refine inStepCovers reached.inStep reached.most ?_
  rw [XfsInfo.fileBlock,Nat.div_lt_iff_lt_mul (Nat.two_pow_pos _),← XfsInfo.unit,← reached.here]
  omega

theorem headerEmpty (shifts : 9 ≤ fs.sectorShift ∧ fs.sectorShift ≤ fs.blockShift ∧ fs.blockShift ≤ 15) {leaf : Nat → UInt8}
    (sibling : be64 leaf 16 < 2^32) (prev : Extent) : (recExtent fs prev (bmbtIrecGet leaf sizeofBmdrBlock)).len = 0 := by
  have high : be32 leaf 16 = 0 := by
    unfold be64 at sibling
    omega
  have none' : (bmbtIrecGet leaf sizeofBmdrBlock).blockcount = 0 := by
    simp only [bmbtIrecGet,sizeofBmdrBlock,be64,high]
    omega
  rw [(recordLen shifts (narrowRecord leaf _) prev).1,none',Nat.zero_mul]

theorem answerHeader (f : XfsFile fs ino core recs) (btree : (core 5).toNat = fmtBtree) (disk : Nat → Nat → UInt8)
    {turns : Nat}
    (found : ∀ leaf, findLeaf fs turns (firstChild fs core) = some leaf → 0 < be16 leaf 6 ∧ be64 leaf 16 < 2^32)
    (prev : Extent) :
    ((xfsFs fs disk turns ino).nextExtent openInode prev 0).1 ≠ 0 ∨
      ((xfsFs fs disk turns ino).nextExtent openInode prev 0).2.1.len = 0 := by
  simp only [xfsFs]
  by_cases empty : openInode.curExtent = recs.length
  · rw [answerEnd f turns empty]
    exact Or.inl (by simp)
  rw [answerTree f btree turns empty]
  cases walk : findLeaf fs turns (firstChild fs core) with
  | none => exact Or.inl (by simp)
  | some leaf =>
    obtain ⟨records,sibling⟩ := found leaf walk
    cases turns with
    | zero => cases walk
    | succ turns =>
      have more : 0 < sub32 (be16 leaf 6) 0 := by
        rw [sub32Eq (Nat.zero_le _)]
        exact records
      have first : findRec fs (turns + 1) openInode.curExtent leaf = some (bmbtIrecGet leaf sizeofBmdrBlock) := by
        simp only [findRec,openInode,if_pos more,Nat.zero_mul,Nat.add_zero]
      rw [Option.bind_some,first]
      exact Or.inr (headerEmpty f.shifts sibling prev)

theorem treeNotServed (f : XfsFile fs ino core recs) (btree : (core 5).toNat = fmtBtree) {disk : Nat → Nat → UInt8}
    {size : Nat}
    (read : 0 < Getfssec.sectorsOf (xfsFs fs disk 0 ino) size)
    (found : ∀ turns leaf, findLeaf fs turns (firstChild fs core) = some leaf → 0 < be16 leaf 6 ∧ be64 leaf 16 < 2^32) :
    ¬ ServesAll fs recs disk ino size := by
  rintro ⟨enough,serves⟩
  have read : 0 < Getfssec.sectorsOf (xfsFs fs disk enough ino) size := read
  have follows : Getfssec.Follows (Getfssec.logged (xfsFs fs disk enough ino))
      (Getfssec.sectorsOf (xfsFs fs disk enough ino) size) (fun p pvt => p = 0 ∧ pvt = (openInode,[]))
      (Failed fs recs size) := by
    refine ⟨?_,?_⟩
    · rintro p pvt prev ⟨rfl,rfl⟩ _
      refine Or.inl ⟨_,List.mem_singleton.mpr rfl,fun ⟨ok,some',_⟩ => ?_⟩
      rcases answerHeader f btree disk (found enough) prev with failed | none'
      · exact failed ok
      · exact Nat.ne_of_gt some' none'
    · rintro p pvt prev ⟨ask,mem,wrong⟩ _
      exact ⟨ask,List.mem_append_left _ mem,wrong⟩
  obtain ⟨p,pvt,upTo,first,_⟩ := servedReads f rfl read follows ⟨rfl,rfl⟩ (serves enough (Nat.le_refl _))
  rw [first] at upTo
  exact absurd upTo (Nat.not_le_of_lt read)

/- A file with its records in the inode is served exactly when no hole is read. One with a
tree is not, as long as the leaf has a sibling. -/
theorem xfsServed (f : XfsFile fs ino core recs) (disk : Nat → Nat → UInt8) (size : Nat) :
    ((core 5).toNat = fmtExtents → (ServesAll fs recs disk ino size ↔ Covered fs recs disk ino size)) ∧
    ((core 5).toNat = fmtBtree → 0 < Getfssec.sectorsOf (xfsFs fs disk 0 ino) size →
      (∀ turns leaf, findLeaf fs turns (firstChild fs core) = some leaf → 0 < be16 leaf 6 ∧ be64 leaf 16 < 2^32) →
      ¬ ServesAll fs recs disk ino size) :=
  ⟨fun extents => ⟨servesCovered f extents,coveredServes f extents⟩,
    fun btree read found => treeNotServed f btree read found⟩

end

/- A volume with the inode in block 0, and two leaves in blocks 1 and 2. -/
def sparse (bytes : List (Nat × UInt8)) (i : Nat) : UInt8 := (bytes.lookup i).getD 0

def smallInfo (core : Nat → UInt8) : XfsInfo where
  blockShift := 12
  sectorShift := 9
  agblkShift := 10
  agblocks := 1000
  inopbShift := 4
  inodeShift := 8
  inodesize := 256
  getCache := fun
    | 0 => core
    | 1 => sparse [(7,1),(8,255),(9,255),(10,255),(11,255),(12,255),(13,255),(14,255),(15,255),(23,2),(37,160),(39,1)]
    | _ => sparse [(7,1),(15,1),(16,255),(17,255),(18,255),(19,255),(20,255),(21,255),(22,255),(23,255),(30,2),(37,192),
      (39,1)]

/- One record in the inode, for block 0 of the file or the one behind a hole. -/
def smallExtents (twice : UInt8) : Nat → UInt8 := sparse [(0,73),(1,78),(5,2),(79,1),(106,twice),(113,160),(115,1)]
def smallBtree : Nat → UInt8 := sparse [(0,73),(1,78),(5,3),(79,2),(101,1),(103,2),(183,1),(191,2)]

theorem smallInode (core : Nat → UInt8) (magic : be16 core 0 = 0x494E) :
    xfsDinodeGetCore (smallInfo core) 0 = some core := by
  have first : (fun i => core (0 + i)) = core := funext fun i => by rw [Nat.zero_add]
  have place : (smallInfo core).inoToBytes 0 / 2^(smallInfo core).blockShift = 0 := by
    simp [XfsInfo.inoToBytes,XfsInfo.agnumberToBytes,XfsInfo.agblockToBytes]
  have block : (smallInfo core).getCache 0 = core := rfl
  simp only [xfsDinodeGetCore,place,block,Nat.zero_mod,Nat.zero_mul,if_neg (Nat.not_lt_zero _),first,magic,ne_eq,
    not_true_eq_false,
    if_false]

theorem smallStored (core : Nat → UInt8) {r : Irec} (block : r.startblock = 5 ∨ r.startblock = 6) (one : r.blockcount = 1) :
    0 < r.blockcount ∧ r.startblock % 2^(smallInfo core).agblkShift + r.blockcount ≤
      min (smallInfo core).agblocks (2^(smallInfo core).agblkShift) ∧ r.startblock / 2^(smallInfo core).agblkShift < 2^32 ∧
      (r.startblock / 2^(smallInfo core).agblkShift + 1)*(smallInfo core).agblocks*2^(smallInfo core).blockShift ≤
        2^63 := by
  simp only [smallInfo,one]
  rcases block with five | six
  · rw [five]
    decide
  · rw [six]
    decide

theorem smallFile {r : Irec} {twice : UInt8} (either : twice = 0 ∧ r = ⟨0,5,1⟩ ∨ twice = 2 ∧ r = ⟨1,5,1⟩) :
    XfsFile (smallInfo (smallExtents twice)) 0 (smallExtents twice) [r] := by
  have values : be16 (smallExtents twice) 0 = 0x494E ∧ be32 (smallExtents twice) 76 = 1 ∧
    (smallExtents twice 5).toNat = fmtExtents ∧
      bmbtIrecGet (smallExtents twice) 100 = r ∧ r.startblock = 5 ∧ r.blockcount = 1 := by
    rcases either with ⟨rfl,rfl⟩ | ⟨rfl,rfl⟩ <;> decide
  obtain ⟨magic,count,extents,stored,startblock,blockcount⟩ := values
  refine ⟨by simp only [smallInfo]; decide,smallInode _ magic,count,List.pairwise_singleton _ _,?_,
    by simp only [smallInfo]; decide,
    Or.inl ⟨extents,?_⟩⟩
  · intro s mem
    rw [List.mem_singleton.mp mem]
    exact smallStored _ (Or.inl startblock) blockcount
  · intro i s at'
    cases i with
    | zero =>
      cases at'
      exact stored
    | succ i => cases at'

theorem smallTree : BtreeFork (smallInfo smallBtree) smallBtree [1,2] [⟨0,5,1⟩,⟨1,6,1⟩] := by
  refine ⟨⟨0,by decide,[[1],[2]],by decide,by decide,rfl,?_⟩,by decide,?_,?_,by decide⟩
  · intro i child at'
    match i with
    | 0 =>
      cases at'
      exact ⟨by decide,by decide⟩
    | 1 =>
      cases at'
      exact ⟨by decide,by decide⟩
    | i + 2 => cases at'
  · intro i fsb at'
    match i with
    | 0 =>
      cases at'
      decide
    | 1 =>
      cases at'
      decide
    | i + 2 => cases at'
  · intro i fsb at'
    match i with
    | 0 =>
      cases at'
      decide
    | 1 =>
      cases at'
      decide
    | i + 2 => cases at'

theorem smallTreeFile : XfsFile (smallInfo smallBtree) 0 smallBtree [⟨0,5,1⟩,⟨1,6,1⟩] := by
  refine ⟨by decide,smallInode _ (by decide),by decide,by decide,?_,by decide,
    Or.inr ⟨by decide,[1,2],smallTree⟩⟩
  intro r mem
  have either : r = ⟨0,5,1⟩ ∨ r = ⟨1,6,1⟩ := by simpa using mem
  rcases either with rfl | rfl
  · exact smallStored _ (Or.inl rfl) rfl
  · exact smallStored _ (Or.inr rfl) rfl

theorem xfsServedSmall : ServesAll (smallInfo (smallExtents 0)) [⟨0,5,1⟩] (fun _ _ => 0) 0 4096 ∧
    ¬ ServesAll (smallInfo smallBtree) [⟨0,5,1⟩,⟨1,6,1⟩] (fun _ _ => 0) 0 8192 := by
  constructor
  · have f : XfsFile (smallInfo (smallExtents 0)) 0 (smallExtents 0) [⟨0,5,1⟩] := smallFile (Or.inl ⟨rfl,rfl⟩)
    refine ((xfsServed f (fun _ _ => 0) 4096).1 (by decide)).mpr ?_
    have total : Getfssec.sectorsOf (xfsFs (smallInfo (smallExtents 0)) (fun _ _ => 0) 0 0) 4096 = 8 := rfl
    intro sector inside
    rw [total] at inside
    have block : (smallInfo (smallExtents 0)).fileBlock sector = sector / 8 := rfl
    refine ⟨⟨0,5,1⟩,List.mem_singleton.mpr rfl,?_⟩
    rw [block,Nat.div_eq_of_lt inside]
    decide
  · refine (xfsServed smallTreeFile (fun _ _ => 0) 8192).2 (by decide) (by decide) ?_
    intro turns leaf found
    have child : firstChild (smallInfo smallBtree) smallBtree = 1 := by decide
    have level : be16 ((smallInfo smallBtree).getCache 1) 4 = 0 := by decide
    cases turns with
    | zero => cases found
    | succ turns =>
      rw [child] at found
      simp only [findLeaf,if_pos level] at found
      cases found
      decide

/- The hole at the start is given the record behind it. -/
theorem holeSkipped : ¬ ∀ (fs : XfsInfo) (ino : Nat) (core : Nat → UInt8) (recs : List Irec) (disk : Nat → Nat → UInt8)
    (size : Nat),
    XfsFile fs ino core recs → ServesAll fs recs disk ino size := by
  intro claim
  have f : XfsFile (smallInfo (smallExtents 2)) 0 (smallExtents 2) [⟨1,5,1⟩] := smallFile (Or.inr ⟨rfl,rfl⟩)
  obtain ⟨r,mem,spans⟩ := servesCovered f (by decide) (claim _ 0 _ _ (fun _ _ => 0) 8192 f) 0 (by decide)
  rw [List.mem_singleton.mp mem] at spans
  exact absurd spans (by decide)

end Syslinux.Xfs
