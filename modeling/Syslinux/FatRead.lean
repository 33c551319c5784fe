import Syslinux.FatExtent
import Syslinux.GetfssecFailure

/-! Reading a FAT file with generic_getfssec when its cluster chain ends before its size:
fat_next_extent shortens the inode, which the reader looks at again in the next call only. -/
namespace Syslinux.Fat
open Getfssec

/- The size of an inode is one field in the C code: in a call next_extent writes the one in
FatInode, and generic_getfssec takes it over for the next call. -/
def fatFs (v : Volume) : Fs FatInode where
  sectorShift := v.sectorShift
  nextExtent pvt prev lstart :=
    let (rv,inode) := fatNextExtent v { pvt with nextExtent := prev } lstart
    (rv,inode.nextExtent,inode)
  disk := v.disk

def fatGetfssec (v : Volume) (file : File FatInode) (sectors : Nat) : Option (Result FatInode) := do
  let r ← genericGetfssec (fatFs v) file sectors
  some { r with file := { r.file with inode := { r.file.inode with size := r.file.inode.pvt.size } } }

def fatFile (v : Volume) (size first : Nat) : File FatInode := ⟨0,⟨size,⟨0,0,0⟩,⟨0,0,0⟩,openFile v size first⟩⟩

/- What a caller has after some calls: the bytes, its have_more and the file. -/
structure Reader where
  out : List UInt8
  haveMore : Bool
  file : File FatInode

def readOn (v : Volume) (r : Reader) (sectors : Nat) : Option Reader := do
  let call ← fatGetfssec v r.file sectors
  some ⟨r.out ++ call.buf.take call.bytesRead,call.haveMore.getD r.haveMore,call.file⟩

def reads (v : Volume) : Reader → List Nat → Option Reader
  | r,[] => some r
  | r,sectors::counts => (readOn v r sectors).bind fun r => reads v r counts

def reader (v : Volume) (size first : Nat) : Reader := ⟨[],true,fatFile v size first⟩

structure Volume.Damaged (v : Volume) (size first l : Nat) : Prop where
  word : size < 2^32
  there : ∀ i, i < l → v.Valid (v.chain first i)
  missing : ¬ v.Valid (v.chain first l)
  short : l < v.tcluster size

def Volume.existing (v : Volume) (first l : Nat) : List UInt8 :=
  (List.range (l*v.clusterBytes)).map fun p =>
    v.disk (v.sectorOf (v.chain first (p / v.clusterBytes)) + p % v.clusterBytes / v.sectorSize) (p % v.sectorSize)

def Counts (counts : List Nat) : Prop := ∀ c ∈ counts, 0 < c ∧ c < 2^31

/- What is wanted of a damaged file: the bytes that exist and no others, the size of the
inode either what it was or the number of these bytes, the offset within it, and an end of
the reading. -/
structure Delivers (v : Volume) (size first l : Nat) : Prop where
  safe : ∀ counts r, Counts counts → reads v (reader v size first) counts = some r →
    r.out <+: v.existing first l ∧ r.file.offset ≤ r.file.inode.size ∧
    (r.file.inode.size = size ∨ r.file.inode.size = l*v.clusterBytes)
  ends : ∀ counts : Nat → Nat, (∀ n, 0 < counts n ∧ counts n < 2^31) →
    ∃ n r, reads v (reader v size first) ((List.range n).map counts) = some r ∧ r.haveMore = false ∧
      r.out = v.existing first l

section
variable {v : Volume} {size first l : Nat}

theorem seekClusterBound (left lcluster pcluster : Nat) : match seekCluster v left lcluster pcluster with
    | .error n => n ≤ lcluster + left
    | .ok (n,_) => n = lcluster + left := by
  induction left generalizing lcluster pcluster with
  | zero =>
    rw [seekCluster]
    by_cases outside : v.clusters ≤ sub32 pcluster 2
    · rw [if_pos outside]
      exact Nat.le_refl _
    · rw [if_neg outside]
      rfl
  | succ left ih =>
    rw [seekCluster]
    by_cases outside : v.clusters ≤ sub32 pcluster 2
    · rw [if_pos outside]
      exact Nat.le_add_right _ _
    · rw [if_neg outside]
      have := ih (lcluster + 1) (getNextCluster v pcluster)
      rwa [Nat.add_assoc,Nat.add_comm 1] at this

theorem contiguousLen (left lcluster pcluster xcluster len : Nat) (fits : len + left*v.clusterSecs < 2^32) :
    len ≤ (contiguous v left lcluster pcluster xcluster len).2.2 ∧
      (contiguous v left lcluster pcluster xcluster len).2.2 ≤ len + left*v.clusterSecs := by
  induction left generalizing lcluster pcluster xcluster len with
  | zero => exact ⟨Nat.le_refl _,Nat.le_add_right _ _⟩
  | succ left ih =>
    rw [Nat.succ_mul] at fits ⊢
    rw [contiguous]
    by_cases next : getNextCluster v pcluster ≠ add32 pcluster 1
    · rw [if_pos next]
      exact ⟨Nat.le_refl _,Nat.le_add_right _ _⟩
    · rw [if_neg next,add32Eq (by omega : len + v.clusterSecs < 2^32)]
      have := ih (lcluster + 1) (add32 pcluster 1) (getNextCluster v pcluster) (len + v.clusterSecs) (by omega)
      omega

/- What fat_next_extent does for a sector of the file, whatever its chain is. -/
theorem fatNextExtentCases (inode : FatInode) (lstart : Nat) (fits : (v.tcluster inode.size + 1)*v.clusterSecs < 2^32)
    (below : lstart / v.clusterSecs < v.tcluster inode.size) :
    (∃ n, n ≤ lstart / v.clusterSecs ∧
      fatNextExtent v inode lstart = (-1,{ inode with size := n*v.clusterSecs % 2^32 })) ∨
    ∃ inode', fatNextExtent v inode lstart = (0,inode') ∧ inode'.size = inode.size ∧
      v.clusterSecs ≤ inode'.nextExtent.len ∧
      inode'.nextExtent.len ≤ (v.tcluster inode.size - lstart / v.clusterSecs)*v.clusterSecs := by
  rw [fatNextExtent]
  simp only [if_neg (Nat.not_le_of_lt below)]
  generalize from' : (if lstart / v.clusterSecs < inode.offset / v.clusterSecs % 2^32 ∨ inode.here < v.data then
    (0,inode.startCluster) else (inode.offset / v.clusterSecs % 2^32,(sub64 inode.here v.data / v.clusterSecs + 2) % 2^32)) = origin
  have le : origin.1 ≤ lstart / v.clusterSecs := by
    rw [← from']
    split
    · exact Nat.zero_le _
    · rename_i ahead
      exact Nat.le_of_not_lt fun less => ahead (Or.inl less)
  have seek := seekClusterBound (v := v) (lstart / v.clusterSecs - origin.1) origin.1 origin.2
  rw [Nat.add_sub_cancel' le] at seek
  cases found : seekCluster v (lstart / v.clusterSecs - origin.1) origin.1 origin.2 with
  | error n =>
    rw [found] at seek
    exact Or.inl ⟨n,seek,rfl⟩
  | ok both =>
    obtain ⟨n,pcluster⟩ := both
    rw [found] at seek
    obtain rfl : n = lstart / v.clusterSecs := seek
    have left : (v.tcluster inode.size - (lstart / v.clusterSecs + 1))*v.clusterSecs + v.clusterSecs =
        (v.tcluster inode.size - lstart / v.clusterSecs)*v.clusterSecs := by
      rw [← Nat.succ_mul]
      congr 1
      omega
    have most := Nat.mul_le_mul_right v.clusterSecs (show v.tcluster inode.size - lstart / v.clusterSecs ≤
      v.tcluster inode.size + 1 by omega)
    have len := contiguousLen (v := v) (v.tcluster inode.size - (lstart / v.clusterSecs + 1)) (lstart / v.clusterSecs)
      pcluster 0 v.clusterSecs (by omega)
    rw [Nat.add_comm v.clusterSecs,left] at len
    exact Or.inr ⟨_,rfl,rfl,len.1,len.2⟩

variable (mounted : v.Mounted)
include mounted

theorem tclusterSecs (word : size < 2^32) : (v.tcluster size + 1)*v.clusterSecs < 2^32 := by
  have bytes : v.clusterBytes ≤ 2^31 := Nat.pow_le_pow_right (by decide) (by have := mounted.cluster; omega)
  have split : v.clusterBytes = v.clusterSecs*v.sectorSize := Nat.pow_add ..
  have large := sectorSizeLarge mounted
  have whole : v.tcluster size*v.clusterBytes ≤ size + (v.clusterBytes - 1) := by
    rw [(tclusterOk mounted word).1]
    exact Nat.div_mul_le_self _ _
  have most := Nat.mul_le_mul_left ((v.tcluster size + 1)*v.clusterSecs) large
  have total : (v.tcluster size + 1)*v.clusterSecs*v.sectorSize = v.tcluster size*v.clusterBytes + v.clusterBytes := by
    rw [Nat.mul_assoc,← split,Nat.succ_mul]
  omega

theorem tclusterFailed {q lstart : Nat} (word : q*v.clusterSecs < 2^32) (behind : q*v.clusterSecs ≤ lstart) :
    v.tcluster (q*v.clusterSecs) ≤ lstart / v.clusterSecs := by
  have positive := secsPos v
  have large := sectorSizeLarge mounted
  have split : v.clusterBytes = v.clusterSecs*v.sectorSize := Nat.pow_add ..
  have enough : q ≤ lstart / v.clusterSecs := (Nat.le_div_iff_mul_le positive).mpr behind
  refine Nat.le_trans ?_ enough
  rw [(tclusterOk mounted word).1]
  refine Nat.le_of_lt_succ ((Nat.div_lt_iff_lt_mul (Nat.two_pow_pos _)).mpr ?_)
  have most : q*v.clusterSecs ≤ q*v.clusterBytes := by
    rw [split,← Nat.mul_assoc]
    exact Nat.le_mul_of_pos_right _ (Nat.two_pow_pos _)
  have some' : 0 < v.clusterBytes := Nat.two_pow_pos _
  change q*v.clusterSecs + (v.clusterBytes - 1) < (q + 1)*v.clusterBytes
  rw [Nat.succ_mul]
  omega

def Shortened (v : Volume) (k : Nat) (pvt : FatInode) : Prop :=
  ∃ q, pvt.size = q*v.clusterSecs ∧ q*v.clusterSecs ≤ k ∧ q*v.clusterSecs < 2^32

theorem fatFails (word : size < 2^32) {total : Nat} (inside : ∀ lstart, lstart < total → lstart*v.sectorSize < size) :
    FailsAfter (fatFs v) total (fun pvt => pvt.size = size) (Shortened v) := by
  have positive := secsPos v
  have bound := tclusterSecs mounted word
  refine ⟨?_,?_⟩
  · rintro pvt prev lstart rfl less
    have rest := Nat.mod_lt lstart positive
    have place := Nat.div_add_mod lstart v.clusterSecs
    rw [Nat.mul_comm] at place
    have start : lstart / v.clusterSecs*v.clusterSecs ≤ lstart := Nat.div_mul_le_self _ _
    have below : lstart / v.clusterSecs < v.tcluster pvt.size := by
      refine mclusterBelow mounted word (Nat.lt_of_le_of_lt ?_ (inside lstart less))
      exact Nat.mul_le_mul_right _ start
    have small : lstart < 2^32 := by
      have := Nat.le_mul_of_pos_right lstart (show 0 < v.sectorSize from Nat.two_pow_pos _)
      have := inside lstart less
      omega
    rcases fatNextExtentCases (v := v) { pvt with nextExtent := prev } lstart bound below with
      ⟨n,passed,call⟩ | ⟨inode,call,same,some',most⟩
    · have passed := Nat.le_trans (Nat.mul_le_mul_right v.clusterSecs passed) start
      refine Or.inr ⟨-1,prev,{ pvt with nextExtent := prev, size := n*v.clusterSecs % 2^32 },?_,by decide,n,?_,passed,by omega⟩
      · simp only [fatFs,call]
      · exact Nat.mod_eq_of_lt (by omega)
    · refine Or.inl ⟨inode.nextExtent,inode,by simp only [fatFs,call],by omega,?_,same⟩
      have whole : (v.tcluster pvt.size - lstart / v.clusterSecs)*v.clusterSecs + lstart / v.clusterSecs*v.clusterSecs =
          v.tcluster pvt.size*v.clusterSecs := by
        rw [← Nat.add_mul,Nat.sub_add_cancel (Nat.le_of_lt below)]
      rw [Nat.succ_mul] at bound
      change inode.nextExtent.len ≤ (v.tcluster pvt.size - lstart / v.clusterSecs)*v.clusterSecs at most
      omega
  · rintro pvt prev lstart ⟨q,eq,behind,word⟩
    have past := tclusterFailed mounted word behind
    refine ⟨-1,prev,{ pvt with nextExtent := prev },?_,by decide,q,eq,behind,word⟩
    simp only [fatFs,fatNextExtent,eq,if_pos past]

theorem firstRead (word : size < 2^32) (some' : 0 < size) (first : Nat) (fits : size + (v.sectorSize - 1) < 2^32) :
    ∃ k data inode, genericGetfssec (fatFs v) (fatFile v size first) (2^31 - 1) =
        some ⟨data,min (k*v.sectorSize) size,some (min (k*v.sectorSize) size < size),⟨min (k*v.sectorSize) size,inode⟩⟩ ∧
      data.length = k*v.sectorSize ∧
      (size ≤ k*v.sectorSize ∨ k*v.sectorSize < size ∧ ∃ q, inode.pvt.size = q*v.clusterSecs ∧ q*v.clusterSecs ≤ k) := by
  have large := sectorSizeLarge mounted
  generalize total : (size + (v.sectorSize - 1)) / v.sectorSize = n
  have whole := Nat.div_add_mod (size + (v.sectorSize - 1)) v.sectorSize
  rw [total,Nat.mul_comm] at whole
  have few := Nat.mul_le_mul_left n large
  have inside : ∀ lstart, lstart < n → lstart*v.sectorSize < size := by
    intro lstart less
    have := Nat.mul_le_mul_right v.sectorSize (show lstart + 1 ≤ n from less)
    rw [Nat.succ_mul] at this
    omega
  obtain ⟨k,data,inode,call,length,result⟩ := firstCallReaches (fatFails mounted word inside)
    (show (fatFile v size first).offset = 0 from rfl) rfl rfl rfl rfl some' fits total (show n ≤ 2^31 - 1 by omega)
  refine ⟨k,data,inode,call,length,?_⟩
  rcases result with all | ⟨less,q,eq,passed,_⟩
  · exact Or.inl all
  · exact Or.inr ⟨less,q,eq,passed⟩

theorem shortBytes (word : size < 2^32) (short : l < v.tcluster size) : l*v.clusterBytes < size := by
  have positive : 0 < v.clusterBytes := Nat.two_pow_pos _
  rw [(tclusterOk mounted word).1] at short
  have := (Nat.le_div_iff_mul_le positive).mp (Nat.succ_le_of_lt short)
  rw [Nat.succ_mul] at this
  omega

omit mounted in
theorem readsStuck {file : File FatInode} (same : file.inode.size = file.inode.pvt.size)
    (stuck : ∀ n, 0 < n → genericGetfssec (fatFs v) file n = some ⟨[],0,none,file⟩) {counts : List Nat} (legal : Counts counts)
    (out : List UInt8) (haveMore : Bool) : reads v ⟨out,haveMore,file⟩ counts = some ⟨out,haveMore,file⟩ := by
  induction counts with
  | nil => rfl
  | cons n counts ih =>
    have call : readOn v ⟨out,haveMore,file⟩ n = some ⟨out,haveMore,file⟩ := by
      rw [readOn,fatGetfssec,stuck n (legal n (List.mem_cons_self ..)).1]
      simp only [Option.bind_eq_bind,Option.bind_some,List.take_nil,List.append_nil,Option.getD_none,← same]
    rw [reads,call]
    exact ih fun c member => legal c (List.mem_cons_of_mem _ member)

end

/- On every mounted volume, for every damaged file. -/
theorem damagedFails {sectorShift : Nat} {disk : Nat → Nat → UInt8} {bpb : Bpb} {v : Volume} (wf : bpb.WellFormed sectorShift)
    (ok : vfatFsInit sectorShift disk bpb = some v) {size first l : Nat} (damaged : v.Damaged size first l) :
    ¬ Delivers v size first l := by
  intro delivers
  have mounted := (vfatFsInitMounted wf ok).1
  have word := damaged.word
  have large := sectorSizeLarge mounted
  have wide : v.sectorShift < 32 := by
    have := mounted.cluster
    omega
  have legal : ∀ n, Counts (List.replicate n (2^31 - 1)) := by
    intro n c member
    rw [List.eq_of_mem_replicate member]
    decide
  obtain ⟨n,r,run,over',all⟩ := delivers.ends (fun _ => 2^31 - 1) fun _ => by decide
  rw [List.map_const',List.length_range] at run
  by_cases fits : size + (v.sectorSize - 1) < 2^32
  · obtain ⟨k,data,inode,call,length,result⟩ := firstRead mounted word (by have := shortBytes mounted word damaged.short; omega) first fits
    generalize counted : min (k*v.sectorSize) size = bytes at call
    have one : readOn v (reader v size first) (2^31 - 1) = some ⟨data.take bytes,decide (bytes < size),
        ⟨bytes,{ inode with size := inode.pvt.size }⟩⟩ := by
      rw [readOn,reader,fatGetfssec,call]
      simp only [Option.bind_eq_bind,Option.bind_some,List.nil_append,Option.getD_some]
    have safe := delivers.safe [2^31 - 1] _ (legal 1) (by rw [reads,one]; rfl)
    simp only at safe
    obtain ⟨front,within,_⟩ := safe
    rcases result with more | ⟨less,q,shortened,passed⟩
    · have long := front.length_le
      rw [List.length_take,length] at long
      have short := shortBytes mounted word damaged.short
      simp only [Volume.existing,List.length_map,List.length_range] at long
      omega
    · -- The size is counted in sectors: it is below the offset, but where nothing was read.
      have most := Nat.mul_le_mul_left k large
      have none' : k = 0 := by omega
      subst none'
      have zero : inode.pvt.size = 0 := by omega
      rw [Nat.zero_mul,Nat.zero_min] at counted
      subst counted
      have stuck : ∀ n, 0 < n → genericGetfssec (fatFs v) ⟨0,{ inode with size := inode.pvt.size }⟩ n =
          some ⟨[],0,none,⟨0,{ inode with size := inode.pvt.size }⟩⟩ := by
        intro n some'
        exact firstCallEmpty 0 some' (by simp [zero]) wide (Or.inl rfl)
      cases n with
      | zero =>
        rw [← Option.some.inj run] at over'
        contradiction
      | succ n =>
        rw [List.replicate_succ,reads,one,Option.bind_some,readsStuck rfl stuck (legal n)] at run
        rw [← Option.some.inj run] at over'
        simp only [decide_eq_false_iff_not] at over'
        omega
  · -- The number of sectors left is computed in 32 bits, as zero.
    have stuck : ∀ n, 0 < n → genericGetfssec (fatFs v) (fatFile v size first) n = some ⟨[],0,none,fatFile v size first⟩ := by
      intro n some'
      refine firstCallEmpty size some' ?_ wide (Or.inr (by change 2^32 ≤ size + (v.sectorSize - 1); omega))
      change (size + 2^64 - 0) % 2^32 = size
      omega
    rw [reader,readsStuck rfl stuck (legal n)] at run
    rw [← Option.some.inj run] at over'
    contradiction

def floppyVolume : Volume := ⟨9,1,19,33,2847,14,0,.fat12,floppyDisk⟩

theorem floppyDamaged {v : Volume} (ok : vfatFsInit 9 floppyDisk floppy = some v) : v.Damaged 2000 2 2 := by
  cases Option.some.inj ok
  refine ⟨by decide,fun i less => ?_,fun valid => absurd valid.1 (by decide),by decide⟩
  interval_cases i
  · exact ⟨by decide,by decide⟩
  · exact ⟨by decide,by decide⟩

theorem floppyWellFormed : floppy.WellFormed 9 := ⟨by decide,by decide,by decide,by decide,by decide⟩

theorem damagedFailsFloppy : ∃ v, vfatFsInit 9 floppyDisk floppy = some v ∧ ¬ Delivers v 2000 2 2 :=
  ⟨_,rfl,damagedFails floppyWellFormed rfl (floppyDamaged rfl)⟩

/- One read of the whole file leaves the offset behind the size. -/
theorem damagedRead : ¬ ∀ (sectorShift : Nat) (disk : Nat → Nat → UInt8) (bpb : Bpb) (v : Volume), bpb.WellFormed sectorShift →
    vfatFsInit sectorShift disk bpb = some v → ∀ size first l, v.Damaged size first l → Delivers v size first l := by
  intro claim
  have delivers := claim 9 floppyDisk floppy floppyVolume floppyWellFormed rfl 2000 2 2 (floppyDamaged rfl)
  have read : (reads floppyVolume (reader floppyVolume 2000 2) [100]).map (fun r => (r.file.offset,r.file.inode.size)) =
      some (1024,2) := by decide +kernel
  obtain ⟨r,run,eq⟩ := Option.map_eq_some_iff.mp read
  obtain ⟨offset,size⟩ := Prod.mk.inj eq
  have within := (delivers.safe [100] r (by simp [Counts]) run).2.1
  omega

end Syslinux.Fat
