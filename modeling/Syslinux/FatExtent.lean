import Syslinux.Fat

/-! fat_next_extent against the cluster chain: whatever position the inode remembers, an
extent is made of the clusters that a walk from the first cluster comes to. -/
namespace Syslinux.Fat
open Getfssec (Extent)

/- A file of that size: as many clusters of its chain as the size asks for are clusters
of the volume. -/
def Volume.HasFile (v : Volume) (size first : Nat) : Prop :=
  size < 2^32 ∧ ∀ i, i < v.tcluster size → v.Valid (v.chain first i)

structure Volume.Maps (v : Volume) (size first lstart : Nat) (e : Extent) : Prop where
  some' : 0 < e.len
  within : lstart + e.len ≤ v.tcluster size*v.clusterSecs
  walked : ∀ i, i < e.len →
    e.pstart + i = v.sectorOf (v.chain first ((lstart + i) / v.clusterSecs)) + (lstart + i) % v.clusterSecs

structure Ready (v : Volume) (size first : Nat) (inode : FatInode) : Prop where
  fileSize : inode.size = size
  start : inode.startCluster = first
  position : inode.offset = v.tcluster size*v.clusterSecs ∨
    ∃ l, l < v.tcluster size ∧ inode.offset = l*v.clusterSecs ∧ inode.here = v.sectorOf (v.chain first l)

section
variable {v : Volume} (mounted : v.Mounted) {size first : Nat}

theorem secsPos (v : Volume) : 0 < v.clusterSecs := Nat.two_pow_pos _

section
include mounted

theorem tclusterOk (small : size < 2^32) : v.tcluster size = (size + (v.clusterBytes - 1)) / v.clusterBytes ∧
    v.tcluster size*v.clusterSecs < 2^32 := by
  have positive : 0 < v.clusterBytes := Nat.two_pow_pos _
  have bytes : v.clusterBytes ≤ 2^31 := Nat.pow_le_pow_right (by decide) (by have := mounted.cluster; omega)
  have split : v.clusterBytes = v.clusterSecs*v.sectorSize := Nat.pow_add ..
  have large := sectorSizeLarge mounted
  have plain : v.tcluster size = (size + (v.clusterBytes - 1)) / v.clusterBytes := by
    rw [Volume.tcluster,Nat.mod_eq_of_lt (show size + (v.clusterBytes - 1) < 2^64 by omega),Nat.mod_eq_of_lt]
    refine (Nat.div_lt_iff_lt_mul positive).mpr ?_
    have := Nat.le_mul_of_pos_right (2^32) positive
    by_cases one : v.clusterBytes = 1
    · rw [one]
      omega
    · have := Nat.mul_le_mul_left (2^32) (show 2 ≤ v.clusterBytes by omega)
      omega
  refine ⟨plain,?_⟩
  have whole : v.tcluster size*v.clusterBytes ≤ size + (v.clusterBytes - 1) := by
    rw [plain]
    exact Nat.div_mul_le_self _ _
  rw [split,← Nat.mul_assoc] at whole
  have := Nat.mul_le_mul_left (v.tcluster size*v.clusterSecs) large
  omega

theorem mclusterBelow (small : size < 2^32) {m : Nat} (below : m*v.clusterSecs*v.sectorSize < size) : m < v.tcluster size := by
  have positive : 0 < v.clusterBytes := Nat.two_pow_pos _
  have split : v.clusterBytes = v.clusterSecs*v.sectorSize := Nat.pow_add ..
  rw [(tclusterOk mounted small).1]
  refine (Nat.le_div_iff_mul_le positive).mpr ?_
  rw [Nat.succ_mul]
  rw [Nat.mul_assoc,← split] at below
  omega

theorem validSmall {c : Nat} (valid : v.Valid c) : c < 2^30 ∧ (c - 2)*v.clusterSecs + v.data < 2^32 := by
  obtain ⟨low,high⟩ := valid
  have count := mounted.count
  have room := mounted.room
  have := Nat.mul_le_mul_right v.clusterSecs (show c - 2 ≤ v.clusters by omega)
  omega

theorem sectorOfBack {c : Nat} (valid : v.Valid c) : (sub64 (v.sectorOf c) v.data / v.clusterSecs + 2) % 2^32 = c := by
  have := validSmall mounted valid
  have low := valid.1
  have back : sub64 (v.sectorOf c) v.data = (c - 2)*v.clusterSecs := by
    unfold sub64 Volume.sectorOf
    omega
  rw [back,Nat.mul_div_cancel _ (secsPos v)]
  omega

theorem sectorOfEq {c : Nat} (valid : v.Valid c) : (sub32 c 2*v.clusterSecs + v.data) % 2^64 = v.sectorOf c ∧
    (sub32 c 2*v.clusterSecs % 2^32 + v.data) % 2^64 = v.sectorOf c := by
  have := validSmall mounted valid
  rw [sub32Eq valid.1,Volume.sectorOf]
  omega

theorem chainNext {i : Nat} (valid : v.Valid (v.chain first i)) : getNextCluster v (v.chain first i) = v.chain first (i + 1) :=
  getNextClusterEq mounted (validSmall mounted valid).1

theorem seekChain (file : v.HasFile size first) (left l : Nat) (inside : l + left < v.tcluster size) :
    seekCluster v left l (v.chain first l) = .ok (l + left,v.chain first (l + left)) := by
  induction left generalizing l with
  | zero =>
    obtain ⟨low,high⟩ := file.2 l (by omega)
    rw [seekCluster,if_neg (by rw [sub32Eq low]; omega)]
    rfl
  | succ left ih =>
    have valid := file.2 l (by omega)
    obtain ⟨low,high⟩ := valid
    rw [seekCluster,if_neg (by rw [sub32Eq low]; omega)]
    simp only [chainNext mounted (file.2 l (by omega))]
    rw [ih (l + 1) (by omega)]
    congr 2
    · omega
    · congr 1
      omega

/- The lookahead stops behind `n` clusters in a row, at the end of the file or before a
cluster that is not the next one on the disk. -/
theorem contiguousChain (file : v.HasFile size first) (left l x len : Nat) (inside : l + 1 + left = v.tcluster size)
    (fits : len + left*v.clusterSecs < 2^32) : ∃ n y, 1 ≤ n ∧ n ≤ left + 1 ∧
      contiguous v left l (v.chain first l) x len = (l + n,y,len + (n - 1)*v.clusterSecs) ∧
      (∀ i, i < n → v.chain first (l + i) = v.chain first l + i) ∧ (n ≤ left → y = v.chain first (l + n)) := by
  induction left generalizing l x len with
  | zero =>
    refine ⟨1,x,by omega,by omega,by simp [contiguous],?_,by omega⟩
    intro i small
    obtain rfl : i = 0 := by omega
    rfl
  | succ left ih =>
    have valid := file.2 l (by omega)
    have small := validSmall mounted valid
    have step : add32 (v.chain first l) 1 = v.chain first l + 1 := add32Eq (by omega)
    rw [contiguous]
    simp only [chainNext mounted valid,step]
    by_cases next : v.chain first (l + 1) = v.chain first l + 1
    · rw [Nat.succ_mul] at fits
      have sum : add32 len v.clusterSecs = len + v.clusterSecs := add32Eq (by omega)
      rw [if_neg (by simp [next]),← next,sum]
      obtain ⟨n,y,one,le,eq,row,after⟩ := ih (l + 1) (v.chain first (l + 1)) (len + v.clusterSecs) (by omega) (by omega)
      refine ⟨n + 1,y,by omega,by omega,?_,?_,?_⟩
      · rw [eq]
        obtain ⟨k,rfl⟩ : ∃ k, n = k + 1 := ⟨n - 1,by omega⟩
        simp only [Nat.add_sub_cancel,Nat.succ_mul,Prod.mk.injEq,true_and]
        omega
      · intro i small
        cases i with
        | zero => rfl
        | succ i =>
          have := row i (by omega)
          rw [show l + (i + 1) = l + 1 + i by omega,this,next]
          omega
      · intro le'
        rw [after (by omega)]
        congr 1
        omega
    · rw [if_pos next]
      refine ⟨1,_,by omega,by omega,by simp,?_,fun _ => rfl⟩
      intro i small
      obtain rfl : i = 0 := by omega
      rfl

/- A call in any position comes to the cluster of `lstart`, and looks ahead from there. -/
theorem fatNextExtentEq (file : v.HasFile size first) {inode : FatInode} (ready : Ready v size first inode) {lstart m : Nat}
    (start : lstart = m*v.clusterSecs) (inside : m < v.tcluster size) :
    fatNextExtent v inode lstart =
      let (lcluster,xcluster,len) := contiguous v (v.tcluster size - (m + 1)) m (v.chain first m) 0 v.clusterSecs
      (0,{ inode with
        nextExtent := { inode.nextExtent with pstart := v.sectorOf (v.chain first m), len := len }
        offset := lcluster*v.clusterSecs % 2^32
        here := (sub32 xcluster 2*v.clusterSecs % 2^32 + v.data) % 2^64 }) := by
  have positive := secsPos v
  have bound := (tclusterOk mounted file.1).2
  have mcluster : lstart / v.clusterSecs = m := by rw [start,Nat.mul_div_cancel _ positive]
  -- The position is used where it is not behind the cluster wanted.
  have found : ∀ l p, l ≤ m → p = v.chain first l →
      seekCluster v (m - l) l p = .ok (m,v.chain first m) := by
    rintro l p le rfl
    rw [seekChain mounted file (m - l) l (by omega),Nat.add_sub_cancel' le]
  have seek : (let from' :=
        if m < inode.offset / v.clusterSecs % 2^32 ∨ inode.here < v.data then (0,inode.startCluster)
        else (inode.offset / v.clusterSecs % 2^32,(sub64 inode.here v.data / v.clusterSecs + 2) % 2^32)
      seekCluster v (m - from'.1) from'.1 from'.2) = .ok (m,v.chain first m) := by
    by_cases behind : m < inode.offset / v.clusterSecs % 2^32 ∨ inode.here < v.data
    · simp only [if_pos behind]
      exact found 0 _ (Nat.zero_le m) ready.start
    · simp only [if_neg behind]
      have small : ∀ l, l ≤ v.tcluster size → l*v.clusterSecs / v.clusterSecs % 2^32 = l := by
        intro l le
        have := Nat.le_mul_of_pos_right (v.tcluster size) positive
        rw [Nat.mul_div_cancel _ positive,Nat.mod_eq_of_lt (by omega)]
      rcases ready.position with past | ⟨l,less,offset,here⟩
      · rw [past,small _ (Nat.le_refl _)] at behind
        exact absurd (Or.inl inside) behind
      · rw [offset,small l (by omega)] at behind ⊢
        refine found l _ (by omega) ?_
        rw [here]
        exact sectorOfBack mounted (file.2 l less)
  rw [fatNextExtent]
  simp only [mcluster,ready.fileSize,if_neg (show ¬ v.tcluster size ≤ m by omega)]
  simp only at seek
  rw [seek]
  simp only [(sectorOfEq mounted (file.2 m inside)).1]

theorem fatNextExtentStep (file : v.HasFile size first) {inode : FatInode} (ready : Ready v size first inode) {lstart m : Nat}
    (start : lstart = m*v.clusterSecs) (inside : m < v.tcluster size) :
    (fatNextExtent v inode lstart).1 = 0 ∧ Ready v size first (fatNextExtent v inode lstart).2 ∧
      v.Maps size first lstart (fatNextExtent v inode lstart).2.nextExtent := by
  have positive := secsPos v
  have bound := (tclusterOk mounted file.1).2
  have total : (v.tcluster size - (m + 1))*v.clusterSecs + v.clusterSecs ≤ v.tcluster size*v.clusterSecs := by
    rw [← Nat.succ_mul]
    exact Nat.mul_le_mul_right _ (by omega)
  obtain ⟨n,y,one,le,eq,row,after⟩ := contiguousChain mounted file (v.tcluster size - (m + 1)) m 0 v.clusterSecs
    (by omega) (by omega)
  have len : v.clusterSecs + (n - 1)*v.clusterSecs = n*v.clusterSecs := by
    obtain ⟨k,rfl⟩ : ∃ k, n = k + 1 := ⟨n - 1,by omega⟩
    rw [Nat.add_sub_cancel,Nat.succ_mul]
    omega
  have upto : (m + n)*v.clusterSecs ≤ v.tcluster size*v.clusterSecs := Nat.mul_le_mul_right _ (by omega)
  rw [fatNextExtentEq mounted file ready start inside,eq,len]
  refine ⟨rfl,⟨ready.fileSize,ready.start,?_⟩,?_⟩
  · simp only [Nat.mod_eq_of_lt (show (m + n)*v.clusterSecs < 2^32 by omega)]
    by_cases more : n ≤ v.tcluster size - (m + 1)
    · refine Or.inr ⟨m + n,by omega,rfl,?_⟩
      rw [after more]
      exact (sectorOfEq mounted (file.2 (m + n) (by omega))).2
    · refine Or.inl ?_
      rw [show m + n = v.tcluster size by omega]
  · refine ⟨Nat.mul_pos (by omega) positive,?_,?_⟩
    · rw [start,← Nat.add_mul]
      exact upto
    · intro i small
      have low := (file.2 m inside).1
      have cluster : i / v.clusterSecs < n := (Nat.div_lt_iff_lt_mul positive).mpr small
      have place := Nat.div_add_mod i v.clusterSecs
      simp only [start]
      rw [Nat.add_comm (m*v.clusterSecs) i,Nat.add_mul_div_right _ _ positive,Nat.add_mul_mod_self_right,
        Nat.add_comm (i / v.clusterSecs) m,row _ cluster,Volume.sectorOf,Volume.sectorOf,Nat.sub_add_comm low,Nat.add_mul]
      rw [Nat.mul_comm] at place
      omega

theorem openReady (file : v.HasFile size first) (some' : 0 < v.tcluster size) : Ready v size first (openFile v size first) := by
  have valid := file.2 0 some'
  have small := validSmall mounted valid
  have low : 2 ≤ first := valid.1
  refine ⟨rfl,rfl,Or.inr ⟨0,some',by simp [openFile],?_⟩⟩
  have back : sub64 first 2 = first - 2 := by
    have : first < 2^30 := small.1
    unfold sub64
    omega
  have fits : (first - 2)*v.clusterSecs + v.data < 2^32 := small.2
  show (sub64 first 2*v.clusterSecs + v.data) % 2^64 = v.sectorOf first
  rw [back,Nat.mod_eq_of_lt (by omega),Volume.sectorOf]

theorem nextExtentsFollow (file : v.HasFile size first) {starts : List Nat}
    (legal : ∀ l ∈ starts, v.clusterSecs ∣ l ∧ l*v.sectorSize < size) {inode fresh : FatInode}
    (ready : Ready v size first inode) (ready' : Ready v size first fresh) :
    List.Forall₂ (fun lstart r => r.1 = 0 ∧ v.Maps size first lstart r.2.nextExtent ∧
      r.2.nextExtent.pstart = (fatNextExtent v fresh lstart).2.nextExtent.pstart ∧
      r.2.nextExtent.len = (fatNextExtent v fresh lstart).2.nextExtent.len) starts (nextExtents v inode starts) := by
  induction starts generalizing inode with
  | nil => exact .nil
  | cons lstart rest ih =>
    obtain ⟨⟨m,eq⟩,below⟩ := legal lstart (by simp)
    rw [Nat.mul_comm] at eq
    have inside := mclusterBelow mounted file.1 (eq ▸ below)
    obtain ⟨rv,next,maps⟩ := fatNextExtentStep mounted file ready eq inside
    refine .cons ⟨rv,maps,?_,?_⟩ (ih (fun l m => legal l (by simp [m])) next)
    · rw [fatNextExtentEq mounted file ready eq inside,fatNextExtentEq mounted file ready' eq inside]
    · rw [fatNextExtentEq mounted file ready eq inside,fatNextExtentEq mounted file ready' eq inside]

end

/- On a mounted volume, for calls in any order: each extent is what the chain says, and
what the first call on the file would have stored. -/
theorem extentsFollowChain {sectorShift : Nat} {disk : Nat → Nat → UInt8} {bpb : Bpb} (wf : bpb.WellFormed sectorShift)
    (ok : vfatFsInit sectorShift disk bpb = some v) (file : v.HasFile size first) (starts : List Nat)
    (legal : ∀ l ∈ starts, v.clusterSecs ∣ l ∧ l*v.sectorSize < size) :
    List.Forall₂ (fun lstart r => r.1 = 0 ∧ v.Maps size first lstart r.2.nextExtent ∧
      r.2.nextExtent.pstart = (fatNextExtent v (openFile v size first) lstart).2.nextExtent.pstart ∧
      r.2.nextExtent.len = (fatNextExtent v (openFile v size first) lstart).2.nextExtent.len)
      starts (nextExtents v (openFile v size first) starts) := by
  have mounted := (vfatFsInitMounted wf ok).1
  cases starts with
  | nil => exact .nil
  | cons lstart rest =>
    obtain ⟨⟨m,eq⟩,below⟩ := legal lstart (by simp)
    rw [Nat.mul_comm] at eq
    have inside := mclusterBelow mounted file.1 (eq ▸ below)
    have ready := openReady mounted file (by omega)
    exact nextExtentsFollow mounted file legal ready ready

/- A floppy disk with a file of 1000 bytes in the clusters 2 and 4. -/
def floppyDisk (sector i : Nat) : UInt8 := if sector = 1 ∧ i = 3 then 4 else 0

theorem extentsFollowChainFloppy : ∃ v, vfatFsInit 9 floppyDisk floppy = some v ∧
    List.Forall₂ (fun lstart r => r.1 = 0 ∧ v.Maps 1000 2 lstart r.2.nextExtent ∧
      r.2.nextExtent.pstart = (fatNextExtent v (openFile v 1000 2) lstart).2.nextExtent.pstart ∧
      r.2.nextExtent.len = (fatNextExtent v (openFile v 1000 2) lstart).2.nextExtent.len)
      [1,0,1,1] (nextExtents v (openFile v 1000 2) [1,0,1,1]) := by
  have wf : floppy.WellFormed 9 := ⟨by decide,by decide,by decide,by decide,by decide⟩
  refine ⟨_,rfl,extentsFollowChain wf rfl ⟨by decide,?_⟩ [1,0,1,1] (by decide)⟩
  intro i small
  have two : i < 2 := small
  interval_cases i
  · exact ⟨by decide,by decide⟩
  · exact ⟨by decide,by decide⟩

end
end Syslinux.Fat
