import Syslinux.GetfssecAsked

/-! What the two getfssec functions say of *have_more: generic_getfssec of core/fs/getfssec.c, and pxe_getfssec of
core/fs/pxe/pxe.c over the fill_buffer operation of a connection. pmapi_read_file reads it from an uninitialised variable. -/
namespace Syslinux.Getfssec

/- pmapi_read_file closes the file; `held` is what its have_more held before the call, none that nothing was assigned. -/
def pmapiCloses (held : Bool) (haveMore : Option Bool) : Bool := !haveMore.getD held

/- The caller does not depend on what the variable held, and closes the file only when everything is delivered. -/
def Reports (haveMore : Option Bool) (delivered : Prop) : Prop :=
  (∀ held held', pmapiCloses held haveMore = pmapiCloses held' haveMore) ∧ ∀ held, pmapiCloses held haveMore = true →
    delivered

theorem noneReports (delivered : Prop) : ¬ Reports none delivered := by
  rintro ⟨same,_⟩
  cases same true false

theorem trueReports (delivered : Prop) : Reports (some true) delivered :=
  ⟨fun _ _ => rfl,fun _ closes => by cases closes⟩

theorem falseReports {delivered : Prop} : Reports (some false) delivered ↔ delivered :=
  ⟨fun reports => reports.2 true rfl,fun all => ⟨fun _ _ => rfl,fun _ _ => all⟩⟩

section
variable {σ : Type} {fs : Fs σ} {inode : Inode σ}

/- The extents that next_extent returns end before sector 2^32. -/
def Bounded (fs : Fs σ) : Prop :=
  ∀ pvt prev lstart, lstart < 2^32 → (fs.nextExtent pvt prev lstart).1 = 0 →
    lstart + (fs.nextExtent pvt prev lstart).2.1.len < 2^32

theorem seekPlaced (placed : Placed inode) {lsector : Nat} (small : lsector < 2^32) : Placed (seek inode lsector) := by
  have either : ∀ this : Extent, this.lstart + this.len < 2^32 → this.has lsector →
    sub32 this.len (lsector - this.lstart) + lsector < 2^32 := by
    intro this bound inside
    unfold Extent.has at inside
    rw [add32Eq bound] at inside
    rw [sub32Eq (by omega)]
    omega
  unfold seek
  generalize which : (if inode.thisExtent.has lsector then inode.thisExtent else inode.nextExtent) = this
  have bound : this.lstart + this.len < 2^32 := by
    rw [← which]
    split
    · exact placed.this
    · exact placed.next
  simp only
  split_ifs with inside
  · refine ⟨?_,placed.next⟩
    rw [Nat.add_comm]
    exact either this bound inside
  · exact ⟨small,placed.next⟩

/- One call for which some sectors are left: *have_more is assigned. -/
theorem callReturns (bounded : Bounded fs) (wide : 0 < fs.sectorShift) {file : File σ} (placed : Placed file.inode)
    {n left : Nat} (small : file.offset < 2^32)
    (left' : (file.inode.size + 2^64 - file.offset) % 2^32 = left) (some' : 0 < n) (pos : 0 < left)
    (fits : left + (fs.sectorSize - 1) < 2^32) :
    ∃ r, genericGetfssec fs file n = some r ∧ r.bytesRead ≤ n*fs.sectorSize ∧
      r.haveMore = some (decide (r.bytesRead < left)) := by
  have unit := sectorSizePos fs
  have whole := Nat.div_add_mod (left + (fs.sectorSize - 1)) fs.sectorSize
  have rest := Nat.mod_lt (left + (fs.sectorSize - 1)) unit
  unfold genericGetfssec
  simp only [left',add32Eq fits]
  generalize (left + (fs.sectorSize - 1)) / fs.sectorSize = total at whole
  rw [Nat.mul_comm] at whole
  have positive : 0 < total := by
    by_contra none'
    rw [Nat.eq_zero_of_not_pos none'] at whole
    omega
  generalize most : (if total < n then total else n) = count
  have bounds : 0 < count ∧ count ≤ total ∧ count ≤ n := by
    rw [← most]
    split <;> omega
  have few : count*fs.sectorSize ≤ total*fs.sectorSize := Nat.mul_le_mul_right _ bounds.2.1
  have start : file.offset / fs.sectorSize < 2^32 := Nat.lt_of_le_of_lt (Nat.div_le_self _ _) small
  have double : 2 ≤ fs.sectorSize := Nat.le_self_pow (Nat.pos_iff_ne_zero.mp wide) 2
  have half (a : Nat) : a*2 ≤ a*fs.sectorSize := Nat.mul_le_mul_left a double
  have sectors := half total
  have sectors' := half (file.offset / fs.sectorSize)
  have first := Nat.div_mul_le_self file.offset fs.sectorSize
  have at' : (seek file.inode (file.offset / fs.sectorSize)).thisExtent.lstart = file.offset / fs.sectorSize := seekStart
  obtain ⟨k,data,inode,run,le⟩ := readLoopReturns bounded (Nat.le_refl _) count count [] 0 (seekPlaced placed start)
    (by rw [at']; omega) (by omega) (Nat.le_refl _)
  rw [if_neg (by omega),run]
  simp only [Option.bind_eq_bind,Option.bind_some,Nat.zero_add,Option.some.injEq,exists_eq_left']
  have read' : k*fs.sectorSize ≤ n*fs.sectorSize := Nat.mul_le_mul_right _ (by omega)
  exact ⟨by omega,trivial⟩

end

/- A file of any size on a disk that is mapped sector by sector, as far as the numbers go. -/
def plainFs (shift : Nat) : Fs Unit where
  sectorShift := shift
  nextExtent := fun _ _ lstart => (if lstart + 1 < 2^32 then 0 else -1,⟨lstart,0,1⟩,())
  disk := fun _ _ => 0

def plainFile (size offset : Nat) : File Unit := ⟨offset,⟨size,⟨0,0,0⟩,⟨0,0,0⟩,()⟩⟩

theorem plainPlaced (size offset : Nat) : Placed (plainFile size offset).inode := ⟨Nat.two_pow_pos 32,Nat.two_pow_pos 32⟩

theorem plainBounded (shift : Nat) : Bounded (plainFs shift) := by
  intro pvt prev lstart _ ok
  unfold plainFs at *
  simp only at *
  by_contra past
  rw [if_neg past] at ok
  cases ok

theorem plainFails (shift : Nat) : FailsAfter (plainFs shift) (2^32 - 1) (fun _ => True) fun _ _ => False := by
  refine ⟨fun pvt prev lstart _ inside => Or.inl ⟨⟨lstart,0,1⟩,(),?_,Nat.one_pos,?_,trivial⟩,fun _ _ _ never => never.elim⟩
  · have more : lstart + 1 < 2^32 := by omega
    simp only [plainFs,if_pos more]
  · simp only
    omega

theorem plainReads {shift size offset n left : Nat} (wide : 0 < shift) (small : offset < 2^32)
    (left' : (size + 2^64 - offset) % 2^32 = left) (pos : 0 < left) (fits : left + (2^shift - 1) < 2^32)
    (all : left ≤ n*2^shift) :
    ∃ r, genericGetfssec (plainFs shift) (plainFile size offset) n = some r ∧ r.bytesRead = left ∧
      r.haveMore = some false := by
  have unit : 2 ≤ 2^shift := Nat.le_self_pow (Nat.pos_iff_ne_zero.mp wide) 2
  have whole := Nat.div_add_mod (left + (2^shift - 1)) (2^shift)
  have rest := Nat.mod_lt (left + (2^shift - 1)) (show 0 < 2^shift by omega)
  have first := Nat.div_mul_le_self offset (2^shift)
  have sector : (plainFs shift).sectorSize = 2^shift := rfl
  unfold genericGetfssec
  simp only [show (plainFile size offset).inode.size = size from rfl,show (plainFile size offset).offset = offset from rfl,
    left',sector,add32Eq fits]
  generalize (left + (2^shift - 1)) / 2^shift = total at whole
  generalize offset / 2^shift = lsector at first
  rw [Nat.mul_comm] at whole
  have half (a : Nat) : a*2 ≤ a*2^shift := Nat.mul_le_mul_left a unit
  have sectors := half total
  have sectors' := half lsector
  generalize most : (if total < n then total else n) = count
  have enough : left ≤ count*2^shift ∧ count ≤ total ∧ 0 < count := by
    rw [← most]
    split
    · refine ⟨by omega,Nat.le_refl _,?_⟩
      by_contra none'
      rw [Nat.eq_zero_of_not_pos none'] at whole
      omega
    · refine ⟨all,by omega,?_⟩
      by_contra none'
      rw [Nat.eq_zero_of_not_pos none'] at all
      omega
  have few : count*2^shift ≤ total*2^shift := Nat.mul_le_mul_right _ enough.2.1
  have placed := seekPlaced (plainPlaced size offset) (show lsector < 2^32 by omega)
  have at' : (seek (plainFile size offset).inode lsector).thisExtent.lstart = lsector := seekStart
  have here : Reaches (fun _ => True) (fun _ _ => False) (seek (plainFile size offset).inode lsector) :=
    ⟨placed.this,Or.inl ⟨trivial,Or.inr placed.next⟩⟩
  obtain ⟨k,data,inode,run,_,_,result⟩ := readLoopReaches (plainFails shift) count count [] 0 here (by rw [at']; omega)
    (by decide)
    (by rw [sector]; omega) (Nat.le_refl _)
  obtain rfl : k = count := result.resolve_right fun never => never
  rw [if_neg (by omega),run,sector]
  simp only [Option.bind_eq_bind,Option.bind_some,Nat.zero_add,Option.some.injEq,exists_eq_left']
  have read' : min (k*2^shift) left = left := Nat.min_eq_right enough.1
  rw [read']
  simp

/- For a file of `size` bytes read up to `offset`, *have_more is as it should be, whatever filesystem it is on, unless nothing is
left, the sum of the sectors wraps, or a file of more than 4 GB is taken for a smaller one. -/
theorem genericReports {shift size offset n : Nat} (wide : 0 < shift ∧ shift < 32) (some' : 0 < n) (small : offset < 2^32)
    (inside : offset ≤ size) :
    (∀ (σ : Type) (fs : Fs σ) (file : File σ), fs.sectorShift = shift → Bounded fs → Placed file.inode →
      file.inode.size = size →
      file.offset = offset → ∃ r, genericGetfssec fs file n = some r ∧ Reports r.haveMore (size ≤ offset + r.bytesRead)) ↔
    0 < (size - offset) % 2^32 ∧ (size - offset) % 2^32 + (2^shift - 1) < 2^32 ∧
      (size - offset < 2^32 ∨ n*2^shift < (size - offset) % 2^32) := by
  have left' : (size + 2^64 - offset) % 2^32 = (size - offset) % 2^32 := by omega
  have less := Nat.mod_lt (size - offset) (Nat.two_pow_pos 32)
  have part := Nat.mod_le (size - offset) (2^32)
  have exact' : size - offset < 2^32 → (size - offset) % 2^32 = size - offset := Nat.mod_eq_of_lt
  generalize (size - offset) % 2^32 = left at *
  have plain := fun claim : ∀ (σ : Type) (fs : Fs σ) (file : File σ), fs.sectorShift = shift → Bounded fs →
    Placed file.inode →
      file.inode.size = size → file.offset = offset →
      ∃ r, genericGetfssec fs file n = some r ∧ Reports r.haveMore (size ≤ offset + r.bytesRead) =>
    claim Unit (plainFs shift) (plainFile size offset) rfl (plainBounded shift) (plainPlaced size offset) rfl rfl
  constructor
  · intro claim
    obtain ⟨r,ok,reports⟩ := plain claim
    by_cases empty : left = 0 ∨ 2^32 ≤ left + (2^shift - 1)
    · rw [@firstCallEmpty Unit (plainFs shift) (plainFile size offset) n left some' left' wide.2 empty] at ok
      cases ok
      exact absurd reports (noneReports _)
    · obtain ⟨pos,fits⟩ := not_or.mp empty
      refine ⟨by omega,by omega,?_⟩
      by_contra big
      obtain ⟨exact,most⟩ := not_or.mp big
      obtain ⟨r',ok',read',assigned⟩ := plainReads (n := n) wide.1 small left' (by omega) (by omega) (by omega)
      rw [ok'] at ok
      cases ok
      rw [assigned] at reports
      have all := falseReports.1 reports
      omega
  · rintro ⟨pos,fits,fair⟩ σ fs file rfl bounded placed rfl rfl
    obtain ⟨r,ok,read',assigned⟩ := callReturns bounded wide.1 placed small left' some' pos fits
    refine ⟨r,ok,?_⟩
    rw [assigned]
    by_cases more : r.bytesRead < left
    · rw [decide_eq_true more]
      exact trueReports _
    · rw [decide_eq_false more]
      refine falseReports.2 ?_
      have unit : fs.sectorSize = 2^fs.sectorShift := rfl
      rw [unit] at read'
      rcases fair with exact | big
      · have := exact' exact
        omega
      · omega

end Syslinux.Getfssec

namespace Syslinux.Pxe
open Getfssec (Reports)

abbrev Bytes := List UInt8

/- A connection with its file: the size, tftp_filepos, the tftp_bytesleft bytes at tftp_dataptr, tftp_goteof, and what the
protocol keeps for itself. -/
structure Socket (σ : Type) where
  size : Nat
  filepos : Nat
  data : Bytes
  goteof : Bool
  pvt : σ

def tftpBlocksize : Nat := 2^9

section
variable {σ : Type} (ops : Socket σ → Socket σ)

/- Get a fresh packet if the buffer is drained, and we haven't hit EOF yet. -/
def fillBuffer (s : Socket σ) : Socket σ := if s.data ≠ [] ∨ s.goteof then s else ops s

def readLoop : Nat → Nat → Bytes → Socket σ → Bytes × Socket σ
  | 0,_,buf,s => (buf,s)
  | turns+1,count,buf,s =>
      if count = 0 then (buf,s)
      else
        let s := fillBuffer ops s
        if s.data = [] then (buf,s)
        else
          let chunk := min count s.data.length
          readLoop turns (count - chunk) (buf ++ s.data.take chunk) { s with data := s.data.drop chunk }

/- As for the generic function: none in haveMore where nothing is assigned. -/
structure Result (σ : Type) where
  buf : Bytes
  haveMore : Option Bool
  socket : Socket σ

def pxeGetfssec (s : Socket σ) (blocks : Nat) : Option (Result σ) :=
  let count := blocks * tftpBlocksize % 2^32
  if 2^31 ≤ count then none
  else
    let (buf,s) := readLoop ops count count [] s
    if s.data ≠ [] ∨ s.filepos < s.size then some ⟨buf,some true,fillBuffer ops s⟩
    else some ⟨buf,if s.goteof then some false else none,s⟩

/- What a connection still brings: packets one after the other, and the end with the last one (`marked`) or behind it. -/
inductive Coming : Socket σ → List Bytes → Bool → Prop where
  | ended {s : Socket σ} (eof : s.goteof = true) : Coming s [] true
  | closing {s : Socket σ} (more : s.goteof = false) (none' : (ops { s with data := [] }).data = [])
      (eof : (ops { s with data := [] }).goteof = true) : Coming s [] false
  | packet {s : Socket σ} {p : Bytes} {ps : List Bytes} {marked : Bool} (more : s.goteof = false) (some' : p ≠ [])
      (data : (ops { s with data := [] }).data = p) (filepos : (ops { s with data := [] }).filepos = s.filepos + p.length)
      (size : (ops { s with data := [] }).goteof = false → (ops { s with data := [] }).size = s.size)
      (rest : Coming (ops { s with data := [] }) ps marked) : Coming s (p::ps) marked

end

section
variable {σ : Type} {ops : Socket σ → Socket σ} {s : Socket σ} {ps : List Bytes} {marked : Bool}

theorem comingData (coming : Coming ops s ps marked) (data : Bytes) : Coming ops { s with data := data } ps marked := by
  cases coming with
  | ended eof => exact .ended eof
  | closing more none' eof => exact .closing more none' eof
  | packet more some' data filepos size rest => exact .packet more some' data filepos size rest

/- Where a read of `count` bytes leaves a connection with `coming` bytes to come in all: in front of the end, at it or behind it. -/
structure Left (size last coming count : Nat) (marked : Bool) (s : Socket σ) : Prop where
  before : count < coming → s.data = [] → s.filepos < last ∧ s.goteof = false
  at' : count = coming → s.data = [] ∧ (s.goteof = false → s.filepos = last) ∧ s.goteof = marked
  behind : coming < count → s.data = [] ∧ s.goteof = true
  size : s.goteof = false → s.size = size

theorem leftBehind {size last coming count chunk : Nat} (left : Left size last (coming - chunk) (count - chunk) marked s)
    (some' : chunk ≤ count) (small : chunk ≤ coming) : Left size last coming count marked s :=
  ⟨fun less => left.before (by omega),fun same => left.at' (by omega),fun more => left.behind (by omega),left.size⟩

theorem leftHere (coming : Coming ops s ps marked) :
    Left s.size (s.filepos + ps.flatten.length) (s.data ++ ps.flatten).length 0 marked s := by
  have length := @List.length_append _ s.data ps.flatten
  refine ⟨fun less drained => ?_,fun same => ?_,fun more => by omega,fun _ => rfl⟩
  · rw [drained,List.nil_append] at less
    cases coming with
    | ended => cases less
    | closing => cases less
    | packet more => exact ⟨by omega,more⟩
  · have empty : s.data = [] ∧ ps.flatten = [] := by
      constructor <;> exact List.length_eq_zero_iff.mp (by omega)
    refine ⟨empty.1,fun _ => by rw [empty.2]; rfl,?_⟩
    cases coming with
    | ended eof => exact eof
    | closing more => exact more
    | packet more some' =>
      exact absurd (List.append_eq_nil_iff.mp empty.2).1 some'

theorem drainedSelf (drained : s.data = []) : { s with data := [] } = s := by
  cases s
  cases drained
  rfl

theorem readLoopLeft (coming : Coming ops s ps marked) (turns : Nat) {count : Nat} (enough : count ≤ turns) (buf : Bytes) :
    ∃ s', readLoop ops turns count buf s = (buf ++ (s.data ++ ps.flatten).take count,s') ∧
      Left s.size (s.filepos + ps.flatten.length) (s.data ++ ps.flatten).length count marked s' ∧
      (s.goteof = true → s'.goteof = true) := by
  induction turns generalizing count buf s ps with
  | zero =>
    obtain rfl : count = 0 := by omega
    exact ⟨s,by simp [readLoop],leftHere coming,id⟩
  | succ turns ih =>
    by_cases none' : count = 0
    · subst none'
      exact ⟨s,by simp [readLoop],leftHere coming,id⟩
    have filled {s : Socket σ} {ps : List Bytes} (coming : Coming ops s ps marked) (here : s.data ≠ []) :
        ∃ s', readLoop ops (turns + 1) count buf s = (buf ++ (s.data ++ ps.flatten).take count,s') ∧
          Left s.size (s.filepos + ps.flatten.length) (s.data ++ ps.flatten).length count marked s' ∧
          (s.goteof = true → s'.goteof = true) := by
      have some' := List.length_pos_iff.mpr here
      rw [readLoop,if_neg none']
      simp only [fillBuffer,if_pos (Or.inl here),if_neg here]
      generalize least : min count s.data.length = chunk
      obtain ⟨s',run,left,kept⟩ := ih (comingData coming (s.data.drop chunk)) (show count - chunk ≤ turns by omega)
        (buf ++ s.data.take chunk)
      have inside : chunk ≤ (s.data ++ ps.flatten).length := by
        rw [List.length_append]
        omega
      refine ⟨s',?_,leftBehind ?_ (show chunk ≤ count by omega) inside,kept⟩
      · rw [run,List.append_assoc]
        congr 2
        by_cases whole : count ≤ s.data.length
        · obtain rfl : chunk = count := by omega
          rw [Nat.sub_self,List.take_zero,List.append_nil,List.take_append_of_le_length whole]
        · obtain rfl : chunk = s.data.length := by omega
          rw [List.take_length,List.drop_length,List.nil_append,List.take_append,
            List.take_of_length_le (show s.data.length ≤ count by omega)]
      · rw [List.length_append,List.length_drop] at left
        rw [List.length_append,
          show s.data.length + ps.flatten.length - chunk = s.data.length - chunk + ps.flatten.length by omega]
        exact left
    by_cases drained : s.data = []
    · have self := drainedSelf drained
      rw [drained,List.nil_append]
      cases coming with
      | ended eof =>
        refine ⟨s,?_,⟨fun less => ?_,fun same => absurd same none',fun _ => ⟨drained,eof⟩,fun more => ?_⟩,id⟩
        · simp [readLoop,none',fillBuffer,eof,drained]
        · cases less
        · exact absurd (eof.symm.trans more) (by decide)
      | closing more empty eof =>
        rw [self] at empty eof
        refine ⟨ops s,?_,⟨fun less => ?_,fun same => absurd same none',fun _ => ⟨empty,eof⟩,fun open' => ?_⟩,fun _ => eof⟩
        · simp [readLoop,none',fillBuffer,more,drained,empty]
        · cases less
        · exact absurd (eof.symm.trans open') (by decide)
      | @packet _ p ps _ more some' data filepos size rest =>
        rw [self] at data filepos size rest
        obtain ⟨s',run,left,kept⟩ := filled rest (by rw [data]; exact some')
        have again : readLoop ops (turns + 1) count buf s = readLoop ops (turns + 1) count buf (ops s) := by
          simp [readLoop,none',fillBuffer,more,drained,data,some']
        rw [data] at run left
        have last : (ops s).filepos + ps.flatten.length = s.filepos + (p::ps).flatten.length := by
          rw [filepos,List.flatten_cons,List.length_append]
          omega
        rw [last] at left
        refine ⟨s',by rw [again,run]; rfl,⟨left.before,left.at',left.behind,fun open' => ?_⟩,
          fun eof => by rw [more] at eof; cases eof⟩
        have open'' : (ops s).goteof = false := by
          by_contra eof
          rw [kept (by simpa using eof)] at open'
          cases open'
        exact (left.size open').trans (size open'')
    · exact filled coming drained

/- For a connection that brings no more than the size it has announced: *have_more is as it should be unless the call takes the
last byte of a known size in front of the end, or the count overflows its int. -/
theorem pxeReports (coming : Coming ops s ps marked) (honest : s.goteof = false → s.filepos + ps.flatten.length ≤ s.size)
    (blocks : Nat) : (∃ r, pxeGetfssec ops s blocks = some r ∧ Reports r.haveMore (r.buf = s.data ++ ps.flatten)) ↔
      blocks * tftpBlocksize % 2^32 < 2^31 ∧ ¬ (blocks * tftpBlocksize % 2^32 = (s.data ++ ps.flatten).length ∧
      marked = false ∧
        s.size ≤ s.filepos + ps.flatten.length) := by
  unfold pxeGetfssec
  generalize blocks * tftpBlocksize % 2^32 = count
  by_cases overflow : 2^31 ≤ count
  · simp only [if_pos overflow]
    refine iff_of_false ?_ (by omega)
    rintro ⟨_,none',_⟩
    cases none'
  obtain ⟨s',run,left,kept⟩ := readLoopLeft coming count (Nat.le_refl count) []
  simp only [if_neg overflow,run,List.nil_append]
  by_cases more : s'.data ≠ [] ∨ s'.filepos < s'.size
  · rw [if_pos more]
    refine iff_of_true ⟨_,rfl,Getfssec.trueReports _⟩ ⟨by omega,?_⟩
    rintro ⟨same,rfl,small⟩
    obtain ⟨drained,last,open'⟩ := left.at' same
    have size := left.size open'
    have at' := last open'
    rcases more with some' | more
    · exact some' drained
    · omega
  rw [if_neg more]
  obtain ⟨drained,past⟩ := not_or.mp more
  have drained := not_not.mp drained
  cases eof : s'.goteof with
  | true =>
    have all : (s.data ++ ps.flatten).length ≤ count := by
      by_contra less
      have open' := (left.before (by omega) drained).2
      exact absurd (eof.symm.trans open') (by decide)
    refine iff_of_true ⟨_,rfl,?_⟩ ⟨by omega,?_⟩
    · rw [if_pos rfl]
      exact Getfssec.falseReports.2 (List.take_of_length_le all)
    · rintro ⟨same,rfl,_⟩
      exact absurd (eof.symm.trans (left.at' same).2.2) (by decide)
  | false =>
    have open' : s.goteof = false := by
      by_contra eof'
      rw [kept (by simpa using eof')] at eof
      cases eof
    have fair := honest open'
    have size := left.size eof
    refine iff_of_false ?_ ?_
    · rintro ⟨r,same,reports⟩
      cases same
      exact Getfssec.noneReports _ reports
    · rintro ⟨_,fine⟩
      refine fine ?_
      rcases Nat.lt_trichotomy count (s.data ++ ps.flatten).length with less | same | behind
      · have := (left.before less drained).1
        omega
      · obtain ⟨_,last,open''⟩ := left.at' same
        have at' := last eof
        exact ⟨same,open''.symm.trans eof,by omega⟩
      · exact absurd (eof.symm.trans (left.behind behind).2) (by decide)

end

/- A connection on which packets of a file wait, the last one shorter than a block. -/
def packetOps (s : Socket (List Bytes)) : Socket (List Bytes) :=
  match s.pvt with
  | [] => s
  | p::ps =>
      let last := p.length < tftpBlocksize
      { size := if last then s.filepos + p.length else s.size, filepos := s.filepos + p.length, data := p,
        goteof := last, pvt := ps }

end Syslinux.Pxe

namespace Syslinux.HaveMore
open Getfssec (Reports Fs File Bounded Placed genericGetfssec)
open Pxe (Socket Bytes Coming pxeGetfssec tftpBlocksize)

/- Both functions. -/
theorem haveMoreAssigned (shift size offset n : Nat) {σ : Type} (ops : Socket σ → Socket σ) (s : Socket σ) (ps : List Bytes)
    (marked : Bool) (blocks : Nat) :
    (0 < shift → shift < 32 → 0 < n → offset < 2^32 → offset ≤ size →
      ((∀ (τ : Type) (fs : Fs τ) (file : File τ), fs.sectorShift = shift → Bounded fs → Placed file.inode →
      file.inode.size = size →
        file.offset = offset → ∃ r, genericGetfssec fs file n = some r ∧ Reports r.haveMore (size ≤ offset + r.bytesRead)) ↔
      0 < (size - offset) % 2^32 ∧ (size - offset) % 2^32 + (2^shift - 1) < 2^32 ∧
        (size - offset < 2^32 ∨ n*2^shift < (size - offset) % 2^32))) ∧
    (Coming ops s ps marked → (s.goteof = false → s.filepos + ps.flatten.length ≤ s.size) →
      ((∃ r, pxeGetfssec ops s blocks = some r ∧ Reports r.haveMore (r.buf = s.data ++ ps.flatten)) ↔
        blocks * tftpBlocksize % 2^32 < 2^31 ∧ ¬ (blocks * tftpBlocksize % 2^32 = (s.data ++ ps.flatten).length ∧
          marked = false ∧ s.size ≤ s.filepos + ps.flatten.length))) :=
  ⟨fun wide narrow some' small inside => Getfssec.genericReports ⟨wide,narrow⟩ some' small inside,
    fun coming honest => Pxe.pxeReports coming honest blocks⟩

/- A sector of a file of 1000 bytes, and a block of a connection that brings five bytes. -/
theorem haveMoreAssignedSmall :
    (∃ r, genericGetfssec (Getfssec.plainFs 9) (Getfssec.plainFile 1000 0) 1 = some r ∧
    Reports r.haveMore (1000 ≤ 0 + r.bytesRead)) ∧
    ∃ r, pxeGetfssec Pxe.packetOps ⟨2^64 - 1,0,[],false,[[1,2,3,4,5]]⟩ 1 = some r ∧
      Reports r.haveMore (r.buf = [1,2,3,4,5]) := by
  obtain ⟨generic,pxe⟩ := haveMoreAssigned 9 1000 0 1 Pxe.packetOps ⟨2^64 - 1,0,[],false,[[1,2,3,4,5]]⟩ [[1,2,3,4,5]] true 1
  refine ⟨?_,?_⟩
  · exact (generic (by decide) (by decide) (by decide) (by decide) (by decide)).mpr (by decide)
      Unit (Getfssec.plainFs 9) (Getfssec.plainFile 1000 0) rfl (Getfssec.plainBounded 9)
      (Getfssec.plainPlaced 1000 0) rfl rfl
  · have coming : Coming Pxe.packetOps ⟨2^64 - 1,0,[],false,[[1,2,3,4,5]]⟩ [[1,2,3,4,5]] true :=
      .packet rfl (by decide) rfl rfl (fun open' => by cases open') (.ended rfl)
    exact (pxe coming fun _ => by decide).mpr (by decide)

/- An empty file, and the one block of a file of 512 bytes in front of the empty packet that ends it. -/
set_option maxRecDepth 8000 in
theorem haveMoreLeft :
    (genericGetfssec (Getfssec.plainFs 9) (Getfssec.plainFile 0 0) 1).map (fun r => r.haveMore) = some none ∧
    (pxeGetfssec Pxe.packetOps ⟨512,0,[],false,[List.replicate 512 7,[]]⟩ 1).map (fun r => r.haveMore) = some none ∧
    ∀ delivered, ¬ Reports none delivered :=
  ⟨by decide,by decide,Getfssec.noneReports⟩

end Syslinux.HaveMore
