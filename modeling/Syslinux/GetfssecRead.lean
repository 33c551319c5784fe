import Syslinux.Getfssec

/-! Reading a file to its end with generic_getfssec, whatever the sector counts. An
extent is good when every byte of the file in its sectors is where the extent says;
the two cached extents stay good from call to call. -/
namespace Syslinux.Getfssec

variable {σ : Type}

theorem sectorSizePos (fs : Fs σ) : 0 < fs.sectorSize := Nat.two_pow_pos _

section
variable (fs : Fs σ) (content : Nat → UInt8) (size : Nat)

structure Maps (e : Extent) : Prop where
  nonempty : 0 < e.len
  numbers : e.lstart + e.len < 2^32
  real : e.pstart ≠ extentZero → e.pstart + e.len ≤ extentVoid
  data : ∀ p, p < e.len * fs.sectorSize → e.lstart * fs.sectorSize + p < size →
    content (e.lstart * fs.sectorSize + p) = fs.byteAt e.pstart p

def Cached (e : Extent) : Prop := e.len = 0 ∨ Maps fs content size e

/- The contract of next_extent. `ready` is what the filesystem keeps true of its private
data; it may rely on the extent it returned before. -/
def Contract (ready : σ → Prop) : Prop :=
  ∀ pvt prev lstart, ready pvt → Cached fs content size prev → lstart * fs.sectorSize < size →
    ∃ e pvt', fs.nextExtent pvt prev lstart = (0,e,pvt') ∧ ready pvt' ∧
      Maps fs content size { e with lstart := lstart }

structure Valid (ready : σ → Prop) (inode : Inode σ) : Prop where
  bytes : inode.size = size
  pvt : ready inode.pvt
  this : Cached fs content size inode.thisExtent
  next : Cached fs content size inode.nextExtent

end

section
variable {fs : Fs σ} {content : Nat → UInt8} {size : Nat} {ready : σ → Prop}

theorem byteAtSkip {pstart delta p : Nat} (real : pstart ≠ extentZero) (real' : pstart + delta ≠ extentZero) :
    fs.byteAt pstart (delta * fs.sectorSize + p) = fs.byteAt (pstart + delta) p := by
  have pos := sectorSizePos fs
  unfold Fs.byteAt
  rw [if_neg real,if_neg real',Nat.mul_comm,Nat.mul_add_div pos,Nat.mul_add_mod,Nat.add_assoc]

theorem byteAtZero {p : Nat} : fs.byteAt extentZero p = 0 := by simp [Fs.byteAt]

theorem Maps.skip {e : Extent} (h : Maps fs content size e) (delta : Nat) (less : delta < e.len) {pstart : Nat}
    (at' : pstart = if e.pstart = extentZero then extentZero else e.pstart + delta) :
    Maps fs content size ⟨pstart,e.lstart + delta,e.len - delta⟩ := by
  have numbers := h.numbers
  refine ⟨by simp only; omega,by simp only; omega,?_,?_⟩
  · intro real
    simp only at real ⊢
    rw [at'] at real ⊢
    split at real
    · exact absurd rfl real
    · rename_i real'
      have := h.real real'
      rw [if_neg real']; omega
  · intro p small inFile
    simp only at small inFile ⊢
    have place : (e.lstart + delta) * fs.sectorSize + p = e.lstart * fs.sectorSize + (delta * fs.sectorSize + p) := by
      ring
    have inside : delta * fs.sectorSize + p < e.len * fs.sectorSize := by
      have split' : e.len * fs.sectorSize = delta * fs.sectorSize + (e.len - delta) * fs.sectorSize := by
        rw [← Nat.add_mul]; congr 1; omega
      omega
    rw [place] at inFile ⊢
    rw [h.data _ inside inFile,at']
    by_cases zero : e.pstart = extentZero
    · rw [if_pos zero,zero,byteAtZero,byteAtZero]
    · have := h.real zero
      rw [if_neg zero,byteAtSkip zero (by unfold extentVoid at this; unfold extentZero; omega)]

theorem Maps.join {a b : Extent} (ha : Maps fs content size a) (hb : Maps fs content size b)
    (follows : b.lstart = a.lstart + a.len) (adjacent : b.pstart = nextPstart a) :
    Maps fs content size { a with len := a.len + b.len } := by
  have numbers := hb.numbers
  have some' := ha.nonempty
  have some'' := hb.nonempty
  unfold nextPstart nextPsector at adjacent
  have place : b.pstart = if a.pstart = extentZero then extentZero else a.pstart + a.len := by
    by_cases zero : a.pstart = extentZero
    · rw [adjacent,if_pos (by rw [zero]; decide),if_pos zero,zero]
    · have := ha.real zero
      unfold extentVoid at *
      rw [adjacent,if_neg (by omega),if_neg zero,Nat.mod_eq_of_lt (by omega)]
  refine ⟨by simp only; omega,by simp only; omega,?_,?_⟩
  · intro real
    simp only at real ⊢
    have end' := ha.real real
    rw [if_neg real] at place
    have := hb.real (by rw [place]; unfold extentVoid at end'; unfold extentZero; omega)
    omega
  · intro p small inFile
    simp only at small inFile ⊢
    by_cases first : p < a.len * fs.sectorSize
    · exact ha.data p first inFile
    · have total : (a.len + b.len) * fs.sectorSize = a.len * fs.sectorSize + b.len * fs.sectorSize := Nat.add_mul _ _ _
      have start : b.lstart * fs.sectorSize = a.lstart * fs.sectorSize + a.len * fs.sectorSize := by
        rw [follows,Nat.add_mul]
      have value := hb.data (p - a.len * fs.sectorSize) (by omega) (by omega)
      rw [show b.lstart * fs.sectorSize + (p - a.len * fs.sectorSize) = a.lstart * fs.sectorSize + p by omega] at value
      rw [value,place]
      by_cases zero : a.pstart = extentZero
      · rw [if_pos zero,zero,byteAtZero,byteAtZero]
      · have end' := ha.real zero
        rw [if_neg zero,← byteAtSkip zero (by unfold extentVoid at end'; unfold extentZero; omega)]
        congr 1; omega

theorem notHasEmpty {e : Extent} {lsector : Nat} (empty : e.len = 0) : ¬ e.has lsector := by
  unfold Extent.has add32
  rw [empty,Nat.add_zero]
  have := Nat.mod_le e.lstart (2^32)
  omega

theorem Maps.has {e : Extent} (h : Maps fs content size e) {lsector : Nat} :
    e.has lsector ↔ e.lstart ≤ lsector ∧ lsector < e.lstart + e.len := by
  unfold Extent.has
  rw [add32Eq h.numbers]
  omega

theorem seekOk {inode : Inode σ} (h : Valid fs content size ready inode) (lsector : Nat) :
    Valid fs content size ready (seek inode lsector) ∧ (seek inode lsector).thisExtent.lstart = lsector := by
  have this : Cached fs content size (if inode.thisExtent.has lsector then inode.thisExtent else inode.nextExtent) := by
    split
    · exact h.this
    · exact h.next
  unfold seek
  generalize (if inode.thisExtent.has lsector then inode.thisExtent else inode.nextExtent) = e at this
  simp only
  by_cases has : e.has lsector
  · rw [if_pos has]
    rcases this with empty | maps
    · exact absurd has (notHasEmpty empty)
    · obtain ⟨low,high⟩ := maps.has.1 has
      refine ⟨⟨h.bytes,h.pvt,Or.inr ?_,h.next⟩,rfl⟩
      have rest := maps.skip (lsector - e.lstart) (by omega) rfl
      rw [show e.lstart + (lsector - e.lstart) = lsector by omega] at rest
      simp only
      rw [sub32Eq (by omega)]
      convert rest using 2
      unfold nextPsector
      by_cases zero : e.pstart = extentZero
      · rw [if_pos (by rw [zero]; decide),if_pos zero,zero]
      · have := maps.real zero
        unfold extentVoid at *
        rw [if_neg (by omega),if_neg zero,Nat.mod_eq_of_lt (by omega)]
  · rw [if_neg has]
    exact ⟨⟨h.bytes,h.pvt,Or.inl rfl,h.next⟩,rfl⟩

theorem Cached.end {e : Extent} (h : Cached fs content size e) (bound : e.lstart < 2^32) :
    add32 e.lstart e.len = e.lstart + e.len := by
  rcases h with empty | maps
  · rw [empty]; exact add32Eq (by omega)
  · exact add32Eq maps.numbers

theorem nextOk (contract : Contract fs content size ready) {inode : Inode σ} (h : Valid fs content size ready inode)
    (bound : inode.thisExtent.lstart < 2^32)
    (more : (inode.thisExtent.lstart + inode.thisExtent.len) * fs.sectorSize < size) {inode' : Inode σ}
    (fetched : inode' = if inode.nextExtent.len = 0 ∨
      inode.nextExtent.lstart ≠ add32 inode.thisExtent.lstart inode.thisExtent.len then getNextExtent fs inode else inode) :
    inode'.size = size ∧ ready inode'.pvt ∧ inode'.thisExtent = inode.thisExtent ∧
      Maps fs content size inode'.nextExtent ∧
      inode'.nextExtent.lstart = inode.thisExtent.lstart + inode.thisExtent.len := by
  have end' := h.this.end bound
  rw [end'] at fetched
  split at fetched
  · obtain ⟨e,pvt,returned,ready',maps⟩ := contract inode.pvt inode.nextExtent _ h.pvt h.next more
    subst fetched
    simp only [getNextExtent,end',returned]
    exact ⟨h.bytes,ready',trivial,maps,trivial⟩
  · rename_i present
    simp only [not_or,not_not] at present
    subst fetched
    rcases h.next with empty | maps
    · exact absurd empty present.1
    · exact ⟨h.bytes,h.pvt,rfl,maps,present.2⟩

theorem lookaheadOk (contract : Contract fs content size ready) (fuel : Nat) {sectors : Nat} {inode : Inode σ}
    (h : Valid fs content size ready inode) (bound : inode.thisExtent.lstart < 2^32) (some' : 0 < sectors)
    (inFile : (inode.thisExtent.lstart + sectors - 1) * fs.sectorSize < size)
    (enough : sectors ≤ inode.thisExtent.len + fuel) :
    ∃ inode', lookahead fs fuel sectors inode = some (sectors,inode') ∧ Valid fs content size ready inode' ∧
      inode'.thisExtent.lstart = inode.thisExtent.lstart ∧ 0 < inode'.thisExtent.len := by
  induction fuel generalizing inode with
  | zero =>
    refine ⟨inode,?_,h,rfl,by omega⟩
    unfold lookahead
    rw [if_pos (by omega)]
  | succ fuel ih =>
    unfold lookahead
    by_cases held : sectors ≤ inode.thisExtent.len
    · exact ⟨inode,by rw [if_pos held],h,rfl,by omega⟩
    · rw [if_neg held]
      have more : (inode.thisExtent.lstart + inode.thisExtent.len) * fs.sectorSize < size := by
        refine Nat.lt_of_le_of_lt (Nat.mul_le_mul_right _ ?_) inFile
        omega
      simp only
      generalize fetched : (if inode.nextExtent.len = 0 ∨
        inode.nextExtent.lstart ≠ add32 inode.thisExtent.lstart inode.thisExtent.len then getNextExtent fs inode
        else inode) = inode1
      obtain ⟨size1,ready1,this1,maps1,lstart1⟩ := nextOk contract h bound more fetched.symm
      have some1 := maps1.nonempty
      by_cases empty : inode.thisExtent.len = 0
      · rw [if_pos empty,if_neg (by omega)]
        rw [empty,Nat.add_zero] at lstart1
        have valid1 : Valid fs content size ready { inode1 with thisExtent := inode1.nextExtent } :=
          ⟨size1,ready1,Or.inr maps1,Or.inr maps1⟩
        obtain ⟨inode2,run,valid,same,pos⟩ := ih valid1 (by simp only; omega) (by simp only [lstart1]; exact inFile)
          (by simp only; omega)
        exact ⟨inode2,run,valid,same.trans lstart1,pos⟩
      · rw [if_neg empty]
        have maps : Maps fs content size inode.thisExtent := by
          rcases h.this with none' | maps
          · exact absurd none' empty
          · exact maps
        by_cases adjacent : inode1.nextExtent.len ≠ 0 ∧ inode1.nextExtent.pstart = nextPstart inode.thisExtent
        · rw [if_pos adjacent]
          have joined := maps.join maps1 lstart1 adjacent.2
          have numbers := joined.numbers
          simp only at numbers
          rw [add32Eq (by omega)]
          have valid1 : Valid fs content size ready { inode1 with thisExtent :=
              { inode.thisExtent with len := inode.thisExtent.len + inode1.nextExtent.len } } :=
            ⟨size1,ready1,Or.inr joined,Or.inr maps1⟩
          obtain ⟨inode2,run,valid,same,pos⟩ := ih valid1 bound inFile (by simp only; omega)
          exact ⟨inode2,run,valid,same,pos⟩
        · rw [if_neg adjacent]
          refine ⟨inode1,rfl,⟨size1,ready1,?_,Or.inr maps1⟩,by rw [this1],by rw [this1]; omega⟩
          rw [this1]; exact h.this

theorem readLoopOk (contract : Contract fs content size ready) (fuel sectors : Nat) (buf : List UInt8)
    (bytesRead : Nat) {inode : Inode σ} (h : Valid fs content size ready inode)
    (bound : inode.thisExtent.lstart + sectors < 2^32)
    (inFile : 0 < sectors → (inode.thisExtent.lstart + sectors - 1) * fs.sectorSize < size)
    (counts : bytesRead + sectors * fs.sectorSize < 2^32) (enough : sectors ≤ fuel) :
    ∃ data inode', readLoop fs fuel sectors buf bytesRead inode =
        some (buf ++ data,bytesRead + sectors * fs.sectorSize,inode') ∧
      Valid fs content size ready inode' ∧ data.length = sectors * fs.sectorSize ∧
      ∀ p, p < sectors * fs.sectorSize → inode.thisExtent.lstart * fs.sectorSize + p < size →
        data[p]? = some (content (inode.thisExtent.lstart * fs.sectorSize + p)) := by
  induction fuel generalizing sectors buf bytesRead inode with
  | zero =>
    have none' : sectors = 0 := by omega
    subst none'
    refine ⟨[],inode,?_,h,by simp,by simp⟩
    unfold readLoop
    simp
  | succ fuel ih =>
    by_cases none' : sectors = 0
    · subst none'
      refine ⟨[],inode,?_,h,by simp,by simp⟩
      unfold readLoop
      simp
    · unfold readLoop
      rw [if_neg none']
      obtain ⟨inode1,looked,valid1,lstart1,some1⟩ :=
        lookaheadOk contract (sectors + 1) h (by omega) (by omega) (inFile (by omega)) (by omega)
      have maps : Maps fs content size inode1.thisExtent := by
        rcases valid1.this with empty | maps
        · omega
        · exact maps
      have numbers := maps.numbers
      simp only [looked,Option.bind_eq_bind,Option.bind_some]
      generalize least : min sectors inode1.thisExtent.len = chunk
      have all : sectors * fs.sectorSize = chunk * fs.sectorSize + (sectors - chunk) * fs.sectorSize := by
        rw [← Nat.add_mul]; congr 1; omega
      rw [Nat.mod_eq_of_lt (by omega),add32Eq (by omega : bytesRead + chunk * fs.sectorSize < 2^32),
        add32Eq (by omega : inode1.thisExtent.lstart + chunk < 2^32)]
      generalize moved : (if inode1.thisExtent.pstart = extentZero then inode1.thisExtent.pstart
        else (inode1.thisExtent.pstart + chunk) % 2^64) = pstart
      have rest : Cached fs content size ⟨pstart,inode1.thisExtent.lstart + chunk,inode1.thisExtent.len - chunk⟩ := by
        by_cases used : chunk = inode1.thisExtent.len
        · exact Or.inl (by simp only; omega)
        · refine Or.inr (maps.skip chunk (by omega) ?_)
          rw [← moved]
          by_cases zero : inode1.thisExtent.pstart = extentZero
          · rw [if_pos zero,if_pos zero,zero]
          · have := maps.real zero
            unfold extentVoid at this
            rw [if_neg zero,if_neg zero,Nat.mod_eq_of_lt (by omega)]
      have advanced : Valid fs content size ready { inode1 with
          thisExtent := ⟨pstart,inode1.thisExtent.lstart + chunk,inode1.thisExtent.len - chunk⟩ } :=
        ⟨valid1.bytes,valid1.pvt,rest,valid1.next⟩
      obtain ⟨data,inode2,run,valid2,length,values⟩ := ih (sectors - chunk)
        (buf ++ readSectors fs inode1.thisExtent.pstart chunk) (bytesRead + chunk * fs.sectorSize) advanced
        (by simp only; omega)
        (by
          intro left
          simp only
          rw [show inode1.thisExtent.lstart + chunk + (sectors - chunk) - 1 =
            inode.thisExtent.lstart + sectors - 1 by omega]
          exact inFile (by omega))
        (by omega) (by omega)
      have first : (readSectors fs inode1.thisExtent.pstart chunk).length = chunk * fs.sectorSize := by
        simp [readSectors]
      refine ⟨readSectors fs inode1.thisExtent.pstart chunk ++ data,inode2,?_,valid2,?_,?_⟩
      · rw [run]
        simp only [List.append_assoc,Option.some.injEq,Prod.mk.injEq,true_and,and_true]
        omega
      · rw [List.length_append,first,length,all]
      · intro p small inside
        by_cases here : p < chunk * fs.sectorSize
        · have within : p < inode1.thisExtent.len * fs.sectorSize :=
            Nat.lt_of_lt_of_le here (Nat.mul_le_mul_right _ (by omega))
          rw [List.getElem?_append_left (by omega),← lstart1,maps.data p within (by rw [lstart1]; exact inside)]
          simp [readSectors,read,here]
        · have start : (inode1.thisExtent.lstart + chunk) * fs.sectorSize =
              inode.thisExtent.lstart * fs.sectorSize + chunk * fs.sectorSize := by rw [lstart1,Nat.add_mul]
          have value := values (p - chunk * fs.sectorSize) (by omega) (by simp only [start]; omega)
          simp only [start] at value
          rw [List.getElem?_append_right (by omega),first,value]
          congr 2; omega

/- One call, in terms of the bytes_left it computes: `left` is the rest of the file
unless a 32-bit sum has wrapped. -/
structure CallOk (fs : Fs σ) (content : Nat → UInt8) (size : Nat) (ready : σ → Prop) (file : File σ)
    (sectors left : Nat) (r : Result σ) : Prop where
  bytes : r.bytesRead = min (sectors * fs.sectorSize) left
  more : r.haveMore = some (decide (r.bytesRead < left))
  offset : r.file.offset = file.offset + r.bytesRead
  data : r.buf.take r.bytesRead = read content file.offset r.bytesRead
  valid : Valid fs content size ready r.file.inode

theorem callOk (contract : Contract fs content size ready) {file : File σ} {sectors : Nat} (left : Nat)
    (h : Valid fs content size ready file.inode) (aligned : file.offset % fs.sectorSize = 0) (some' : 0 < sectors)
    (left' : (size + 2^64 - file.offset) % 2^32 = left) (pos : 0 < left) (inFile : file.offset + left ≤ size)
    (fits : left + (fs.sectorSize - 1) < 2^32) (fits' : file.offset + left < 2^32) :
    ∃ r, genericGetfssec fs file sectors = some r ∧ CallOk fs content size ready file sectors left r := by
  have unit := sectorSizePos fs
  have whole := Nat.div_add_mod (left + (fs.sectorSize - 1)) fs.sectorSize
  have rest := Nat.mod_lt (left + (fs.sectorSize - 1)) unit
  have start : file.offset / fs.sectorSize * fs.sectorSize = file.offset := Nat.div_mul_cancel (Nat.dvd_of_mod_eq_zero aligned)
  unfold genericGetfssec
  simp only [h.bytes,left',add32Eq fits]
  generalize (left + (fs.sectorSize - 1)) / fs.sectorSize = total at whole
  rw [Nat.mul_comm] at whole
  generalize most : (if total < sectors then total else sectors) = count
  have positive : 0 < total := by
    by_contra none'
    rw [show total = 0 by omega] at whole; omega
  have bounds : 0 < count ∧ count ≤ total ∧ count ≤ sectors := by
    rw [← most]; split <;> omega
  have small : count * fs.sectorSize ≤ total * fs.sectorSize := Nat.mul_le_mul_right _ bounds.2.1
  have last : (count - 1) * fs.sectorSize + fs.sectorSize = count * fs.sectorSize := by
    rw [← Nat.succ_mul]; congr 1; omega
  have end' : (file.offset / fs.sectorSize + count - 1) * fs.sectorSize = file.offset + (count - 1) * fs.sectorSize := by
    rw [Nat.add_sub_assoc (by omega),Nat.add_mul,start]
  have number : file.offset / fs.sectorSize + count - 1 ≤ (file.offset / fs.sectorSize + count - 1) * fs.sectorSize :=
    Nat.le_mul_of_pos_right _ unit
  obtain ⟨valid,lstart⟩ := seekOk h (file.offset / fs.sectorSize)
  obtain ⟨data,inode,run,valid',length,values⟩ := readLoopOk contract count count [] 0
    valid (by omega) (by intro _; rw [lstart,end']; omega) (by omega) (Nat.le_refl _)
  rw [lstart,start] at values
  rw [if_neg (by omega),run]
  simp only [Option.bind_eq_bind,Option.bind_some,List.nil_append,Nat.zero_add,Option.some.injEq,exists_eq_left']
  -- a call that is not cut at the end of the file reads whole sectors inside it
  have amount : min (count * fs.sectorSize) left = min (sectors * fs.sectorSize) left := by
    by_cases cut : total < sectors
    · rw [if_pos cut] at most
      have : total * fs.sectorSize ≤ sectors * fs.sectorSize := Nat.mul_le_mul_right _ (by omega)
      subst most; omega
    · rw [if_neg cut] at most
      rw [most]
  refine ⟨amount,rfl,add32Eq (by omega),?_,valid'⟩
  refine List.ext_getElem? ?_
  intro p
  by_cases inside : p < min (count * fs.sectorSize) left
  · rw [List.getElem?_take_of_lt inside,values p (by omega) (by omega)]
    simp [read,inside]
  · rw [List.getElem?_eq_none (by simp; omega),List.getElem?_eq_none (by simp; omega)]

end

/- The files a sequence of calls leads to, with all the bytes returned so far. -/
inductive Run (fs : Fs σ) (start : File σ) : File σ → List UInt8 → Prop where
  | start : Run fs start start []
  | read {file out n r} (before : Run fs start file out) (more : file.offset < file.inode.size) (some' : 0 < n)
      (int : n < 2^31) (ok : genericGetfssec fs file n = some r) :
      Run fs start r.file (out ++ r.buf.take r.bytesRead)

structure Served (fs : Fs σ) (content : Nat → UInt8) (size : Nat) (file : File σ) (out : List UInt8) (n : Nat)
    (r : Result σ) : Prop where
  delivered : out ++ r.buf.take r.bytesRead = read content 0 r.file.offset
  offset : r.file.offset = (out ++ r.buf.take r.bytesRead).length
  bound : r.file.offset ≤ size
  amount : r.bytesRead = min (n * fs.sectorSize) (size - file.offset)
  more : r.haveMore = some (decide (r.file.offset < size))

def ReadsFile (fs : Fs σ) (content : Nat → UInt8) (start : File σ) : Prop :=
  ∀ file out n, Run fs start file out → file.offset < start.inode.size → 0 < n → n < 2^31 →
    ∃ r, genericGetfssec fs file n = some r ∧ Served fs content start.inode.size file out n r

section
variable {fs : Fs σ} {content : Nat → UInt8} {ready : σ → Prop}

structure Reading (fs : Fs σ) (content : Nat → UInt8) (size : Nat) (ready : σ → Prop) (file : File σ)
    (out : List UInt8) : Prop where
  valid : Valid fs content size ready file.inode
  delivered : out = read content 0 file.offset
  bound : file.offset ≤ size
  aligned : file.offset < size → file.offset % fs.sectorSize = 0

theorem readingCall {size : Nat} (contract : Contract fs content size ready) (fits : size + fs.sectorSize - 1 < 2^32)
    {file : File σ} {out : List UInt8} (h : Reading fs content size ready file out) (more : file.offset < size)
    {n : Nat} (some' : 0 < n) :
    ∃ r, genericGetfssec fs file n = some r ∧ Served fs content size file out n r ∧
      Reading fs content size ready r.file (out ++ r.buf.take r.bytesRead) := by
  have unit := sectorSizePos fs
  obtain ⟨r,ok,call⟩ := callOk contract (size - file.offset) h.valid (h.aligned more) some'
    (by omega) (by omega) (by omega) (by omega) (by omega)
  have bytes := call.bytes
  have offset := call.offset
  have delivered : out ++ r.buf.take r.bytesRead = read content 0 r.file.offset := by
    rw [call.data,h.delivered,offset,readAppend,Nat.zero_add]
  refine ⟨r,ok,⟨delivered,by rw [delivered,readLength],by omega,bytes,?_⟩,call.valid,delivered,by omega,?_⟩
  · rw [call.more]
    simp only [Option.some.injEq,decide_eq_decide]
    omega
  · intro left
    rw [offset,show r.bytesRead = n * fs.sectorSize by omega,Nat.add_mul_mod_self_right]
    exact h.aligned more

theorem runReading {start : File σ} (contract : Contract fs content start.inode.size ready)
    (valid : Valid fs content start.inode.size ready start.inode) (zero : start.offset = 0)
    (fits : start.inode.size + fs.sectorSize - 1 < 2^32) {file : File σ} {out : List UInt8}
    (run : Run fs start file out) : Reading fs content start.inode.size ready file out := by
  induction run with
  | start => exact ⟨valid,by rw [zero]; rfl,by omega,by simp [zero]⟩
  | read before more some' int ok ih =>
    rw [ih.valid.bytes] at more
    obtain ⟨r,ok',_,next⟩ := readingCall contract fits ih more some'
    rw [ok] at ok'
    cases Option.some.inj ok'
    exact next

/- A first call whose rounding wraps, or that takes the size for 0, reads nothing and
does not write *have_more. -/
theorem firstCallEmpty {file : File σ} {n : Nat} (left : Nat) (some' : 0 < n)
    (left' : (file.inode.size + 2^64 - file.offset) % 2^32 = left) (wide : fs.sectorShift < 32)
    (wraps : left = 0 ∨ 2^32 ≤ left + (fs.sectorSize - 1)) :
    genericGetfssec fs file n = some ⟨[],0,none,file⟩ := by
  have unit := sectorSizePos fs
  have size : fs.sectorSize < 2^32 := Nat.pow_lt_pow_right (by decide) wide
  have small : left < 2^32 := by rw [← left']; exact Nat.mod_lt _ (by decide)
  have none' : add32 left (fs.sectorSize - 1) / fs.sectorSize = 0 := by
    refine Nat.div_eq_of_lt ?_
    unfold add32
    rcases wraps with rfl | over'
    · rw [Nat.zero_add,Nat.mod_eq_of_lt (by omega)]; omega
    · omega
  unfold genericGetfssec
  simp only [left',none',some',if_true]

theorem getfssecReadsFile {start : File σ} (contract : Contract fs content start.inode.size ready)
    (valid : Valid fs content start.inode.size ready start.inode) (zero : start.offset = 0)
    (nonempty : 0 < start.inode.size) (shift : 0 < fs.sectorShift ∧ fs.sectorShift < 32) :
    ReadsFile fs content start ↔ start.inode.size + fs.sectorSize - 1 < 2^32 := by
  have unit := sectorSizePos fs
  constructor
  · intro reads
    by_contra big
    generalize left' : (start.inode.size + 2^64 - start.offset) % 2^32 = left
    by_cases wraps : left = 0 ∨ 2^32 ≤ left + (fs.sectorSize - 1)
    · obtain ⟨r,ok,served⟩ := reads start [] 1 .start (by omega) (by decide) (by decide)
      rw [firstCallEmpty _ (by decide) left' shift.2 wraps] at ok
      have more := served.more
      rw [← Option.some.inj ok] at more
      contradiction
    · -- the size is taken modulo 2^32: one large read ends early
      have two : 2^1 ≤ fs.sectorSize := Nat.pow_le_pow_right (by decide) shift.1
      have reach : (2^31 - 1) * 2 ≤ (2^31 - 1) * fs.sectorSize := Nat.mul_le_mul_left _ two
      obtain ⟨r,ok,served⟩ := reads start [] (2^31 - 1) .start (by omega) (by decide) (by decide)
      obtain ⟨r',ok',call⟩ := callOk contract _ valid (by simp [zero]) (by decide : 0 < 2^31 - 1) left' (by omega)
        (by omega) (by omega) (by omega)
      rw [ok] at ok'
      cases Option.some.inj ok'
      have more := served.more
      have bytes := call.bytes
      have offset := call.offset
      rw [call.more] at more
      simp only [Option.some.injEq,decide_eq_decide] at more
      omega
  · intro fits file out n run more some' int
    have reading := runReading contract valid zero fits run
    obtain ⟨r,ok,served,_⟩ := readingCall contract fits reading more some'
    exact ⟨r,ok,served⟩

end

/- A filesystem whose only file lies at the start of the disk, mapped sector by sector. -/
def flatFs (disk : Nat → Nat → UInt8) : Fs Unit where
  sectorShift := 9
  nextExtent := fun _ _ lstart => (0,⟨lstart,0,1⟩,())
  disk := disk

def flatFile (size : Nat) : File Unit := ⟨0,⟨size,⟨0,0,0⟩,⟨0,0,0⟩,()⟩⟩

theorem flatContract {disk : Nat → Nat → UInt8} {size : Nat} (bound : size ≤ 2^32) :
    Contract (flatFs disk) ((flatFs disk).byteAt 0) size (fun _ => True) := by
  intro pvt prev lstart _ _ inFile
  have sector : (flatFs disk).sectorSize = 512 := rfl
  rw [sector] at inFile
  refine ⟨⟨lstart,0,1⟩,(),rfl,trivial,Nat.one_pos,by simp only; omega,?_,?_⟩
  · intro _
    unfold extentVoid
    simp only; omega
  · intro p _ _
    have skip : (flatFs disk).byteAt 0 (lstart * (flatFs disk).sectorSize + p) = (flatFs disk).byteAt (0 + lstart) p :=
      byteAtSkip (by decide) (by unfold extentZero; omega)
    rwa [Nat.zero_add] at skip

theorem flatValid {disk : Nat → Nat → UInt8} {size : Nat} :
    Valid (flatFs disk) ((flatFs disk).byteAt 0) size (fun _ => True) (flatFile size).inode :=
  ⟨rfl,trivial,Or.inl rfl,Or.inl rfl⟩

theorem getfssecReadsFlatFile :
    ReadsFile (flatFs (fun s j => UInt8.ofNat (s + j))) ((flatFs (fun s j => UInt8.ofNat (s + j))).byteAt 0)
      (flatFile 1000) :=
  (getfssecReadsFile (flatContract (by decide)) flatValid rfl (by decide) (by decide)).mpr (by decide)

/- A file of 2^32 - 1 bytes, the largest a FAT volume holds, is not read at all. -/
theorem getfssecStuckAtLargestFile :
    ¬ ∀ (fs : Fs Unit) (content : Nat → UInt8) (start : File Unit),
      Contract fs content start.inode.size (fun _ => True) →
      Valid fs content start.inode.size (fun _ => True) start.inode → start.offset = 0 → 0 < start.inode.size →
      0 < fs.sectorShift ∧ fs.sectorShift < 32 → ReadsFile fs content start := by
  intro claim
  have reads := claim (flatFs (fun _ _ => 1)) _ (flatFile (2^32 - 1)) (flatContract (by decide)) flatValid rfl
    (by decide) (by decide)
  obtain ⟨r,ok,served⟩ := reads (flatFile (2^32 - 1)) [] 1 .start (by decide) (by decide) (by decide)
  rw [firstCallEmpty (2^32 - 1) (by decide) (by decide) (by decide) (by decide)] at ok
  have more := served.more
  rw [← Option.some.inj ok] at more
  contradiction

end Syslinux.Getfssec
