import Syslinux.Fat
import Syslinux.WordMemory

/-! load_segments of com32/lib/sys/module/i386/elf_module.c with the check of the header and the
image_ functions of common.c. The heap is given by what malloc answers for each of its purposes
and by what is in a block that was not read in full. A read of no bytes divides by zero and has
no result. -/
namespace Syslinux.Segments
open WordMemory
open Fat (le16 le32)

/- The size of an open file is a size_t. -/
structure File where
  bytes : List UInt8
  small : bytes.length < 2^32

def byteOf (file : File) (i : Nat) : UInt8 := file.bytes.getD i 0

def slice (file : File) (a b : Nat) : List UInt8 := (file.bytes.drop a).take (b - a)

/- The members of Elf32_Ehdr that are looked at. -/
structure Ehdr where
  magic : List UInt8
  elfClass : UInt8
  data : UInt8
  identVersion : UInt8
  type : Nat
  machine : Nat
  version : Nat
  phoff : Nat
  shoff : Nat
  phentsize : Nat
  phnum : Nat
  shentsize : Nat
  shnum : Nat

def sizeofEhdr : Nat := 52

def readEhdr (file : File) : Ehdr where
  magic := file.bytes.take 4
  elfClass := byteOf file 4
  data := byteOf file 5
  identVersion := byteOf file 6
  type := le16 (byteOf file) 16
  machine := le16 (byteOf file) 18
  version := le32 (byteOf file) 20
  phoff := le32 (byteOf file) 28
  shoff := le32 (byteOf file) 32
  phentsize := le16 (byteOf file) 42
  phnum := le16 (byteOf file) 44
  shentsize := le16 (byteOf file) 46
  shnum := le16 (byteOf file) 48

/- check_header with check_header_common, after image_read of the header. -/
def checkHeader (file : File) : Bool :=
  let h := readEhdr file
  sizeofEhdr ≤ file.bytes.length && h.magic = [0x7f,0x45,0x4c,0x46] && (h.elfClass = 1 || h.elfClass = 2) && h.data = 1 &&
    h.identVersion = 1 && h.version = 1 && (h.machine = 3 || h.machine = 62) && h.type = 3 && h.phoff ≠ 0

/- The open file and _cr_offset. -/
structure Image where
  pos : Nat
  crOffset : Nat

def imageRead (file : File) (size : Nat) (img : Image) : Option (Bool × List UInt8 × Image) :=
  let got := (file.bytes.drop img.pos).take size
  if size = 0 then none
  else if got.length < size then some (false,got,{ img with pos := img.pos + got.length })
  else some (true,got,⟨img.pos + got.length,(img.crOffset + size) % 2^32⟩)

/- What the code has done to memory: where it wrote how much, and for each size that was taken from
p_filesz, both operands. -/
structure Load where
  img : Image
  mem : Memory
  writes : List (Nat × Nat)
  sizes : List (Nat × Nat)

def put (st : Load) (a : Nat) (bytes : List UInt8) : Load :=
  { st with mem := writeBytes 32 st.mem a bytes, writes := st.writes ++ [(a,bytes.length)] }

/- Without a buffer image_skip reads to address 0. -/
def imageSkip (file : File) (allocated : Bool) (size : Nat) (st : Load) : Bool × Load :=
  if size = 0 then (true,st)
  else
    let got := (file.bytes.drop st.img.pos).take size
    let st := if allocated then st else put st 0 got
    if got.length < size then (false,{ st with img := { st.img with pos := st.img.pos + got.length } })
    else (true,{ st with img := ⟨st.img.pos + got.length,(st.img.crOffset + size) % 2^32⟩ })

def imageSeek (file : File) (skipAlloc : Nat → Bool) (offset : Nat) (st : Load) : Bool × Load :=
  if offset < st.img.crOffset then (false,st)
  else imageSkip file (skipAlloc offset) (offset - st.img.crOffset) st

structure Phdr where
  type : Nat
  offset : Nat
  vaddr : Nat
  filesz : Nat
  memsz : Nat
  align : Nat
  deriving DecidableEq

def phdrAt (b : Nat → UInt8) (i : Nat) : Phdr :=
  ⟨le32 b i,le32 b (i+4),le32 b (i+8),le32 b (i+16),le32 b (i+20),le32 b (i+28)⟩

def headersIn (h : Ehdr) (b : Nat → UInt8) : List Phdr := (List.range h.phnum).map fun i => phdrAt b (i*h.phentsize)

def ptLoad : Nat := 1
def ptDynamic : Nat := 2
def shtDynsym : Nat := 11

structure Span where
  minAddr : Nat
  maxAddr : Nat
  maxAlign : Nat
  dynAddr : Nat

/- One header; only one at the very beginning of the table sets min_addr. -/
def widen (s : Span) (i : Nat) (ph : Phdr) : Span :=
  if ph.type = ptLoad then
    { s with
      minAddr := if i = 0 then ph.vaddr else min s.minAddr ph.vaddr
      maxAddr := max s.maxAddr ((ph.vaddr + ph.memsz) % 2^32)
      maxAlign := max s.maxAlign ph.align }
  else if ph.type = ptDynamic then { s with dynAddr := ph.vaddr }
  else s

def spanOf (phdrs : List Phdr) : Span := phdrs.zipIdx.foldl (fun s (ph,i) => widen s i ph) ⟨0,0,4,0⟩

def Span.minAlloc (s : Span) : Nat := s.minAddr - s.minAddr % s.maxAlign

def Span.maxAlloc (s : Span) : Nat :=
  (s.maxAddr - s.maxAddr % s.maxAlign + if 0 < s.maxAddr % s.maxAlign then s.maxAlign else 0) % 2^32

/- max_alloc - min_alloc -/
def Span.size (s : Span) : Nat := (s.maxAlloc + (2^32 - s.minAlloc)) % 2^32

/- elf_malloc of elfutils.c, with malloc's answer. -/
def elfMalloc (start : Option Nat) (alignment : Nat) : Option Nat :=
  if alignment &&& (alignment - 1) ≠ 0 then none
  else start.map fun start => (start - start % alignment + alignment) % 2^32

/- malloc's answers: for the buffer of a skip to an offset, for the program headers, for the block of
the module, for the section headers; and what lies in the two tables behind what was read. -/
structure Heap where
  skipAlloc : Nat → Bool
  phtAlloc : Bool
  pht : Nat → UInt8
  moduleAlloc : Option Nat
  shtAlloc : Bool
  sht : Nat → UInt8

section
variable (file : File) (heap : Heap)

/- One PT_LOAD of the second loop. -/
def loadSegment (base : Nat) (ph : Phdr) (st : Load) : Option (Bool × Load) :=
  if ph.offset < st.img.crOffset then do
    let auxOff := st.img.crOffset - ph.offset
    let (fine,got,img) ← imageRead file ((ph.filesz + (2^32 - auxOff)) % 2^32) st.img
    some (fine,put { st with img, sizes := st.sizes ++ [(ph.filesz,auxOff)] } ((base + ph.vaddr + auxOff) % 2^32) got)
  else
    match imageSeek file heap.skipAlloc ph.offset st with
    | (false,st) => some (false,st)
    | (true,st) => do
      let (fine,got,img) ← imageRead file ph.filesz st.img
      some (fine,put { st with img } ((base + ph.vaddr) % 2^32) got)

def loadAll (base : Nat) : List Phdr → Load → Option (Bool × Load)
  | [],st => some (true,st)
  | ph::rest,st =>
    if ph.type = ptLoad then do
      let (fine,st) ← loadSegment file heap base ph st
      if fine then loadAll base rest st else some (false,st)
    else loadAll base rest st

/- What load_segments leaves: the program headers it went by, the members of the module it has set,
and the memory. -/
structure Loaded where
  headers : List Phdr
  module : Option (Nat × Nat × Nat)
  dynTable : Option Nat
  symtableSize : Nat
  state : Load

def filled (got : List UInt8) (b : Nat → UInt8) : Nat → UInt8 := fun i => if i < got.length then got.getD i 0 else b i

/- Where the program headers are read from: the header of the file is behind the reader already. -/
def start (file : File) : Nat := max sizeofEhdr (readEhdr file).phoff

def tableSize (file : File) : Nat := (readEhdr file).phnum*(readEhdr file).phentsize

def dynsymSize (b : Nat → UInt8) (shentsize shnum : Nat) : Nat :=
  match (List.range shnum).find? fun i => le32 b (i*shentsize + 4) = shtDynsym with
  | some i => le32 b (i*shentsize + 20)
  | none => 0

def loadSegments (mem : Memory) : Option (Int × Loaded) :=
  let h := readEhdr file
  let phsize := h.phnum*h.phentsize
  let (_,st) := imageSeek file heap.skipAlloc h.phoff ⟨⟨sizeofEhdr,sizeofEhdr⟩,mem,[],[]⟩
  if phsize = 0 ∨ !heap.phtAlloc then some (-1,⟨[],none,none,0,st⟩)
  else do
    let (_,got,img) ← imageRead file phsize st.img
    let st := { st with img }
    let phdrs := headersIn h (filled got heap.pht)
    let s := spanOf phdrs
    if s.maxAddr = s.minAddr ∨ s.dynAddr = 0 then some (0,⟨phdrs,none,none,0,st⟩)
    else
      match elfMalloc heap.moduleAlloc s.maxAlign with
      | none => some (0,⟨phdrs,none,none,0,st⟩)
      | some addr =>
        let base := (addr + (2^32 - s.minAlloc)) % 2^32
        let module := some (addr,base,s.size)
        let (fine,st) ← loadAll file heap base phdrs (put st addr (List.replicate s.size 0))
        if !fine then some (-1,⟨phdrs,module,none,0,st⟩)
        else
          let shsize := h.shnum*h.shentsize
          let (_,st) := imageSeek file heap.skipAlloc h.shoff st
          if shsize = 0 ∨ !heap.shtAlloc then some (-1,⟨phdrs,module,none,0,st⟩)
          else
            let (_,got,img) ← imageRead file shsize st.img
            let st := { st with img }
            some (0,⟨phdrs,module,some ((base + s.dynAddr) % 2^32),dynsymSize (filled got heap.sht) h.shentsize h.shnum,st⟩)

end

/- The bytes a skip from cr on loses at address 0 when there is no buffer. -/
def skipped (file : File) (alloc : Nat → Bool) (cr target : Nat) : List (Nat × List UInt8) :=
  if cr < target ∧ alloc target = false then [(0,slice file cr target)] else []

def written (blocks : List (Nat × List UInt8)) : List (Nat × Nat) := blocks.map fun block => (block.1,block.2.length)

/- The blocks were written on the way from one state to another, and every size taken from p_filesz was
no larger than it. -/
structure Wrote (st st' : Load) (blocks : List (Nat × List UInt8)) : Prop where
  mem : st'.mem = writeAll 32 st.mem blocks
  writes : st'.writes = st.writes ++ written blocks
  sizes : ∀ s ∈ st'.sizes, s ∈ st.sizes ∨ s.2 ≤ s.1

theorem Wrote.refl (st : Load) : Wrote st st [] := ⟨rfl,(List.append_nil _).symm,fun _ h => Or.inl h⟩

theorem Wrote.trans {a b c : Load} {xs ys : List (Nat × List UInt8)} (first : Wrote a b xs) (second : Wrote b c ys) :
    Wrote a c (xs ++ ys) where
  mem := by rw [second.mem,first.mem,writeAll,writeAll,writeAll,List.foldl_append]
  writes := by rw [second.writes,first.writes,written,written,written,List.map_append,List.append_assoc]
  sizes s h := by
    rcases second.sizes s h with before | fine
    · exact first.sizes s before
    · exact Or.inr fine

theorem putWrote (st : Load) (a : Nat) (bytes : List UInt8) : Wrote st (put st a bytes) [(a,bytes)] :=
  ⟨rfl,rfl,fun _ h => Or.inl h⟩

section
variable {file : File} {heap : Heap}

theorem sliceLength {a b : Nat} : (slice file a b).length = min (b-a) (file.bytes.length-a) := by
  rw [slice,List.length_take,List.length_drop]

theorem sliceAt {a b i : Nat} (inside : a + i < b) : (slice file a b).getD i 0 = byteOf file (a+i) := by
  rw [slice,byteOf,List.getD_eq_getElem?_getD,List.getD_eq_getElem?_getD,
    List.getElem?_take_of_lt (by omega),List.getElem?_drop]

theorem readSpec {size cr : Nat} {fine : Bool} {got : List UInt8} {img : Image}
    (ran : imageRead file size ⟨cr,cr⟩ = some (fine,got,img)) :
    got = slice file cr (cr+size) ∧ 0 < size ∧
      (fine = true → img = ⟨cr+size,cr+size⟩ ∧ cr + size ≤ file.bytes.length) ∧
      (fine = false → file.bytes.length ≤ img.pos) := by
  have small := file.small
  have length : ((file.bytes.drop cr).take size).length = min size (file.bytes.length - cr) := by
    rw [List.length_take,List.length_drop]
  unfold imageRead at ran
  dsimp only at ran
  split at ran
  · exact absurd ran (by simp)
  · rename_i some_
    split at ran
    · rename_i short
      simp only [Option.some.injEq,Prod.mk.injEq] at ran
      obtain ⟨rfl,rfl,rfl⟩ := ran
      refine ⟨by rw [slice,Nat.add_sub_cancel_left],by omega,by simp,fun _ => ?_⟩
      dsimp only
      omega
    · rename_i full
      simp only [Option.some.injEq,Prod.mk.injEq] at ran
      obtain ⟨rfl,rfl,rfl⟩ := ran
      have whole : ((file.bytes.drop cr).take size).length = size := by omega
      refine ⟨by rw [slice,Nat.add_sub_cancel_left],by omega,fun _ => ⟨?_,by omega⟩,by simp⟩
      rw [whole,Nat.mod_eq_of_lt (by omega)]

theorem seekSpec {alloc : Nat → Bool} {target cr : Nat} {st st' : Load} {fine : Bool} (synced : st.img = ⟨cr,cr⟩)
    (inside : cr ≤ file.bytes.length) (ran : imageSeek file alloc target st = (fine,st')) :
    Wrote st st' (skipped file alloc cr target) ∧
      (fine = true → st'.img = ⟨target,target⟩ ∧ cr ≤ target ∧ target ≤ file.bytes.length) ∧
      (fine = false → target < cr ∧ st'.img = st.img ∨ file.bytes.length < target ∧ st'.img.pos = file.bytes.length) := by
  have small := file.small
  have length : ((file.bytes.drop cr).take (target-cr)).length = min (target-cr) (file.bytes.length - cr) := by
    rw [List.length_take,List.length_drop]
  simp only [imageSeek,synced] at ran
  by_cases back : target < cr
  · rw [if_pos back] at ran
    obtain ⟨rfl,rfl⟩ := Prod.mk.inj ran
    rw [skipped,if_neg fun h => absurd h.1 (by omega)]
    exact ⟨Wrote.refl _,by simp,fun _ => Or.inl ⟨back,rfl⟩⟩
  · rw [if_neg back,imageSkip] at ran
    by_cases none_ : target - cr = 0
    · rw [if_pos none_] at ran
      obtain ⟨rfl,rfl⟩ := Prod.mk.inj ran
      rw [skipped,if_neg fun h => absurd h.1 (by omega)]
      exact ⟨Wrote.refl _,fun _ => ⟨by rw [synced,show cr = target by omega],by omega,by omega⟩,by simp⟩
    · rw [if_neg none_] at ran
      have wrote : Wrote st (if alloc target = true then st else put st 0 ((file.bytes.drop cr).take (target-cr)))
          (skipped file alloc cr target) := by
        cases given : alloc target with
        | true => simpa [skipped,given] using Wrote.refl st
        | false => simpa [skipped,given,show cr < target by omega,slice] using putWrote st 0 (slice file cr target)
      have kept : (if alloc target = true then st else put st 0 ((file.bytes.drop cr).take (target-cr))).img = ⟨cr,cr⟩ := by
        split
        · exact synced
        · exact synced
      simp only [synced] at ran
      generalize (if alloc target = true then st else put st 0 ((file.bytes.drop cr).take (target-cr))) = mid
        at ran wrote kept
      simp only [kept] at ran
      split at ran
      · rename_i short
        obtain ⟨rfl,rfl⟩ := Prod.mk.inj ran
        refine ⟨⟨wrote.mem,wrote.writes,wrote.sizes⟩,by simp,fun _ => Or.inr ⟨by omega,?_⟩⟩
        show cr + _ = _
        omega
      · rename_i full
        obtain ⟨rfl,rfl⟩ := Prod.mk.inj ran
        refine ⟨⟨wrote.mem,wrote.writes,wrote.sizes⟩,fun _ => ⟨?_,by omega,by omega⟩,by simp⟩
        show Image.mk _ _ = _
        rw [show cr + ((file.bytes.drop cr).take (target-cr)).length = target by omega,
          show (cr + (target-cr)) % 2^32 = target by rw [Nat.mod_eq_of_lt (by omega)]; omega]

end

/- What of a segment is still ahead of the reader: the offset before it, the first byte of it that is
read, the address for that byte, and how many. -/
structure Piece where
  before : Nat
  first : Nat
  place : Nat
  length : Nat

def pieces : Nat → List Phdr → List Piece
  | _,[] => []
  | cr,ph::rest =>
    if ph.type = ptLoad then
      let first := max cr ph.offset
      ⟨cr,first,ph.vaddr + (first - ph.offset),ph.offset + ph.filesz - first⟩ :: pieces (ph.offset + ph.filesz) rest
    else pieces cr rest

def ended : Nat → List Phdr → Nat
  | cr,[] => cr
  | cr,ph::rest => if ph.type = ptLoad then ended (ph.offset + ph.filesz) rest else ended cr rest

def placed (file : File) (base : Nat) (p : Piece) : Nat × List UInt8 :=
  ((base + p.place) % 2^32,slice file p.first (p.first + p.length))

def blocksOf (file : File) (alloc : Nat → Bool) (base : Nat) (p : Piece) : List (Nat × List UInt8) :=
  skipped file alloc p.before p.first ++ [placed file base p]

/- The program headers as load_segments sees them. -/
def headersOf (file : File) (heap : Heap) : List Phdr :=
  headersIn (readEhdr file) (filled (slice file (start file) (start file + tableSize file)) heap.pht)

section
variable {file : File} {heap : Heap}

theorem segmentSpec {base cr : Nat} {ph : Phdr} {st st' : Load} (synced : st.img = ⟨cr,cr⟩)
    (inside : cr ≤ file.bytes.length) (word : ph.filesz < 2^32) (ran : loadSegment file heap base ph st = some (true,st')) :
    st'.img = ⟨ph.offset + ph.filesz,ph.offset + ph.filesz⟩ ∧ max cr ph.offset < ph.offset + ph.filesz ∧
      ph.offset + ph.filesz ≤ file.bytes.length ∧
      Wrote st st' (blocksOf file heap.skipAlloc base ⟨cr,max cr ph.offset,ph.vaddr + (max cr ph.offset - ph.offset),
        ph.offset + ph.filesz - max cr ph.offset⟩) := by
  have small := file.small
  unfold loadSegment at ran
  rw [synced] at ran
  by_cases partly : ph.offset < cr
  · rw [if_pos partly] at ran
    dsimp only at ran
    obtain ⟨⟨fine,got,img⟩,read,ran⟩ := Option.bind_eq_some_iff.mp ran
    simp only [Option.some.injEq,Prod.mk.injEq] at ran
    obtain ⟨rfl,rfl⟩ := ran
    obtain ⟨rfl,some_,full,_⟩ := readSpec read
    obtain ⟨rfl,whole⟩ := full rfl
    -- a wrapped size would be more than is left of any file
    have fits : cr - ph.offset ≤ ph.filesz := by omega
    have size : (ph.filesz + (2^32 - (cr - ph.offset))) % 2^32 = ph.filesz - (cr - ph.offset) := by omega
    rw [size] at whole some_ ⊢
    have first : max cr ph.offset = cr := by omega
    have next : cr + (ph.filesz - (cr - ph.offset)) = ph.offset + ph.filesz := by omega
    rw [first,next,blocksOf,skipped,if_neg fun h => absurd h.1 (by simp),placed]
    refine ⟨rfl,by omega,by omega,?_,?_,?_⟩
    · dsimp only [put]
      rw [List.nil_append,show cr + (ph.offset + ph.filesz - cr) = ph.offset + ph.filesz by omega,← Nat.add_assoc]
      rfl
    · dsimp only [put]
      rw [List.nil_append,show cr + (ph.offset + ph.filesz - cr) = ph.offset + ph.filesz by omega,← Nat.add_assoc]
      rfl
    · intro s member
      rcases List.mem_append.mp member with before | this
      · exact Or.inl before
      · rw [List.mem_singleton.mp this]
        exact Or.inr fits
  · rw [if_neg partly] at ran
    cases sought : imageSeek file heap.skipAlloc ph.offset st with
    | mk fine mid =>
      obtain ⟨skip,found,_⟩ := seekSpec synced inside sought
      rw [sought] at ran
      cases fine with
      | false => exact absurd ran (by simp)
      | true =>
        obtain ⟨here,_,_⟩ := found rfl
        dsimp only at ran
        obtain ⟨⟨fine,got,img⟩,read,ran⟩ := Option.bind_eq_some_iff.mp ran
        simp only [Option.some.injEq,Prod.mk.injEq] at ran
        obtain ⟨rfl,rfl⟩ := ran
        rw [here] at read
        obtain ⟨rfl,some_,full,_⟩ := readSpec read
        obtain ⟨rfl,whole⟩ := full rfl
        have first : max cr ph.offset = ph.offset := by omega
        refine ⟨rfl,by omega,whole,?_⟩
        have read : Wrote mid (put { mid with img := ⟨ph.offset + ph.filesz,ph.offset + ph.filesz⟩ }
              ((base + ph.vaddr) % 2^32) (slice file ph.offset (ph.offset + ph.filesz)))
            [((base + ph.vaddr) % 2^32,slice file ph.offset (ph.offset + ph.filesz))] := ⟨rfl,rfl,fun _ h => Or.inl h⟩
        rw [first,Nat.sub_self,Nat.add_zero,Nat.add_sub_cancel_left]
        exact skip.trans read

theorem allSpec {base cr : Nat} {phdrs : List Phdr} {st st' : Load} (synced : st.img = ⟨cr,cr⟩)
    (inside : cr ≤ file.bytes.length) (words : ∀ ph ∈ phdrs, ph.filesz < 2^32)
    (ran : loadAll file heap base phdrs st = some (true,st')) :
    st'.img = ⟨ended cr phdrs,ended cr phdrs⟩ ∧ ended cr phdrs ≤ file.bytes.length ∧
      (∀ p ∈ pieces cr phdrs, p.before ≤ p.first ∧ 0 < p.length ∧ p.first + p.length ≤ file.bytes.length) ∧
      Wrote st st' ((pieces cr phdrs).flatMap (blocksOf file heap.skipAlloc base)) := by
  induction phdrs generalizing cr st with
  | nil =>
    obtain ⟨_,rfl⟩ := Prod.mk.inj (Option.some.inj ran)
    exact ⟨synced,inside,by simp [pieces],Wrote.refl _⟩
  | cons ph rest ih =>
    have later : ∀ ph ∈ rest, ph.filesz < 2^32 := fun ph h => words ph (List.mem_cons_of_mem _ h)
    rw [loadAll] at ran
    by_cases load : ph.type = ptLoad
    · rw [if_pos load] at ran
      obtain ⟨⟨fine,mid⟩,one,ran⟩ := Option.bind_eq_some_iff.mp ran
      cases fine with
      | false => exact absurd ran (by simp)
      | true =>
        obtain ⟨here,some_,within,wrote⟩ := segmentSpec synced inside (words ph List.mem_cons_self) one
        obtain ⟨img,stop,all,more⟩ := ih here within later (by simpa using ran)
        rw [ended,pieces,if_pos load,if_pos load]
        refine ⟨img,stop,?_,wrote.trans more⟩
        intro p member
        rcases List.mem_cons.mp member with rfl | member
        · dsimp only
          omega
        · exact all p member
    · rw [if_neg load] at ran
      rw [ended,pieces,if_neg load,if_neg load]
      exact ih synced inside later ran

theorem readBehind {size : Nat} {img img' : Image} {fine : Bool} {got : List UInt8} (behind : file.bytes.length ≤ img.pos)
    (ran : imageRead file size img = some (fine,got,img')) : fine = false ∧ got = [] ∧ file.bytes.length ≤ img'.pos := by
  have none_ : (file.bytes.drop img.pos).take size = [] := by rw [List.drop_eq_nil_of_le behind,List.take_nil]
  rw [imageRead,none_] at ran
  by_cases zero : size = 0
  · rw [if_pos zero] at ran
    exact absurd ran (by simp)
  · rw [if_neg zero] at ran
    dsimp only [List.length_nil] at ran
    rw [if_pos (by omega)] at ran
    simp only [Option.some.injEq,Prod.mk.injEq] at ran
    exact ⟨ran.1.symm,ran.2.1.symm,by rw [← ran.2.2]; exact behind⟩

theorem seekBehind {alloc : Nat → Bool} {target : Nat} {st : Load} (behind : file.bytes.length ≤ st.img.pos) :
    file.bytes.length ≤ (imageSeek file alloc target st).2.img.pos := by
  have none_ : (file.bytes.drop st.img.pos).take (target - st.img.crOffset) = [] := by
    rw [List.drop_eq_nil_of_le behind,List.take_nil]
  rw [imageSeek,imageSkip,none_]
  split
  · exact behind
  · split
    · exact behind
    · dsimp only [List.length_nil]
      rw [if_pos (by omega)]
      dsimp only
      split
      · exact behind
      · exact behind

theorem allBehind {base : Nat} {phdrs : List Phdr} {st st' : Load} (behind : file.bytes.length ≤ st.img.pos)
    (ran : loadAll file heap base phdrs st = some (true,st')) : ∀ ph ∈ phdrs, ph.type ≠ ptLoad := by
  induction phdrs with
  | nil => simp
  | cons ph rest ih =>
    rw [loadAll] at ran
    by_cases load : ph.type = ptLoad
    · rw [if_pos load] at ran
      obtain ⟨⟨fine,mid⟩,one,ran⟩ := Option.bind_eq_some_iff.mp ran
      have short : fine = false := by
        rw [loadSegment] at one
        split at one
        · obtain ⟨r,read,one⟩ := Option.bind_eq_some_iff.mp one
          rw [← (Prod.mk.inj (Option.some.inj one)).1]
          exact (readBehind behind read).1
        · have stays := @seekBehind file heap.skipAlloc ph.offset _ behind
          split at one
          · exact (Prod.mk.inj (Option.some.inj one)).1.symm
          · rename_i mid sought
            rw [sought] at stays
            obtain ⟨r,read,one⟩ := Option.bind_eq_some_iff.mp one
            rw [← (Prod.mk.inj (Option.some.inj one)).1]
            exact (readBehind stays read).1
      rw [short] at ran
      exact absurd ran (by simp)
    · rw [if_neg load] at ran
      intro other member
      rcases List.mem_cons.mp member with rfl | member
      · exact load
      · exact ih ran other member

theorem tableSpec {mem : Memory} {fine : Bool} {got : List UInt8} {img : Image} (some_ : sizeofEhdr ≤ file.bytes.length)
    (ran : imageRead file (tableSize file) (imageSeek file heap.skipAlloc (readEhdr file).phoff
      ⟨⟨sizeofEhdr,sizeofEhdr⟩,mem,[],[]⟩).2.img = some (fine,got,img)) :
    got = slice file (start file) (start file + tableSize file) ∧
      (img = ⟨start file + tableSize file,start file + tableSize file⟩ ∧ start file + tableSize file ≤ file.bytes.length ∨
        file.bytes.length ≤ img.pos) := by
  cases sought : imageSeek file heap.skipAlloc (readEhdr file).phoff ⟨⟨sizeofEhdr,sizeofEhdr⟩,mem,[],[]⟩ with
  | mk found st =>
    obtain ⟨_,reached,missed⟩ := seekSpec rfl some_ sought
    rw [sought] at ran
    have synced : st.img = ⟨start file,start file⟩ ∨ file.bytes.length ≤ start file ∧ file.bytes.length ≤ st.img.pos := by
      cases found with
      | true =>
        obtain ⟨here,back,_⟩ := reached rfl
        exact Or.inl (by rw [here,start,Nat.max_eq_right back])
      | false =>
        rcases missed rfl with ⟨back,stays⟩ | ⟨long,last⟩
        · exact Or.inl (by rw [stays,start,Nat.max_eq_left (by omega)])
        · exact Or.inr ⟨by rw [start]; omega,by omega⟩
    rcases synced with here | ⟨long,last⟩
    · rw [here] at ran
      obtain ⟨rfl,_,full,short⟩ := readSpec ran
      refine ⟨rfl,?_⟩
      cases fine with
      | true => exact Or.inl (full rfl)
      | false => exact Or.inr (short rfl)
    · obtain ⟨_,rfl,stays⟩ := readBehind last ran
      exact ⟨by rw [slice,List.drop_eq_nil_of_le long,List.take_nil],Or.inr stays⟩

theorem spanKeeps {P : Span → Prop} {phdrs : List Phdr} (first : P ⟨0,0,4,0⟩)
    (step : ∀ s i, ∀ ph ∈ phdrs, P s → P (widen s i ph)) : P (spanOf phdrs) := by
  have keeps : ∀ (l : List (Phdr × Nat)) (s : Span), (∀ x ∈ l, x.1 ∈ phdrs) → P s →
      P (l.foldl (fun s x => widen s x.2 x.1) s) := by
    intro l
    induction l with
    | nil => exact fun _ _ holds => holds
    | cons x rest ih =>
      intro s inside holds
      exact ih _ (fun y h => inside y (List.mem_cons_of_mem _ h)) (step s x.2 x.1 (inside x List.mem_cons_self) holds)
  exact keeps _ _ (fun _ h => List.fst_mem_of_mem_zipIdx h) first

theorem spanUnloaded {phdrs : List Phdr} (none_ : ∀ ph ∈ phdrs, ph.type ≠ ptLoad) :
    (spanOf phdrs).maxAddr = (spanOf phdrs).minAddr := by
  refine spanKeeps (P := fun s => s.maxAddr = s.minAddr) rfl fun s i ph member same => ?_
  unfold widen
  rw [if_neg (none_ ph member)]
  split
  · exact same
  · exact same

theorem spanSmall {phdrs : List Phdr} (words : ∀ ph ∈ phdrs, ph.vaddr < 2^32) : (spanOf phdrs).minAddr < 2^32 := by
  refine spanKeeps (P := fun s => s.minAddr < 2^32) (by norm_num) fun s i ph member small => ?_
  have this := words ph member
  unfold widen
  split
  · dsimp only
    split
    · exact this
    · omega
  · split
    · exact small
    · exact small

theorem wordSmall (b : Nat → UInt8) (i : Nat) : le32 b i < 2^32 := by
  have a := (b i).toNat_lt
  have c := (b (i+1)).toNat_lt
  have d := (b (i+2)).toNat_lt
  have e := (b (i+2+1)).toNat_lt
  unfold le32 le16
  omega

theorem headersWords {ph : Phdr} (member : ph ∈ headersOf file heap) : ph.filesz < 2^32 ∧ ph.vaddr < 2^32 := by
  obtain ⟨i,_,rfl⟩ := List.mem_map.mp member
  exact ⟨wordSmall _ _,wordSmall _ _⟩

/- Every block that is written when nothing fails: the program headers' skip, the zeros, the segments
and the skip to the section headers. -/
def allBlocks (file : File) (heap : Heap) (addr : Nat) : List (Nat × List UInt8) :=
  let hs := headersOf file heap
  let s := spanOf hs
  let base := (addr + (2^32 - s.minAlloc)) % 2^32
  let cr := start file + tableSize file
  skipped file heap.skipAlloc sizeofEhdr (readEhdr file).phoff ++ [(addr,List.replicate s.size 0)] ++
    (pieces cr hs).flatMap (blocksOf file heap.skipAlloc base) ++
    skipped file heap.skipAlloc (ended cr hs) (readEhdr file).shoff

structure Placed (file : File) (heap : Heap) (mem : Memory) (out : Loaded) (addr : Nat) : Prop where
  nonempty : (spanOf (headersOf file heap)).maxAddr ≠ (spanOf (headersOf file heap)).minAddr
  dynamic : (spanOf (headersOf file heap)).dynAddr ≠ 0
  allocated : elfMalloc heap.moduleAlloc (spanOf (headersOf file heap)).maxAlign = some addr
  whole : start file + tableSize file ≤ file.bytes.length
  stop : ended (start file + tableSize file) (headersOf file heap) ≤ file.bytes.length
  module : out.module = some (addr,(addr + (2^32 - (spanOf (headersOf file heap)).minAlloc)) % 2^32,
    (spanOf (headersOf file heap)).size)
  dynTable : out.dynTable = some (((addr + (2^32 - (spanOf (headersOf file heap)).minAlloc)) % 2^32 +
    (spanOf (headersOf file heap)).dynAddr) % 2^32)
  fits : ∀ p ∈ pieces (start file + tableSize file) (headersOf file heap),
    p.before ≤ p.first ∧ 0 < p.length ∧ p.first + p.length ≤ file.bytes.length
  mem : out.state.mem = writeAll 32 mem (allBlocks file heap addr)
  writes : out.state.writes = written (allBlocks file heap addr)
  sizes : ∀ s ∈ out.state.sizes, s.2 ≤ s.1

def Unset (file : File) (heap : Heap) (out : Loaded) : Prop :=
  let s := spanOf (headersOf file heap)
  out.dynTable = none ∧ (s.maxAddr = s.minAddr ∨ s.dynAddr = 0 ∨ elfMalloc heap.moduleAlloc s.maxAlign = none)

theorem loadSpec {mem : Memory} {out : Loaded} (some_ : sizeofEhdr ≤ file.bytes.length)
    (ran : loadSegments file heap mem = some (0,out)) :
    out.headers = headersOf file heap ∧ (Unset file heap out ∨ ∃ addr, Placed file heap mem out addr) := by
  unfold loadSegments at ran
  dsimp only at ran
  split at ran
  · exact absurd ran (by simp)
  · obtain ⟨⟨fine,got,img⟩,table,ran⟩ := Option.bind_eq_some_iff.mp ran
    cases sought : imageSeek file heap.skipAlloc (readEhdr file).phoff ⟨⟨sizeofEhdr,sizeofEhdr⟩,mem,[],[]⟩ with
    | mk found st =>
    obtain ⟨skip,_⟩ := seekSpec rfl some_ sought
    obtain ⟨rfl,after⟩ := tableSpec some_ table
    rw [sought] at ran
    dsimp only at ran
    rw [show headersIn (readEhdr file) (filled (slice file (start file) (start file + tableSize file)) heap.pht) =
      headersOf file heap from rfl] at ran
    split at ran
    · rename_i none_
      obtain ⟨_,rfl⟩ := Prod.mk.inj (Option.some.inj ran)
      exact ⟨rfl,Or.inl ⟨rfl,none_.imp_right Or.inl⟩⟩
    · rename_i spans
      push Not at spans
      split at ran
      · rename_i failed
        obtain ⟨_,rfl⟩ := Prod.mk.inj (Option.some.inj ran)
        exact ⟨rfl,Or.inl ⟨rfl,Or.inr (Or.inr failed)⟩⟩
      · rename_i addr allocated
        obtain ⟨⟨good,mid⟩,load,ran⟩ := Option.bind_eq_some_iff.mp ran
        cases good with
        | false => exact absurd ran (by simp)
        | true =>
          dsimp only [Bool.not_true] at ran
          rw [if_neg (by simp)] at ran
          split at ran
          · exact absurd ran (by simp)
          · obtain ⟨⟨_,got,_⟩,_,ran⟩ := Option.bind_eq_some_iff.mp ran
            obtain ⟨_,rfl⟩ := Prod.mk.inj (Option.some.inj ran)
            -- a table that ends early would leave nothing for the segments there must be
            rcases after with ⟨rfl,whole⟩ | behind
            · obtain ⟨synced,stop,fits,loaded⟩ :=
                @allSpec _ _ _ (start file + tableSize file) _ _ _ rfl whole (fun ph h => (headersWords h).1) load
              obtain ⟨last,_⟩ := seekSpec synced stop
                (Prod.mk.eta (p := imageSeek file heap.skipAlloc (readEhdr file).shoff mid)).symm
              have zeroed := putWrote { st with img := ⟨start file + tableSize file,start file + tableSize file⟩ } addr
                (List.replicate (spanOf (headersOf file heap)).size 0)
              have kept : Wrote ⟨⟨sizeofEhdr,sizeofEhdr⟩,mem,[],[]⟩
                  { st with img := ⟨start file + tableSize file,start file + tableSize file⟩ } _ :=
                ⟨skip.mem,skip.writes,skip.sizes⟩
              have all := ((kept.trans zeroed).trans loaded).trans last
              refine ⟨rfl,Or.inr ⟨addr,spans.1,spans.2,allocated,whole,stop,rfl,rfl,fits,all.mem,?_,?_⟩⟩
              · exact all.writes
              · intro s member
                rcases all.sizes s member with none_ | fine
                · exact absurd none_ (by simp)
                · exact fine
            · exact absurd (spanUnloaded (allBehind behind load)) spans.1

end

def tableOf (file : File) : List Phdr := headersIn (readEhdr file) fun i => byteOf file ((readEhdr file).phoff + i)

def segments (file : File) : List Piece := pieces (start file + tableSize file) (tableOf file)

def spanning (file : File) : Span := spanOf (tableOf file)

/- The module is set up from the headers of the file, nothing was written outside it, what was not yet
read of each segment is at its address, and no size went below zero. -/
def Loads (file : File) (out : Loaded) : Prop :=
  out.headers = tableOf file ∧
  (∃ addr base size dyn, out.module = some (addr,base,size) ∧ addr ≠ 0 ∧ out.dynTable = some dyn ∧ dyn ≠ 0 ∧
    (∀ w ∈ out.state.writes, ∀ i < w.2, addr ≤ (w.1+i) % 2^32 ∧ (w.1+i) % 2^32 < addr + size) ∧
    ∀ p ∈ segments file, ∀ i < p.length, out.state.mem ((base + p.place + i) % 2^32) = byteOf file (p.first+i)) ∧
  ∀ s ∈ out.state.sizes, s.2 ≤ s.1

/- The file and the allocations that load_segments is right about. -/
structure Loadable (file : File) (heap : Heap) : Prop where
  headers : headersOf file heap = tableOf file
  nonempty : (spanning file).maxAddr ≠ (spanning file).minAddr
  dynamic : (spanning file).dynAddr ≠ 0
  room : ∃ addr, elfMalloc heap.moduleAlloc (spanning file).maxAlign = some addr ∧ addr ≠ 0 ∧
    addr + (spanning file).size ≤ 2^32 ∧ (addr + behind 32 (spanning file).minAlloc (spanning file).dynAddr) % 2^32 ≠ 0
  tableSkip : sizeofEhdr < (readEhdr file).phoff → heap.skipAlloc (readEhdr file).phoff = true
  skips : ∀ p ∈ segments file, p.before < p.first → heap.skipAlloc p.first = true
  lastSkip : ended (start file + tableSize file) (tableOf file) < min (readEhdr file).shoff file.bytes.length →
    heap.skipAlloc (readEhdr file).shoff = true
  within : ∀ p ∈ segments file, behind 32 (spanning file).minAlloc p.place + p.length ≤ (spanning file).size
  agree : ∀ p ∈ segments file, ∀ q ∈ segments file, ∀ i < p.length, ∀ k < q.length,
    (p.place + i) % 2^32 = (q.place + k) % 2^32 → byteOf file (p.first+i) = byteOf file (q.first+k)

section
variable {file : File} {heap : Heap} {mem : Memory} {out : Loaded} {addr : Nat}

theorem elfMallocSmall {start : Option Nat} {alignment : Nat} (got : elfMalloc start alignment = some addr) :
    addr < 2^32 := by
  rw [elfMalloc] at got
  split at got
  · exact absurd got (by simp)
  · obtain ⟨_,_,rfl⟩ := Option.map_eq_some_iff.mp got
    exact Nat.mod_lt _ (by norm_num)

theorem rebased (s : Span) (small : s.minAddr < 2^32) (place i : Nat) :
    ((addr + (2^32 - s.minAlloc)) % 2^32 + place + i) % 2^32 = (addr + behind 32 s.minAlloc place + i) % 2^32 := by
  have low : s.minAlloc < 2^32 := by
    unfold Span.minAlloc
    omega
  rw [behind,Nat.mod_eq_of_lt low]
  omega

theorem inBlock {size place len : Nat} (some_ : addr ≠ 0) (low : addr < 2^32) (room : addr + size ≤ 2^32) (needed : 0 < len)
    (near : place < 2^32) : (∀ i < len, addr ≤ (addr + place + i) % 2^32 ∧ (addr + place + i) % 2^32 < addr + size) ↔
      place + len ≤ size := by
  constructor
  · intro inside
    have first := inside 0 needed
    by_contra past
    have last := inside (size - place) (by omega)
    omega
  · intro fits i lt
    rw [Nat.mod_eq_of_lt (by omega)]
    omega

def Within (addr size : Nat) (block : Nat × List UInt8) : Prop :=
  ∀ i < block.2.length, addr ≤ (block.1+i) % 2^32 ∧ (block.1+i) % 2^32 < addr + size

theorem writtenIn {blocks : List (Nat × List UInt8)} {block : Nat × List UInt8} (member : block ∈ blocks) :
    (block.1,block.2.length) ∈ written blocks := List.mem_map.mpr ⟨block,member,rfl⟩

theorem skippedIn {alloc : Nat → Bool} {cr target : Nat} (ahead : cr < target) (failed : alloc target = false) :
    (0,slice file cr target) ∈ skipped file alloc cr target := by
  rw [skipped,if_pos ⟨ahead,failed⟩]
  exact List.mem_singleton_self _

theorem tableWords {ph : Phdr} (member : ph ∈ tableOf file) : ph.vaddr < 2^32 := by
  obtain ⟨i,_,rfl⟩ := List.mem_map.mp member
  exact wordSmall _ _

theorem baseOf (place i : Nat) :
    ((addr + (2^32 - (spanning file).minAlloc)) % 2^32 + place + i) % 2^32 =
      (addr + behind 32 (spanning file).minAlloc place + i) % 2^32 :=
  rebased _ (spanSmall fun _ => tableWords) place i

theorem sizeSmall (s : Span) : s.size < 2^32 := Nat.mod_lt _ (by norm_num)

theorem skipGot {alloc : Nat → Bool} {cr target size : Nat} (some_ : addr ≠ 0) (ahead : cr < target)
    (more : cr < file.bytes.length) (inside : ∀ b ∈ skipped file alloc cr target, Within addr size b) :
    alloc target = true := by
  by_contra failed
  have first := (inside _ (skippedIn ahead (Bool.eq_false_iff.mpr failed)) 0 (by rw [sliceLength]; omega)).1
  omega

theorem loadableOf (placed : Placed file heap mem out addr) (headers : out.headers = headersOf file heap)
    (loads : Loads file out) : Loadable file heap := by
  obtain ⟨followed,⟨addr',base,size,dyn,module,some_,dynTable,dynSome,inside,there⟩,_⟩ := loads
  have same : headersOf file heap = tableOf file := headers.symm.trans followed
  obtain ⟨nonempty,dynamic,allocated,whole,stop,module',dynTable',fits,_,writes,_⟩ := placed
  rw [same] at nonempty dynamic allocated stop module' dynTable' fits
  obtain ⟨rfl,rfl,rfl⟩ : addr' = addr ∧ base = _ ∧ size = _ := by
    simpa only [Option.some.injEq,Prod.mk.injEq] using module.symm.trans module'
  obtain rfl : dyn = _ := Option.some.inj (dynTable.symm.trans dynTable')
  have low := elfMallocSmall allocated
  have small := sizeSmall (spanning file)
  have block : ∀ b ∈ allBlocks file heap addr', Within addr' (spanning file).size b := fun b member i lt =>
    inside _ (by rw [writes]; exact writtenIn member) i lt
  rw [allBlocks,same] at block
  have room : addr' + (spanning file).size ≤ 2^32 := by
    by_contra past
    have last := block (addr',List.replicate (spanOf (tableOf file)).size 0) (by simp) (2^32 - addr')
      (by rw [List.length_replicate]; show _ < (spanning file).size; omega)
    dsimp only at last
    omega
  have segment : ∀ p ∈ segments file,
      ∀ b ∈ blocksOf file heap.skipAlloc ((addr' + (2^32 - (spanning file).minAlloc)) % 2^32) p,
      Within addr' (spanning file).size b := fun p member b inside =>
    block b (List.mem_append_left _ (List.mem_append_right _ (List.mem_flatMap.mpr ⟨p,member,inside⟩)))
  exact {
    headers := same
    nonempty
    dynamic
    room := ⟨addr',allocated,some_,room,by
      have moved := @baseOf file addr' (spanning file).dynAddr 0
      rw [Nat.add_zero,Nat.add_zero] at moved
      rw [← moved]
      exact dynSome⟩
    tableSkip := fun ahead => by
      have position : start file = (readEhdr file).phoff := Nat.max_eq_right (by omega)
      exact skipGot some_ ahead (by omega) fun b h => block b
        (List.mem_append_left _ (List.mem_append_left _ (List.mem_append_left _ h)))
    skips := fun p member ahead => by
      have fit := fits p member
      exact skipGot some_ ahead (by omega) fun b h => segment p member b (List.mem_append_left _ h)
    lastSkip := fun ahead => skipGot some_ (by omega) (by omega) fun b h => block b (List.mem_append_right _ h)
    within := fun p member => by
      have fit := fits p member
      have length : (slice file p.first (p.first + p.length)).length = p.length := by rw [sliceLength]; omega
      refine (inBlock some_ low room fit.2.1 behindSmall).mp fun i lt => ?_
      have byte := segment p member _ (List.mem_append_right _ (List.mem_singleton_self _)) i
        (by rw [Segments.placed,length]; exact lt)
      rw [Segments.placed,Nat.mod_add_mod,baseOf] at byte
      exact byte
    agree := fun p hp q hq i li k lk meet => by
      have one := there p hp i li
      have other := there q hq k lk
      rw [← one,← other]
      congr 1
      omega }

theorem blockKinds (right : Loadable file heap) {base : Nat} {b : Nat × List UInt8}
    (member : b ∈ (segments file).flatMap (blocksOf file heap.skipAlloc base) ++
      skipped file heap.skipAlloc (ended (start file + tableSize file) (tableOf file)) (readEhdr file).shoff) :
    b.2.length = 0 ∨ ∃ p ∈ segments file, b = placed file base p := by
  rcases List.mem_append.mp member with segment | last
  · obtain ⟨p,hp,member⟩ := List.mem_flatMap.mp segment
    rcases List.mem_append.mp member with skip | this
    · rw [skipped] at skip
      split at skip
      · rename_i failed
        rw [right.skips p hp failed.1] at failed
        exact absurd failed.2 (by simp)
      · exact absurd skip List.not_mem_nil
    · exact Or.inr ⟨p,hp,List.mem_singleton.mp this⟩
  · rw [skipped] at last
    split at last
    · rename_i failed
      refine Or.inl ?_
      rw [List.mem_singleton.mp last,sliceLength]
      by_contra more
      rw [right.lastSkip (by omega)] at failed
      exact absurd failed.2 (by simp)
    · exact absurd last List.not_mem_nil

theorem loadsOf (placed : Placed file heap mem out addr) (headers : out.headers = headersOf file heap)
    (right : Loadable file heap) : Loads file out := by
  obtain ⟨nonempty,dynamic,allocated,whole,stop,module,dynTable,fits,memory,writes,sizes⟩ := placed
  rw [allBlocks] at memory writes
  rw [right.headers] at nonempty dynamic allocated stop module dynTable fits memory writes
  obtain ⟨addr',allocated',some_,room,dynSome⟩ := right.room
  obtain rfl : addr' = addr := Option.some.inj (allocated'.symm.trans allocated)
  have low := elfMallocSmall allocated
  have none_ : skipped file heap.skipAlloc sizeofEhdr (readEhdr file).phoff = [] := by
    rw [skipped,if_neg]
    rintro ⟨ahead,failed⟩
    rw [right.tableSkip ahead] at failed
    exact absurd failed (by simp)
  have length : ∀ p ∈ segments file, (slice file p.first (p.first + p.length)).length = p.length := fun p member => by
    have fit := fits p member
    rw [sliceLength]
    omega
  rw [none_,List.nil_append,List.append_assoc] at memory writes
  refine ⟨headers.trans right.headers,⟨addr',_,_,_,module,some_,dynTable,?_,?_,?_⟩,sizes⟩
  · have moved := @baseOf file addr' (spanning file).dynAddr 0
    rw [Nat.add_zero,Nat.add_zero] at moved
    exact moved ▸ dynSome
  · intro w member i lt
    rw [writes] at member
    obtain ⟨b,block,rfl⟩ := List.mem_map.mp member
    rcases List.mem_append.mp block with zeros | later
    · rw [List.mem_singleton.mp zeros] at lt ⊢
      rw [List.length_replicate] at lt
      dsimp only
      rw [Nat.mod_eq_of_lt (show addr' + i < 2^32 from lt_of_lt_of_le (Nat.add_lt_add_left lt _) room)]
      omega
    · rcases blockKinds right later with empty | ⟨p,hp,rfl⟩
      · omega
      · have fit := fits p hp
        dsimp only [Segments.placed] at lt ⊢
        rw [length p hp] at lt
        have inside := (inBlock some_ low room fit.2.1 behindSmall).mpr (right.within p hp) i lt
        rw [Nat.mod_add_mod]
        exact (baseOf p.place i).symm ▸ inside
  · intro p hp i lt
    have fit := fits p hp
    have small := file.small
    rw [memory,writeAll,List.foldl_append]
    refine writeAllAgree (Nat.mod_lt _ (by norm_num)) ?_ (Or.inr ⟨_,List.mem_append_left _ (List.mem_flatMap.mpr
      ⟨p,hp,List.mem_append_right _ (List.mem_singleton_self _)⟩),?_⟩)
    · intro b member covers
      rcases blockKinds right member with empty | ⟨q,hq,rfl⟩
      · omega
      · have fitq := fits q hq
        dsimp only [Segments.placed] at covers ⊢
        rw [length q hq] at covers
        -- both segments have a byte there, and it is the same
        have meet := atBehind (a := ((addr' + (2^32 - (spanOf (tableOf file)).minAlloc)) % 2^32 + q.place) % 2^32)
          (Nat.mod_lt ((addr' + (2^32 - (spanOf (tableOf file)).minAlloc)) % 2^32 + p.place + i)
            (show 0 < 2^32 by norm_num))
        rw [sliceAt (by omega)]
        refine (right.agree p hp q hq i lt _ covers ?_).symm
        omega
    · dsimp only [Segments.placed]
      rw [length p hp]
      have here : ∀ base, behind 32 ((base + p.place) % 2^32) ((base + p.place + i) % 2^32) = i := fun base => by
        have this := @behindAt 32 ((base + p.place) % 2^32) i (by omega)
        rwa [Nat.mod_add_mod] at this
      rw [here]
      exact lt

theorem loadsIff (checked : checkHeader file = true) (ran : loadSegments file heap mem = some (0,out)) :
    Loads file out ↔ Loadable file heap := by
  have some_ : sizeofEhdr ≤ file.bytes.length := by
    unfold checkHeader at checked
    simp only [Bool.and_eq_true,decide_eq_true_eq] at checked
    exact checked.1.1.1.1.1.1.1.1
  obtain ⟨headers,unset | ⟨addr,placed⟩⟩ := loadSpec some_ ran
  · constructor
    · rintro ⟨_,⟨_,_,_,_,_,_,set_,_⟩,_⟩
      exact absurd (unset.1.symm.trans set_) (by simp)
    · intro right
      obtain ⟨_,why⟩ := unset
      rw [right.headers] at why
      obtain ⟨_,allocated,_⟩ := right.room
      rcases why with empty | none_ | failed
      · exact absurd empty right.nonempty
      · exact absurd none_ right.dynamic
      · exact absurd (failed.symm.trans allocated) (by simp)
  · exact ⟨loadableOf placed headers,loadsOf placed headers⟩

end

/- A file with the given number of program headers right behind its header and of section headers at shoff. -/
def header (phnum shoff shnum : UInt8) : List UInt8 :=
  [0x7f,0x45,0x4c,0x46,1,1,1,0,0,0,0,0,0,0,0,0,3,0,3,0,1,0,0,0,0,0,0,0,52,0,0,0,shoff,0,0,0,0,0,0,0,52,0,32,0,phnum,0,40,0,
    shnum,0,0,0]

def calm : Heap := ⟨fun _ => true,true,fun _ => 0,some 0x1000,true,fun _ => 0⟩

def oneSegment : File where
  bytes := header 2 120 1 ++
    [1,0,0,0,0,0,0,0,0,0,0,0,0,0,0,0,120,0,0,0,128,0,0,0,5,0,0,0,16,0,0,0] ++
    [2,0,0,0,116,0,0,0,116,0,0,0,116,0,0,0,4,0,0,0,4,0,0,0,6,0,0,0,4,0,0,0] ++
    [1,2,3,4] ++ [0,0,0,0,11] ++ List.replicate 35 0
  small := by decide +kernel

set_option maxRecDepth 8000 in
theorem oneLoads : checkHeader oneSegment = true ∧
    ∃ out, loadSegments oneSegment calm (fun _ => 0) = some (0,out) ∧ Loads oneSegment out := by
  have checked : checkHeader oneSegment = true := by decide
  have result : (loadSegments oneSegment calm (fun _ => 0)).map Prod.fst = some 0 := by decide
  obtain ⟨⟨_,out⟩,ran,rfl⟩ := Option.map_eq_some_iff.mp result
  have right : Loadable oneSegment calm :=
    { headers := by decide
      nonempty := by decide
      dynamic := by decide
      room := ⟨0x1010,by decide⟩
      tableSkip := fun _ => rfl
      skips := fun _ _ _ => rfl
      lastSkip := fun _ => rfl
      within := by decide
      agree := by decide }
  exact ⟨checked,out,ran,(loadsIff checked ran).mpr right⟩

def noSegments : File := ⟨header 1 84 0 ++ List.replicate 32 0,by decide⟩

theorem nothingLoaded : checkHeader noSegments = true ∧ ∃ out, loadSegments noSegments calm (fun _ => 0) = some (0,out) ∧
    out.module = none ∧ out.dynTable = none ∧ ¬ Loads noSegments out := by
  have result : (loadSegments noSegments calm (fun _ => 0)).map (fun r => (r.1,r.2.module,r.2.dynTable)) =
      some (0,none,none) := by decide
  obtain ⟨⟨_,out⟩,ran,same⟩ := Option.map_eq_some_iff.mp result
  obtain ⟨rfl,module,dynTable⟩ := by simpa only [Prod.mk.injEq] using same
  refine ⟨by decide,out,ran,module,dynTable,?_⟩
  rintro ⟨_,⟨_,_,_,_,set_,_⟩,_⟩
  exact absurd (module.symm.trans set_) (by simp)

end Syslinux.Segments
