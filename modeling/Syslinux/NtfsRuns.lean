import Syslinux.Machine

/-! The mapping pairs of an NTFS attribute: parse_data_run of core/fs/ntfs/ntfs.c, and the
loop of index_inode_setup that makes a runlist of them. Positions are relative to the record
in memory; an int64_t is an integer that wraps. -/
namespace Syslinux.Ntfs

def toInt64 (n : Int) : Int := Int.bmod n (2^64)

/- struct mapping_chunk, with the bits of flags. -/
structure MappingChunk where
  vcn : Nat
  lcn : Int
  len : Nat
  mapStart : Bool
  mapEnd : Bool
  mapAllocated : Bool
  mapUnallocated : Bool
  deriving DecidableEq, Repr

def mappingChunkInit : MappingChunk := ⟨0,0,0,false,false,false,false⟩

def MappingChunk.unmask (chunk : MappingChunk) : MappingChunk :=
  { chunk with mapStart := false, mapEnd := false, mapAllocated := false, mapUnallocated := false }

/- while (count--) res = (res << byte_shift) | *byte--; -/
def shiftBytes (mem : Nat → UInt8) : Int → Nat → Nat → Int
  | res,_,0 => res
  | res,byte,count+1 => shiftBytes mem (toInt64 (256*res + (mem byte).toNat)) (byte - 1) count

/- The next offset and the chunk; none stands for -1. -/
def parseDataRun (mem : Nat → UInt8) (stream offset attrLen : Nat) (chunk : MappingChunk) : Option (Nat × MappingChunk) :=
  let chunk := chunk.unmask
  let buf := stream + offset
  if attrLen < buf ∨ mem buf = 0 then some (offset,{ chunk with mapEnd := true })
  else
    let chunk := { chunk with mapStart := decide (offset = 0) }
    let v := (mem buf).toNat % 16
    let l := (mem buf).toNat / 16
    if 8 < v ∨ 8 < l then none
    else
      let len := (shiftBytes mem 0 (buf + v) v % 2^64).toNat
      -- The sign is taken from this byte whether or not the run has LCN bytes.
      let sign : Int := if 0x80 ≤ (mem (buf + v + l)).toNat then -1 else 0
      let lcn := toInt64 (chunk.lcn + shiftBytes mem sign (buf + v + l) l)
      some (add32 offset (v + l + 1),
        { chunk with len := len, lcn := lcn, mapUnallocated := decide (lcn = 0), mapAllocated := decide (lcn ≠ 0) })

structure RunlistElement where
  vcn : Nat
  lcn : Int
  len : Nat
  deriving DecidableEq, Repr

def MappingChunk.element (chunk : MappingChunk) : RunlistElement := ⟨chunk.vcn,chunk.lcn,chunk.len⟩

def runlistAppend (rlist : List RunlistElement) (elem : RunlistElement) : List RunlistElement := rlist ++ [elem]

/- What the loop of index_inode_setup leaves: the runlist, and the chunks that it has been
given on the way. -/
structure Mapped where
  rlist : List RunlistElement
  chunks : List MappingChunk
  deriving DecidableEq, Repr

/- none where the turns run out, some none where parse_data_run fails. -/
def mapRuns (mem : Nat → UInt8) (stream attrLen : Nat) : Nat → Nat → MappingChunk → Mapped → Option (Option Mapped)
  | 0,_,_,_ => none
  | turns+1,offset,chunk,mapped =>
      match parseDataRun mem stream offset attrLen chunk with
      | none => some none
      | some (offset,chunk) =>
          if chunk.mapEnd then some (some mapped)
          else
            let chunks := mapped.chunks ++ [chunk]
            if chunk.mapUnallocated then mapRuns mem stream attrLen turns offset chunk ⟨mapped.rlist,chunks⟩
            else mapRuns mem stream attrLen turns offset { chunk with vcn := (chunk.vcn + chunk.len) % 2^64 }
              ⟨runlistAppend mapped.rlist chunk.element,chunks⟩

def indexRuns (mem : Nat → UInt8) (stream attrLen turns : Nat) : Option (Option Mapped) :=
  mapRuns mem stream attrLen turns 0 mappingChunkInit ⟨[],[]⟩

/- A run as NTFS writes it: an LCN or none, the length in clusters, and the number of bytes
that each of them takes. -/
inductive Run where
  | allocated (lcn : Int) (len v l : Nat)
  | sparse (len v : Nat)
  deriving DecidableEq, Repr

def leBytes (mem : Nat → UInt8) : Nat → Nat → Nat
  | _,0 => 0
  | i,n+1 => (mem i).toNat + 256*leBytes mem (i + 1) n

def signedBytes (mem : Nat → UInt8) (i n : Nat) : Int := Int.bmod (leBytes mem i n) (256^n)

/- The bytes from i on encode the runs, the first LCN relative to prev, and end inside the
attribute. -/
def Encodes (mem : Nat → UInt8) (attrLen : Nat) : Nat → Int → List Run → Prop
  | i,_,[] => i < attrLen ∧ mem i = 0
  | i,prev,.allocated lcn len v l::runs => i < attrLen ∧ (mem i).toNat = v + 16*l ∧ 1 ≤ v ∧ v ≤ 8 ∧ 1 ≤ l ∧ l ≤ 8 ∧
      leBytes mem (i + 1) v = len ∧ prev + signedBytes mem (i + 1 + v) l = lcn ∧ -2^63 ≤ lcn ∧ lcn < 2^63 ∧
      Encodes mem attrLen (i + 1 + v + l) lcn runs
  | i,prev,.sparse len v::runs => i < attrLen ∧ (mem i).toNat = v ∧ 1 ≤ v ∧ v ≤ 8 ∧ leBytes mem (i + 1) v = len ∧
      Encodes mem attrLen (i + 1 + v) prev runs

instance Encodes.decide (mem attrLen) : ∀ i prev runs, Decidable (Encodes mem attrLen i prev runs)
  | _,_,[] => by unfold Encodes; infer_instance
  | i,_,.allocated lcn _ v l::runs => by
      have := Encodes.decide mem attrLen (i + 1 + v + l) lcn runs
      unfold Encodes; infer_instance
  | i,prev,.sparse _ v::runs => by
      have := Encodes.decide mem attrLen (i + 1 + v) prev runs
      unfold Encodes; infer_instance

inductive Piece where
  | run (elem : RunlistElement)
  | hole (vcn len : Nat)
  deriving DecidableEq, Repr

def pieces : Nat → List Run → List Piece
  | _,[] => []
  | vcn,.allocated lcn len _ _::runs => .run ⟨vcn % 2^64,lcn,len⟩::pieces (vcn + len) runs
  | vcn,.sparse len _::runs => .hole (vcn % 2^64) len::pieces (vcn + len) runs

def Piece.elem? : Piece → Option RunlistElement
  | .run elem => some elem
  | .hole _ _ => none

def MappingChunk.piece (chunk : MappingChunk) : Piece :=
  if chunk.mapUnallocated then .hole chunk.vcn chunk.len else .run chunk.element

/- The loop ends with each of the runs, and with the allocated ones in the runlist. -/
def YieldsRuns (mem : Nat → UInt8) (stream attrLen : Nat) (runs : List Run) : Prop :=
  ∃ turns mapped, indexRuns mem stream attrLen turns = some (some mapped) ∧
    mapped.chunks.map MappingChunk.piece = pieces 0 runs ∧ mapped.rlist = (pieces 0 runs).filterMap Piece.elem?

/- An allocated run is told by its LCN, which is not 0. A sparse run leaves the LCN where it
was, or one below with a length whose top bit is set; it is told where that gives 0. The VCN
stays, so that nothing may come after it. -/
def Told : Int → List Run → Prop
  | _,[] => True
  | _,.allocated lcn _ _ _::runs => lcn ≠ 0 ∧ Told lcn runs
  | prev,.sparse len v::runs => prev = (if 2^(8*v - 1) ≤ len then 1 else 0) ∧ (runs = [] ∨ len = 0) ∧ Told prev runs

instance Told.decide : ∀ prev runs, Decidable (Told prev runs)
  | _,[] => by unfold Told; infer_instance
  | _,.allocated lcn _ _ _::runs => by
      have := Told.decide lcn runs
      unfold Told; infer_instance
  | prev,.sparse _ _::runs => by
      have := Told.decide prev runs
      unfold Told; infer_instance

theorem leBytesLt (mem : Nat → UInt8) (i n : Nat) : leBytes mem i n < 256^n := by
  induction n generalizing i with
  | zero => simp [leBytes]
  | succ n ih =>
    have byte := (mem i).toNat_lt
    have rest := ih (i + 1)
    rw [leBytes,pow_succ]
    omega

theorem leBytesTop (mem : Nat → UInt8) (i n : Nat) :
    leBytes mem i (n + 1) = leBytes mem i n + 256^n*(mem (i + n)).toNat := by
  induction n generalizing i with
  | zero => simp [leBytes]
  | succ n ih =>
    rw [leBytes,ih (i + 1),leBytes,pow_succ,show i + 1 + n = i + (n + 1) by omega]
    ring

theorem topBit (mem : Nat → UInt8) (i : Nat) {n : Nat} (some' : 1 ≤ n) :
    2^(8*n - 1) ≤ leBytes mem i n ↔ 0x80 ≤ (mem (i + n - 1)).toNat := by
  obtain ⟨n,rfl⟩ := Nat.exists_eq_add_of_le' some'
  have low := leBytesLt mem i n
  have pow : 2^(8*(n + 1) - 1) = 256^n*0x80 := by
    rw [show 8*(n + 1) - 1 = 8*n + 7 by omega,pow_add,pow_mul]
    norm_num
  rw [leBytesTop,pow,show i + (n + 1) - 1 = i + n by omega]
  constructor
  · intro le
    by_contra small
    have : 256^n*((mem (i + n)).toNat + 1) ≤ 256^n*0x80 := Nat.mul_le_mul_left _ (by omega)
    rw [Nat.mul_add] at this
    omega
  · intro le
    have : 256^n*0x80 ≤ 256^n*(mem (i + n)).toNat := Nat.mul_le_mul_left _ le
    omega

theorem toInt64Eq {n : Int} (low : -2^63 ≤ n) (high : n < 2^63) : toInt64 n = n := by
  unfold toInt64
  exact Int.bmod_eq_of_le (by omega) (by omega)

theorem shiftBytesValue (mem : Nat → UInt8) (res : Int) (i n : Nat) (low : -2^63 ≤ res) (high : res < 2^63) :
    shiftBytes mem res (i + n - 1) n = toInt64 (256^n*res + leBytes mem i n) := by
  induction n generalizing res with
  | zero => simp [shiftBytes,leBytes,toInt64Eq low high]
  | succ n ih =>
    rw [show i + (n + 1) - 1 = i + n by omega,shiftBytes]
    have next : -2^63 ≤ toInt64 (256*res + (mem (i + n)).toNat) ∧ toInt64 (256*res + (mem (i + n)).toNat) < 2^63 := by
      unfold toInt64
      constructor
      · have := Int.le_bmod (x := 256*res + (mem (i + n)).toNat) (m := 2^64) (by norm_num)
        omega
      · have := Int.bmod_lt (x := 256*res + (mem (i + n)).toNat) (m := 2^64) (by norm_num)
        omega
    rw [ih _ next.1 next.2,leBytesTop]
    unfold toInt64
    rw [← Int.bmod_add_bmod,mul_comm,Int.bmod_mul_bmod,Int.bmod_add_bmod]
    congr 1
    push_cast
    ring

theorem signedBytesBound (mem : Nat → UInt8) (i : Nat) {n : Nat} (few : n ≤ 8) :
    -2^63 ≤ signedBytes mem i n ∧ signedBytes mem i n < 2^63 := by
  have low := Int.le_bmod (x := leBytes mem i n) (m := 256^n) (by positivity)
  have high := Int.bmod_lt (x := leBytes mem i n) (m := 256^n) (by positivity)
  have pow : (256 : Nat)^n ≤ 256^8 := Nat.pow_le_pow_right (by norm_num) few
  unfold signedBytes
  omega

theorem signedBytesSplit (mem : Nat → UInt8) (i : Nat) {n : Nat} (some' : 1 ≤ n) :
    signedBytes mem i n = 256^n*(if 0x80 ≤ (mem (i + n - 1)).toNat then -1 else 0) + leBytes mem i n := by
  have less := leBytesLt mem i n
  have half : (256 : Nat)^n = 2*2^(8*n - 1) := by
    rw [← pow_succ',show 8*n - 1 + 1 = 8*n by omega,pow_mul]
    norm_num
  unfold signedBytes
  by_cases top : 0x80 ≤ (mem (i + n - 1)).toNat
  · have large := (topBit mem i some').mpr top
    rw [if_pos top,Int.bmod_neg _ _ (by rw [Int.emod_eq_of_lt (by omega) (by exact_mod_cast less)]; omega),
      Int.emod_eq_of_lt (by omega) (by exact_mod_cast less)]
    push_cast
    ring
  · have small : leBytes mem i n < 2^(8*n - 1) := Nat.lt_of_not_le fun le => top ((topBit mem i some').mp le)
    rw [if_neg top,Int.bmod_eq_emod_of_lt (by rw [Int.emod_eq_of_lt (by omega) (by exact_mod_cast less)]; omega),
      Int.emod_eq_of_lt (by omega) (by exact_mod_cast less)]
    ring

theorem shiftBytesSigned (mem : Nat → UInt8) (i : Nat) {n : Nat} (some' : 1 ≤ n) (few : n ≤ 8) :
    shiftBytes mem (if 0x80 ≤ (mem (i + n - 1)).toNat then -1 else 0) (i + n - 1) n = signedBytes mem i n := by
  have bound := signedBytesBound mem i few
  rw [shiftBytesValue mem _ i n (by split_ifs <;> norm_num) (by split_ifs <;> norm_num),← signedBytesSplit mem i some']
  exact toInt64Eq bound.1 bound.2

theorem shiftBytesLength (mem : Nat → UInt8) (i : Nat) {n : Nat} (few : n ≤ 8) :
    (shiftBytes mem 0 (i + n - 1) n % 2^64).toNat = leBytes mem i n := by
  have less := leBytesLt mem i n
  have pow : (256 : Nat)^n ≤ 256^8 := Nat.pow_le_pow_right (by norm_num) few
  have modulus : ((2^64 : Nat) : Int) = 2^64 := by norm_num
  rw [shiftBytesValue mem 0 i n (by norm_num) (by norm_num),toInt64,mul_zero,zero_add,← modulus,Int.bmod_emod,modulus,
    Int.emod_eq_of_lt (by omega) (by omega)]
  rfl

section
variable {mem : Nat → UInt8} {stream attrLen offset : Nat} {chunk : MappingChunk} {prev : Int}

theorem parseEnd (end' : stream + offset < attrLen ∧ mem (stream + offset) = 0) :
    parseDataRun mem stream offset attrLen chunk = some (offset,{ chunk.unmask with mapEnd := true }) := by
  rw [parseDataRun,if_pos (Or.inr end'.2)]

theorem parseAllocated {lcn : Int} {len v l : Nat} {runs : List Run} (small : attrLen < 2^32)
    (encoded : Encodes mem attrLen (stream + offset) chunk.lcn (.allocated lcn len v l::runs))
    (rest : stream + (offset + (v + l + 1)) < attrLen) :
    parseDataRun mem stream offset attrLen chunk = some (offset + (v + l + 1),
      ⟨chunk.vcn,lcn,len,decide (offset = 0),false,decide (lcn ≠ 0),decide (lcn = 0)⟩) := by
  obtain ⟨inside,count,v1,v8,l1,l8,length,delta,low,high,_⟩ := encoded
  have head : ¬ (attrLen < stream + offset ∨ mem (stream + offset) = 0) := by
    rintro (out | zero)
    · omega
    · simp only [zero,UInt8.toNat_zero] at count
      omega
  have nibble : (mem (stream + offset)).toNat % 16 = v ∧ (mem (stream + offset)).toNat / 16 = l := by omega
  have lenAt : stream + offset + v = stream + offset + 1 + v - 1 := by omega
  have lcnAt : stream + offset + v + l = stream + offset + 1 + v + l - 1 := by omega
  have sum : toInt64 (chunk.unmask.lcn + signedBytes mem (stream + offset + 1 + v) l) = lcn := by
    rw [show chunk.unmask.lcn = chunk.lcn from rfl,delta]
    exact toInt64Eq low high
  rw [parseDataRun,if_neg head]
  simp only [nibble.1,nibble.2]
  rw [if_neg (by omega),lcnAt,shiftBytesSigned mem _ l1 l8,sum,lenAt,shiftBytesLength mem _ v8,length,add32Eq (by omega)]
  rfl

theorem parseSparse {len v : Nat} {runs : List Run} (small : attrLen < 2^32)
    (encoded : Encodes mem attrLen (stream + offset) prev (.sparse len v::runs))
    (rest : stream + (offset + (v + 1)) < attrLen) :
    parseDataRun mem stream offset attrLen chunk = some (offset + (v + 1),
      ⟨chunk.vcn,toInt64 (chunk.lcn + if 2^(8*v - 1) ≤ len then -1 else 0),len,decide (offset = 0),false,
        decide (toInt64 (chunk.lcn + if 2^(8*v - 1) ≤ len then -1 else 0) ≠ 0),
        decide (toInt64 (chunk.lcn + if 2^(8*v - 1) ≤ len then -1 else 0) = 0)⟩) := by
  obtain ⟨inside,count,v1,v8,length,_⟩ := encoded
  have head : ¬ (attrLen < stream + offset ∨ mem (stream + offset) = 0) := by
    rintro (out | zero)
    · omega
    · simp only [zero,UInt8.toNat_zero] at count
      omega
  have nibble : (mem (stream + offset)).toNat % 16 = v ∧ (mem (stream + offset)).toNat / 16 = 0 := by omega
  have lenAt : stream + offset + v = stream + offset + 1 + v - 1 := by omega
  have sign : 0x80 ≤ (mem (stream + offset + 1 + v - 1)).toNat ↔ 2^(8*v - 1) ≤ len := by
    rw [← length,topBit mem _ v1]
  rw [parseDataRun,if_neg head]
  simp only [nibble.1,nibble.2]
  rw [if_neg (by omega),Nat.add_zero,lenAt,shiftBytesLength mem _ v8,length,add32Eq (by omega)]
  simp only [shiftBytes,Nat.add_zero,sign]
  rfl

theorem parseVcn {next : Nat × MappingChunk} (ok : parseDataRun mem stream offset attrLen chunk = some next) :
    next.2.vcn = chunk.vcn := by
  simp only [parseDataRun] at ok
  split_ifs at ok <;> cases Option.some.inj ok <;> rfl

theorem mapRunsGrows {turns : Nat} {mapped done : Mapped}
    (ok : mapRuns mem stream attrLen turns offset chunk mapped = some (some done)) :
    ∃ more, done.chunks = mapped.chunks ++ more ∧ ∀ c ∈ more.head?, c.vcn = chunk.vcn := by
  induction turns generalizing offset chunk mapped with
  | zero => contradiction
  | succ turns ih =>
    rw [mapRuns] at ok
    cases parse : parseDataRun mem stream offset attrLen chunk with
    | none => rw [parse] at ok; simp at ok
    | some next =>
      rw [parse] at ok
      have vcn := parseVcn parse
      simp only at ok
      split_ifs at ok with end' hole
      · cases ok
        exact ⟨[],by simp,by simp⟩
      · obtain ⟨more,grown,_⟩ := ih ok
        exact ⟨next.2::more,by rw [grown]; simp,by simpa using vcn⟩
      · obtain ⟨more,grown,_⟩ := ih ok
        exact ⟨next.2::more,by rw [grown]; simp,by simpa using vcn⟩

def Piece.vcn : Piece → Nat
  | .run elem => elem.vcn
  | .hole vcn _ => vcn

theorem pieceVcn (chunk : MappingChunk) : chunk.piece.vcn = chunk.vcn := by
  unfold MappingChunk.piece
  split_ifs <;> rfl

theorem piecesVcn (vcn : Nat) (run : Run) (runs : List Run) :
    ∃ piece more, pieces vcn (run::runs) = piece::more ∧ piece.vcn = vcn % 2^64 := by
  cases run with
  | allocated lcn len v l => exact ⟨_,_,rfl,rfl⟩
  | sparse len v => exact ⟨_,_,rfl,rfl⟩

theorem encodesInside {i : Nat} {runs : List Run} (encoded : Encodes mem attrLen i prev runs) : i < attrLen := by
  match runs,encoded with
  | [],encoded => exact encoded.1
  | .allocated _ _ _ _::_,encoded => exact encoded.1
  | .sparse _ _::_,encoded => exact encoded.1

def Rest (mem : Nat → UInt8) (stream attrLen offset : Nat) (chunk : MappingChunk) (mapped : Mapped) (vcn : Nat)
    (runs : List Run) : Prop :=
  ∃ turns done, mapRuns mem stream attrLen turns offset chunk mapped = some (some done) ∧
    done.chunks.map MappingChunk.piece = mapped.chunks.map MappingChunk.piece ++ pieces vcn runs ∧
    done.rlist = mapped.rlist ++ (pieces vcn runs).filterMap Piece.elem?

theorem mapRunsStep {next : Nat × MappingChunk} (parse : parseDataRun mem stream offset attrLen chunk = some next)
    (more : next.2.mapEnd = false) (turns : Nat) (mapped : Mapped) :
    mapRuns mem stream attrLen (turns + 1) offset chunk mapped = mapRuns mem stream attrLen turns next.1
      (if next.2.mapUnallocated then next.2 else { next.2 with vcn := (next.2.vcn + next.2.len) % 2^64 })
      ⟨mapped.rlist ++ next.2.piece.elem?.toList,mapped.chunks ++ [next.2]⟩ := by
  rw [mapRuns,parse]
  simp only [more,Bool.false_eq_true,if_false,MappingChunk.piece]
  split_ifs
  · simp [Piece.elem?]
  · simp [Piece.elem?,runlistAppend]

/- One turn of the loop: the chunk is the next piece, and the rest is what it should be. -/
theorem restStep {next : Nat × MappingChunk} {mapped : Mapped} {vcn vcn' : Nat} {run : Run} {runs : List Run}
    {piece : Piece} (parse : parseDataRun mem stream offset attrLen chunk = some next) (more : next.2.mapEnd = false)
    (first : pieces vcn (run::runs) = piece::pieces vcn' runs) :
    Rest mem stream attrLen offset chunk mapped vcn (run::runs) ↔ next.2.piece = piece ∧
      Rest mem stream attrLen next.1
        (if next.2.mapUnallocated then next.2 else { next.2 with vcn := (next.2.vcn + next.2.len) % 2^64 })
        ⟨mapped.rlist ++ piece.elem?.toList,mapped.chunks ++ [next.2]⟩ vcn' runs := by
  have elems : (piece::pieces vcn' runs).filterMap Piece.elem? =
      piece.elem?.toList ++ (pieces vcn' runs).filterMap Piece.elem? := by
    rw [List.filterMap_cons]
    cases piece.elem? <;> rfl
  unfold Rest
  rw [first,elems]
  constructor
  · rintro ⟨turns,done,ok,chunks,rlist⟩
    cases turns with
    | zero => contradiction
    | succ turns =>
      rw [mapRunsStep parse more] at ok
      obtain ⟨later,grown,_⟩ := mapRunsGrows ok
      have same : next.2.piece = piece := by
        rw [grown] at chunks
        simp only [List.map_append,List.append_assoc,List.map_cons,List.cons_append,List.append_cancel_left_eq] at chunks
        exact (List.cons.inj chunks).1
      rw [same] at ok
      refine ⟨same,turns,done,ok,?_,?_⟩
      · rw [chunks]
        simp [same]
      · rw [rlist,List.append_assoc]
  · rintro ⟨same,turns,done,ok,chunks,rlist⟩
    refine ⟨turns + 1,done,?_,?_,?_⟩
    · rw [mapRunsStep parse more,same]
      exact ok
    · rw [chunks]
      simp [same]
    · rw [rlist,List.append_assoc]

theorem restVcn {mapped : Mapped} {vcn : Nat} {run : Run} {runs : List Run} (other : chunk.vcn ≠ vcn % 2^64) :
    ¬ Rest mem stream attrLen offset chunk mapped vcn (run::runs) := by
  rintro ⟨turns,done,ok,chunks,_⟩
  obtain ⟨more,grown,kept⟩ := mapRunsGrows ok
  obtain ⟨piece,later,head,at'⟩ := piecesVcn vcn run runs
  rw [grown,head,List.map_append,List.append_cancel_left_eq] at chunks
  cases more with
  | nil => simp at chunks
  | cons c more =>
    obtain ⟨same,_⟩ := List.cons.inj chunks
    apply other
    rw [← kept c rfl,← pieceVcn c,same,at']

theorem restTold {runs : List Run} {mapped : Mapped} {vcn : Nat} (small : attrLen < 2^32)
    (encoded : Encodes mem attrLen (stream + offset) prev runs) (at' : chunk.vcn = vcn % 2^64)
    (here : runs = [] ∨ chunk.lcn = prev) (word : -2^63 ≤ prev ∧ prev < 2^63) :
    Rest mem stream attrLen offset chunk mapped vcn runs ↔ Told prev runs := by
  induction runs generalizing offset chunk prev mapped vcn with
  | nil =>
    refine iff_of_true ⟨1,mapped,?_,by simp [pieces],by simp [pieces]⟩ trivial
    rw [mapRuns,parseEnd encoded]
    rfl
  | cons run runs ih =>
    obtain rfl : chunk.lcn = prev := by simpa using here
    cases run with
    | allocated lcn len v l =>
      have tail : Encodes mem attrLen (stream + (offset + (v + l + 1))) lcn runs := by
        rw [show stream + (offset + (v + l + 1)) = stream + offset + 1 + v + l by omega]
        exact encoded.2.2.2.2.2.2.2.2.2.2
      have range : -2^63 ≤ lcn ∧ lcn < 2^63 := ⟨encoded.2.2.2.2.2.2.2.2.1,encoded.2.2.2.2.2.2.2.2.2.1⟩
      rw [restStep (parseAllocated small encoded (encodesInside tail)) rfl rfl,Told]
      by_cases zero : lcn = 0
      · refine iff_of_false ?_ fun told => told.1 zero
        simp [MappingChunk.piece,zero]
      · have step : (chunk.vcn + len) % 2^64 = (vcn + len) % 2^64 := by rw [at',Nat.mod_add_mod]
        simp only [zero,decide_false,Bool.false_eq_true,if_false]
        rw [ih tail step (Or.inr rfl) range]
        simp [MappingChunk.piece,MappingChunk.element,at',zero]
    | sparse len v =>
      have tail : Encodes mem attrLen (stream + (offset + (v + 1))) chunk.lcn runs := by
        rw [show stream + (offset + (v + 1)) = stream + offset + 1 + v by omega]
        exact encoded.2.2.2.2.2
      have len64 : len < 2^64 := by
        obtain ⟨_,_,_,v8,length,_⟩ := encoded
        have less := leBytesLt mem (stream + offset + 1) v
        have pow : (256 : Nat)^v ≤ 256^8 := Nat.pow_le_pow_right (by norm_num) v8
        omega
      have zero : toInt64 (chunk.lcn + if 2^(8*v - 1) ≤ len then -1 else 0) = 0 ↔
          chunk.lcn = if 2^(8*v - 1) ≤ len then 1 else 0 := by
        unfold toInt64
        split_ifs <;> constructor <;> intro h <;> simp only [Int.bmod] at * <;> omega
      rw [restStep (parseSparse small encoded (encodesInside tail)) rfl rfl,Told]
      simp only [zero]
      by_cases told : chunk.lcn = if 2^(8*v - 1) ≤ len then 1 else 0
      · have hole : toInt64 (chunk.lcn + if 2^(8*v - 1) ≤ len then -1 else 0) = 0 := zero.mpr told
        have piece : MappingChunk.piece ⟨chunk.vcn,0,len,decide (offset = 0),false,false,true⟩ = .hole (vcn % 2^64) len := by
          simp [MappingChunk.piece,at']
        simp only [decide_eq_true told,hole,ne_eq,not_true,decide_false,if_true,piece,true_and]
        rcases runs with _ | ⟨run,runs⟩
        · have end' : Rest mem stream attrLen (offset + (v + 1)) ⟨chunk.vcn,0,len,decide (offset = 0),false,false,true⟩
              ⟨mapped.rlist ++ Option.toList (Piece.elem? (.hole (vcn % 2^64) len)),
                mapped.chunks ++ [⟨chunk.vcn,0,len,decide (offset = 0),false,false,true⟩]⟩ vcn [] ↔ Told chunk.lcn [] :=
            ih tail at' (Or.inl rfl) word
          exact end'.trans (by simp [Told,told])
        · by_cases none' : len = 0
          · have stays : chunk.lcn = 0 := by
              rw [told,if_neg (by rw [none']; have := Nat.two_pow_pos (8*v - 1); omega)]
            rw [ih tail (by rw [at',none',Nat.add_zero]) (Or.inr stays.symm) word]
            simp [none',told]
          · refine iff_of_false (restVcn ?_) (by simp [none'])
            simp only [at']
            omega
      · refine iff_of_false ?_ fun h => told h.1
        simp [MappingChunk.piece,told]

theorem yieldsRest (runs : List Run) :
    YieldsRuns mem stream attrLen runs ↔ Rest mem stream attrLen 0 mappingChunkInit ⟨[],[]⟩ 0 runs := by
  simp [YieldsRuns,Rest,indexRuns]

/- The loop yields the runs of a stream just when each of them can be told from its LCN. -/
theorem runsYielded {runs : List Run} (small : attrLen < 2^32) (encoded : Encodes mem attrLen stream 0 runs) :
    YieldsRuns mem stream attrLen runs ↔ Told 0 runs := by
  rw [yieldsRest]
  exact restTold small encoded rfl (Or.inr rfl) ⟨by norm_num,by norm_num⟩

end

/- Five clusters from LCN 100 on, and three from LCN 70 on, a negative delta. -/
def twoRuns : List UInt8 := [0x11,5,100,0x11,3,226,0]

theorem runsYieldedTwo : YieldsRuns (fun i => twoRuns.getD i 0) 0 7 [.allocated 100 5 1 1,.allocated 70 3 1 1] := by
  refine (runsYielded (by norm_num) ?_).mpr ?_
  · decide
  · decide

/- Five clusters from LCN 100 on, a hole of three, and two clusters from LCN 200 on. -/
def holeBetween : List UInt8 := [0x11,5,100,0x01,3,0x11,2,100,0]

theorem holeNotYielded : Encodes (fun i => holeBetween.getD i 0) 9 0 0 [.allocated 100 5 1 1,.sparse 3 1,.allocated 200 2 1 1] ∧
    ¬ YieldsRuns (fun i => holeBetween.getD i 0) 0 9 [.allocated 100 5 1 1,.sparse 3 1,.allocated 200 2 1 1] := by
  have encoded : Encodes (fun i => holeBetween.getD i 0) 9 0 0
      [.allocated 100 5 1 1,.sparse 3 1,.allocated 200 2 1 1] := by decide
  refine ⟨encoded,fun yields => ?_⟩
  have told := (restTold (by norm_num) encoded rfl (Or.inr rfl) ⟨by decide,by decide⟩).mp ((yieldsRest _).mp yields)
  exact absurd told (by decide)
end Syslinux.Ntfs
