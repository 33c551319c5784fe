import Syslinux.Initramfs

/-! The cpio records of com32/lib/syslinux/initramfs_file.c. A file name is the list of the bytes
before its NUL, a pointer into it an index, and next_ino the argument of the calls. -/
namespace Syslinux.Cpio
open Align Initramfs

def slash : UInt8 := 0x2f
def cpioMagic : List UInt8 := [0x30,0x37,0x30,0x37,0x30,0x31]
def cpioHeaderSize : Nat := 110

structure Header where
  ino : Nat
  mode : Nat
  uid : Nat
  gid : Nat
  nlink : Nat
  mtime : Nat
  filesize : Nat
  maj : Nat
  min : Nat
  rmaj : Nat
  rmin : Nat
  namesize : Nat
  chksum : Nat
  deriving DecidableEq, Repr

def Header.fields (h : Header) : List Nat :=
  [h.ino,h.mode,h.uid,h.gid,h.nlink,h.mtime,h.filesize,h.maj,h.min,h.rmaj,h.rmin,h.namesize,h.chksum]

def hexDigit (d : Nat) : UInt8 := UInt8.ofNat (if d < 10 then 48 + d else 87 + d)

/- What %0nx prints of a number with at most n digits. -/
def hexDigits : Nat → Nat → List UInt8
  | 0,_ => []
  | n + 1,v => hexDigits n (v / 16) ++ [hexDigit (v % 16)]

/- What the sprintf of a header prints, before its NUL. -/
def printHeader (h : Header) : List UInt8 := cpioMagic ++ h.fields.flatMap (hexDigits 8)

def strchr (s : List UInt8) (c : UInt8) (p : Nat) : Option Nat := ((s.drop p).findIdx? (· == c)).map (p + ·)

theorem strchrInside {s : List UInt8} {c : UInt8} {p q : Nat} (found : strchr s c p = some q) :
    p ≤ q ∧ q < s.length := by
  simp only [strchr,Option.map_eq_some_iff] at found
  obtain ⟨i,at',rfl⟩ := found
  have := (List.findIdx?_eq_some_iff_getElem.mp at').1
  rw [List.length_drop] at this
  omega

/- The loop over the slashes that both passes of initramfs_mkdirs run. -/
def eachDir {σ : Type} (filename : List UInt8) (body : σ → Nat → σ) (s : σ) (p : Nat) : σ :=
  match found : strchr filename slash p with
  | none => s
  | some q =>
      have := strchrInside found
      eachDir filename body (if q ≠ 0 ∧ filename[q - 1]? ≠ some slash then body s q else s) (q + 1)
  termination_by filename.length - p

def hdrSz (len : Nat) : Nat := alignUp (add32 (add32 cpioHeaderSize len) 1) 4

structure Emit where
  mem : Nat → UInt8
  bp : Nat
  nextIno : UInt32
  written : Nat

/- One record: the sprintf with its NUL, the memcpy of the name and the memset of the pad. -/
def emitRecord (h : UInt32 → Header) (name : List UInt8) (e : Emit) : Emit :=
  let pad := sub32 (hdrSz name.length) (add32 cpioHeaderSize name.length)
  let mem := store e.mem e.bp (printHeader (h e.nextIno) ++ [0])
  let bp := e.bp + (printHeader (h e.nextIno)).length
  let mem := store mem bp name
  let bp := bp + name.length
  let mem := store mem bp (List.replicate pad 0)
  ⟨mem,bp + pad,e.nextIno + 1,e.written + (printHeader (h e.nextIno)).length + name.length + pad⟩

def sIfdir0755 : Nat := 0o40755

def dirHeader (len : Nat) (ino : UInt32) : Header :=
  ⟨ino.toNat,sIfdir0755,0,0,1,0,0,0,1,0,1,len + 1,0⟩

def fileHeader (mode : UInt16) (len major minor : UInt32) (namelen : Nat) (ino : UInt32) : Header :=
  ⟨ino.toNat,mode.toNat,0,0,1,0,len.toNat,0,1,major.toNat,minor.toNat,namelen + 1,0⟩

/- The buffer starts at e.bp; the caller's own pointer is moved by the size returned. -/
def initramfsMkdirs (filename : List UInt8) (buflen : Nat) (e : Emit) : Nat × Emit :=
  let bytes := eachDir filename (fun bytes len => add32 bytes (hdrSz len)) 0 0
  if bytes ≤ buflen then
    (bytes,eachDir filename (fun e len => emitRecord (dirHeader len) (filename.take len) e) e 0)
  else (bytes,e)

structure Made where
  rv : Int
  chain : List Chunk
  mem : Nat → UInt8
  nextIno : UInt32
  allocated : Nat
  written : Nat
  mallocs : List Bool

/- The buffer that a malloc which succeeds returns is given by its address. The first call of
initramfs_mkdirs has a null buffer without room: it writes there when its size is 0. -/
def initramfsMknod (mallocs : List Bool) (buffer : Nat) (mem : Nat → UInt8) (nextIno : UInt32) (ihead : List Chunk)
    (filename : List UInt8) (doMkdir : Bool) (mode : UInt16) (len major minor : UInt32) : Made :=
  let e : Emit := ⟨mem,0,nextIno,0⟩
  let (bytes,e) := if doMkdir then initramfsMkdirs filename 0 e else (0,e)
  let bytes := add32 bytes (hdrSz filename.length)
  match malloc mallocs with
  | (false,mallocs) => ⟨-1,ihead,e.mem,e.nextIno,0,e.written,mallocs⟩
  | (true,mallocs) =>
      let e := { e with bp := buffer }
      let (moved,e) := if doMkdir then initramfsMkdirs filename bytes e else (0,e)
      let e := emitRecord (fileHeader mode len major minor filename.length) filename { e with bp := buffer + moved }
      let (rv,chain,mallocs) := initramfsAddData mallocs ihead buffer bytes bytes 4
      if rv ≠ 0 then ⟨-1,chain,e.mem,e.nextIno,bytes,e.written,mallocs⟩
      else ⟨0,chain,e.mem,e.nextIno,bytes,e.written,mallocs⟩

/- The reader of a newc archive. A body that goes on behind the bytes read is skipped. -/
def hexValue (b : UInt8) : Option Nat :=
  if 48 ≤ b.toNat ∧ b.toNat ≤ 57 then some (b.toNat - 48)
  else if 97 ≤ b.toNat ∧ b.toNat ≤ 102 then some (b.toNat - 87)
  else if 65 ≤ b.toNat ∧ b.toNat ≤ 70 then some (b.toNat - 55)
  else none

def readHex (digits : List UInt8) : Option Nat :=
  digits.foldlM (fun v d => (hexValue d).map (fun x => v*16 + x)) 0

def readFields : Nat → List UInt8 → Option (List Nat)
  | 0,_ => some []
  | n + 1,bytes => do
      let v ← readHex (bytes.take 8)
      let rest ← readFields n (bytes.drop 8)
      some (v::rest)

def readHeader (bytes : List UInt8) : Option Header :=
  if bytes.length < cpioHeaderSize ∨ bytes.take 6 ≠ cpioMagic then none
  else match readFields 13 (bytes.drop 6) with
  | some [ino,mode,uid,gid,nlink,mtime,filesize,maj,min,rmaj,rmin,namesize,chksum] =>
      some ⟨ino,mode,uid,gid,nlink,mtime,filesize,maj,min,rmaj,rmin,namesize,chksum⟩
  | _ => none

structure Entry where
  offset : Nat
  header : Header
  name : List UInt8
  deriving DecidableEq, Repr

def decodeFrom : Nat → Nat → List UInt8 → Option (List Entry)
  | _,_,[] => some []
  | 0,_,_ => none
  | fuel + 1,offset,bytes => do
      let h ← readHeader bytes
      let size := roundUp (cpioHeaderSize + h.namesize) 4
      let name := (bytes.drop cpioHeaderSize).take (h.namesize - 1)
      if h.namesize = 0 ∨ bytes.length < size ∨ bytes[cpioHeaderSize + name.length]? ≠ some 0 then none
      else
        let next := size + roundUp h.filesize 4
        let rest ← decodeFrom fuel (offset + next) (bytes.drop next)
        some (⟨offset,h,name⟩::rest)

def decode (bytes : List UInt8) : Option (List Entry) := decodeFrom bytes.length 0 bytes

def isDirEnd (filename : List UInt8) (i : Nat) : Bool :=
  i ≠ 0 ∧ filename[i]? = some slash ∧ filename[i - 1]? ≠ some slash

def dirPrefixes (filename : List UInt8) : List (List UInt8) :=
  ((List.range filename.length).filter (isDirEnd filename)).map filename.take

def dirRecords : UInt32 → List (List UInt8) → List (Header × List UInt8)
  | _,[] => []
  | ino,name::rest => (dirHeader name.length ino,name)::dirRecords (ino + 1) rest

def archive (filename : List UInt8) (nextIno : UInt32) (mode : UInt16) (len major minor : UInt32) :
    List (Header × List UInt8) :=
  let dirs := dirPrefixes filename
  dirRecords nextIno dirs ++
    [(fileHeader mode len major minor filename.length (nextIno + UInt32.ofNat dirs.length),filename)]

def recordSize (name : List UInt8) : Nat := roundUp (cpioHeaderSize + name.length + 1) 4

def dirSize (filename : List UInt8) : Nat := ((dirPrefixes filename).map recordSize).sum

def archiveSize (filename : List UInt8) : Nat :=
  dirSize filename + recordSize filename

section
variable {filename name : List UInt8} {h : Header}

theorem strchrAt {c : UInt8} {p : Nat} (inside : p < filename.length) :
    strchr filename c p = if filename[p] = c then some p else strchr filename c (p + 1) := by
  unfold strchr
  rw [List.drop_eq_getElem_cons inside,List.findIdx?_cons]
  by_cases here : filename[p] = c
  · simp [here]
  · simp [here,Function.comp_def,Nat.add_comm 1,Nat.add_assoc]

theorem strchrEnd {c : UInt8} {p : Nat} (outside : filename.length ≤ p) : strchr filename c p = none := by
  simp [strchr,List.drop_eq_nil_of_le outside]

theorem eachDirUnfold {σ : Type} {body : σ → Nat → σ} {s : σ} {p : Nat} : eachDir filename body s p =
    match strchr filename slash p with
    | none => s
    | some q => eachDir filename body (if q ≠ 0 ∧ filename[q - 1]? ≠ some slash then body s q else s) (q + 1) := by
  rw [eachDir]
  split <;> simp [*]

theorem eachDirAt {σ : Type} {body : σ → Nat → σ} {s : σ} {p : Nat} (inside : p < filename.length) :
    eachDir filename body s p = eachDir filename body (if isDirEnd filename p then body s p else s) (p + 1) := by
  rw [eachDirUnfold,strchrAt inside]
  by_cases here : filename[p] = slash
  · simp [here,isDirEnd,List.getElem?_eq_getElem inside]
  · rw [if_neg here,← eachDirUnfold]
    simp [here,isDirEnd,List.getElem?_eq_getElem inside]

theorem eachDirFrom {σ : Type} {body : σ → Nat → σ} (left : Nat) : ∀ (s : σ) (p : Nat), p + left = filename.length →
    eachDir filename body s p = ((List.range' p left).filter (isDirEnd filename)).foldl body s := by
  induction left with
  | zero =>
    intro s p whole
    rw [eachDirUnfold,strchrEnd (by omega)]
    rfl
  | succ left ih =>
    intro s p whole
    rw [eachDirAt (by omega),ih _ _ (by omega),List.range'_succ,List.filter_cons]
    split <;> rfl

theorem eachDirEq {σ : Type} (body : σ → List UInt8 → σ) (s : σ) :
    eachDir filename (fun s len => body s (filename.take len)) s 0 = (dirPrefixes filename).foldl body s := by
  rw [eachDirFrom filename.length s 0 (by omega),dirPrefixes,List.foldl_map,List.range_eq_range']

theorem dirPrefixLength (m : name ∈ dirPrefixes filename) : name.length ≤ filename.length := by
  obtain ⟨i,_,rfl⟩ := List.mem_map.mp m
  simp

theorem eachDirCongr {σ : Type} {body body' : σ → Nat → σ} {s : σ}
    (same : ∀ s len, len < filename.length → body s len = body' s len) :
    eachDir filename body s 0 = eachDir filename body' s 0 := by
  rw [eachDirFrom filename.length s 0 (by omega),eachDirFrom filename.length s 0 (by omega)]
  refine List.foldl_ext _ _ _ ?_
  intro s len m
  have := List.mem_range'_1.mp (List.mem_filter.mp m).1
  exact same s len (by omega)

theorem hexDigitsLength (n v : Nat) : (hexDigits n v).length = n := by
  induction n generalizing v with
  | zero => rfl
  | succ n ih => simp [hexDigits,ih]

theorem printHeaderLength : (printHeader h).length = cpioHeaderSize := by
  simp [printHeader,Header.fields,hexDigitsLength,cpioMagic,cpioHeaderSize]

theorem recordSizeBounds (name : List UInt8) :
    cpioHeaderSize + name.length + 1 ≤ recordSize name ∧ recordSize name ≤ cpioHeaderSize + name.length + 4 ∧
      4 ∣ recordSize name := by
  have up := roundUpOk (n := cpioHeaderSize + name.length + 1) 4 (by omega)
  refine ⟨up.le,?_,up.aligned⟩
  unfold recordSize roundUp
  omega

theorem hdrSzEq (short : name.length < 2^31) : hdrSz name.length = recordSize name := by
  have small : cpioHeaderSize + name.length + 1 < 2^32 - 4 := by unfold cpioHeaderSize; omega
  have sum : add32 (add32 cpioHeaderSize name.length) 1 = cpioHeaderSize + name.length + 1 := by
    have inner : add32 cpioHeaderSize name.length = cpioHeaderSize + name.length := add32Eq (by omega)
    rw [inner,add32Eq (by omega)]
  unfold hdrSz
  rw [sum]
  exact roundedUpUnique (alignUpOk (k := 2) (by omega) (by omega)) (roundUpOk 4 (by omega))

/- The bytes of a record, without the NUL that the name or the pad takes the place of. -/
def record (r : Header × List UInt8) : List UInt8 :=
  printHeader r.1 ++ r.2 ++ List.replicate (recordSize r.2 - (cpioHeaderSize + r.2.length)) 0

theorem recordLength (r : Header × List UInt8) : (record r).length = recordSize r.2 := by
  have := (recordSizeBounds r.2).1
  simp only [record,List.length_append,printHeaderLength,List.length_replicate]
  omega

theorem emitRecordEq {header : UInt32 → Header} {e : Emit} (short : name.length < 2^31) :
    emitRecord header name e = ⟨store e.mem e.bp (record (header e.nextIno,name)),e.bp + recordSize name,
      e.nextIno + 1,e.written + recordSize name⟩ := by
  have bounds := recordSizeBounds name
  have small : cpioHeaderSize + name.length < 2^32 := by unfold cpioHeaderSize; omega
  have pad : sub32 (hdrSz name.length) (add32 cpioHeaderSize name.length) =
      recordSize name - (cpioHeaderSize + name.length) := by
    rw [hdrSzEq short,add32Eq small,sub32Eq (by omega)]
  have length := printHeaderLength (h := header e.nextIno)
  unfold emitRecord
  simp only [pad,Emit.mk.injEq,true_and]
  refine ⟨?_,by omega,by omega⟩
  rw [storeAppend,storeOver,record,List.append_assoc]
  intro none'
  have := congrArg List.length none'
  simp only [List.length_append,List.length_replicate,List.length_nil] at this
  omega

theorem emitDirs {names : List (List UInt8)} (short : ∀ name ∈ names, name.length < 2^31) (e : Emit) :
    names.foldl (fun e name => emitRecord (dirHeader name.length) name e) e =
      ⟨store e.mem e.bp ((dirRecords e.nextIno names).flatMap record),e.bp + (names.map recordSize).sum,
        e.nextIno + UInt32.ofNat names.length,e.written + (names.map recordSize).sum⟩ := by
  induction names generalizing e with
  | nil =>
    have none' : store e.mem e.bp [] = e.mem := by
      funext a
      exact storeOutside (by simp; omega)
    simp [dirRecords,none']
  | cons name rest ih =>
    rw [List.foldl_cons,emitRecordEq (short name (by simp)),ih (fun n m => short n (by simp [m]))]
    have length := recordLength (dirHeader name.length e.nextIno,name)
    have ino : e.nextIno + UInt32.ofNat (rest.length + 1) = e.nextIno + 1 + UInt32.ofNat rest.length := by
      rw [UInt32.ofNat_add,UInt32.add_assoc,UInt32.add_comm 1]
      rfl
    simp only [dirRecords,List.flatMap_cons,List.map_cons,List.sum_cons,List.length_cons,ino,← storeAppend,length,
      Nat.add_assoc]

theorem dirBytes (names : List (List UInt8)) (bytes : Nat) :
    names.foldl (fun bytes name => add32 bytes (recordSize name)) (bytes % 2^32) =
      (bytes + (names.map recordSize).sum) % 2^32 := by
  induction names generalizing bytes with
  | nil => simp
  | cons name rest ih =>
    have step : add32 (bytes % 2^32) (recordSize name) = (bytes + recordSize name) % 2^32 := by
      rw [add32,Nat.mod_add_mod]
    rw [List.foldl_cons,step,ih,List.map_cons,List.sum_cons,Nat.add_assoc]

theorem initramfsMkdirsEq (short : filename.length < 2^31) (buflen : Nat) (e : Emit) :
    initramfsMkdirs filename buflen e =
      (dirSize filename % 2^32,
        if dirSize filename % 2^32 ≤ buflen then
          (dirPrefixes filename).foldl (fun e name => emitRecord (dirHeader name.length) name e) e
        else e) := by
  have bytes : eachDir filename (fun bytes len => add32 bytes (hdrSz len)) 0 0 =
      dirSize filename % 2^32 := by
    have same : eachDir filename (fun bytes len => add32 bytes (hdrSz len)) 0 0 =
        eachDir filename (fun bytes len => add32 bytes (recordSize (filename.take len))) 0 0 := by
      refine eachDirCongr ?_
      intro s len inside
      have size : (filename.take len).length = len := List.length_take_of_le (Nat.le_of_lt inside)
      have rounded := hdrSzEq (show (filename.take len).length < 2^31 by omega)
      rw [← rounded,size]
    rw [same,eachDirEq (fun bytes name => add32 bytes (recordSize name))]
    have sum := dirBytes (dirPrefixes filename) 0
    rwa [Nat.zero_add] at sum
  have emitted : eachDir filename (fun e len => emitRecord (dirHeader len) (filename.take len) e) e 0 =
      (dirPrefixes filename).foldl (fun e name => emitRecord (dirHeader name.length) name e) e := by
    rw [← eachDirEq (fun e name => emitRecord (dirHeader name.length) name e)]
    refine eachDirCongr ?_
    intro s len inside
    rw [List.length_take_of_le (Nat.le_of_lt inside)]
  unfold initramfsMkdirs
  simp only [bytes,emitted]
  split <;> rfl

theorem hexValueDigit {d : Nat} (small : d < 16) : hexValue (hexDigit d) = some d := by
  have all : ∀ d : Fin 16, hexValue (hexDigit d) = some d.val := by decide
  exact all ⟨d,small⟩

theorem readHexDigits (n : Nat) : ∀ {v : Nat}, v < 16^n → readHex (hexDigits n v) = some v := by
  induction n with
  | zero =>
    intro v small
    rw [Nat.pow_zero] at small
    rw [show v = 0 by omega]
    rfl
  | succ n ih =>
    intro v small
    rw [Nat.pow_succ] at small
    have high := ih (v := v / 16) (by omega)
    unfold readHex at high ⊢
    rw [hexDigits,List.foldlM_append,high]
    simp only [Option.bind_eq_bind,Option.bind_some,List.foldlM_cons,List.foldlM_nil,
      hexValueDigit (Nat.mod_lt v (by omega)),Option.map_some,Option.pure_def,Option.some.injEq]
    omega

theorem readFieldsPrinted {values : List Nat} (small : ∀ v ∈ values, v < 2^32) (tail : List UInt8) :
    readFields values.length (values.flatMap (hexDigits 8) ++ tail) = some values := by
  induction values with
  | nil => rfl
  | cons v rest ih =>
    have length := hexDigitsLength 8 v
    have first := readHexDigits 8 (small v (by simp))
    rw [List.flatMap_cons,List.append_assoc,List.length_cons,readFields,List.take_left' length,
      List.drop_left' length,first,ih (fun w m => small w (by simp [m]))]
    rfl

theorem readHeaderPrinted (small : ∀ v ∈ h.fields, v < 2^32) (tail : List UInt8) :
    readHeader (printHeader h ++ tail) = some h := by
  have long : ¬ (printHeader h ++ tail).length < cpioHeaderSize := by
    rw [List.length_append,printHeaderLength]
    omega
  have parts : printHeader h ++ tail = cpioMagic ++ (h.fields.flatMap (hexDigits 8) ++ tail) := by
    rw [printHeader,List.append_assoc]
  have fields := readFieldsPrinted small tail
  unfold readHeader
  rw [parts] at long ⊢
  have magic : (cpioMagic ++ (h.fields.flatMap (hexDigits 8) ++ tail)).take 6 = cpioMagic := List.take_left' rfl
  have rest : (cpioMagic ++ (h.fields.flatMap (hexDigits 8) ++ tail)).drop 6 = h.fields.flatMap (hexDigits 8) ++ tail :=
    List.drop_left' rfl
  rw [if_neg (by simp only [not_or,not_not]; exact ⟨long,magic⟩),rest]
  rw [show 13 = h.fields.length from rfl,fields]
  rfl

theorem decodeStep {bytes : List UInt8} {fuel offset : Nat} (header : readHeader bytes = some h) (size : h.namesize ≠ 0)
    (long : roundUp (cpioHeaderSize + h.namesize) 4 ≤ bytes.length)
    (nul : bytes[cpioHeaderSize + ((bytes.drop cpioHeaderSize).take (h.namesize - 1)).length]? = some 0) :
    decodeFrom (fuel + 1) offset bytes =
      (decodeFrom fuel (offset + (roundUp (cpioHeaderSize + h.namesize) 4 + roundUp h.filesize 4))
        (bytes.drop (roundUp (cpioHeaderSize + h.namesize) 4 + roundUp h.filesize 4))).map
          (fun rest => ⟨offset,h,(bytes.drop cpioHeaderSize).take (h.namesize - 1)⟩::rest) := by
  have some' : bytes ≠ [] := by
    rintro rfl
    simp [readHeader,cpioHeaderSize] at header
  rw [decodeFrom.eq_3 offset bytes fuel some',header]
  simp only [Option.bind_eq_bind,Option.bind_some]
  rw [if_neg (by simp only [not_or,not_not]; exact ⟨size,Nat.not_lt.mpr long,nul⟩)]
  cases decodeFrom fuel (offset + (roundUp (cpioHeaderSize + h.namesize) 4 + roundUp h.filesize 4))
    (bytes.drop (roundUp (cpioHeaderSize + h.namesize) 4 + roundUp h.filesize 4)) <;> rfl

/- A record that is read stands at the offset, and what follows its body is read next. -/
theorem decodeRecord (small : ∀ v ∈ h.fields, v < 2^32) (size : h.namesize = name.length + 1) (fuel offset : Nat)
    (tail : List UInt8) : decodeFrom (fuel + 1) offset (record (h,name) ++ tail) =
      (decodeFrom fuel (offset + (recordSize name + roundUp h.filesize 4)) (tail.drop (roundUp h.filesize 4))).map
        (fun rest => ⟨offset,h,name⟩::rest) := by
  have bounds := recordSizeBounds name
  have length := recordLength (h,name)
  have header : record (h,name) ++ tail = printHeader h ++ (name ++
      (List.replicate (recordSize name - (cpioHeaderSize + name.length)) 0 ++ tail)) := by
    simp only [record,List.append_assoc]
  have first := readHeaderPrinted small (name ++
    (List.replicate (recordSize name - (cpioHeaderSize + name.length)) 0 ++ tail))
  have behind : (record (h,name) ++ tail).drop cpioHeaderSize = name ++
      (List.replicate (recordSize name - (cpioHeaderSize + name.length)) 0 ++ tail) := by
    rw [header,List.drop_left' printHeaderLength]
  have whole : roundUp (cpioHeaderSize + h.namesize) 4 = recordSize name := by
    rw [size,← Nat.add_assoc]
    rfl
  have text : ((record (h,name) ++ tail).drop cpioHeaderSize).take (h.namesize - 1) = name := by
    rw [behind,size,Nat.add_sub_cancel,List.take_left' rfl]
  have nul : (record (h,name) ++ tail)[cpioHeaderSize + name.length]? = some 0 := by
    rw [← List.getElem?_drop,behind,List.getElem?_append_right (Nat.le_refl _),Nat.sub_self,
      List.getElem?_append_left (by rw [List.length_replicate]; omega),List.getElem?_replicate,if_pos (by omega)]
  have next : (record (h,name) ++ tail).drop (recordSize name + roundUp h.filesize 4) =
      tail.drop (roundUp h.filesize 4) := by
    rw [← List.drop_drop,List.drop_left' length]
  rw [← header] at first
  have long : roundUp (cpioHeaderSize + h.namesize) 4 ≤ (record (h,name) ++ tail).length := by
    rw [whole,List.length_append,length]
    exact Nat.le_add_right _ _
  rw [decodeStep first (by omega) (by omega) (by rwa [text]),text,whole,next]

/- The entries of records that follow one another without bodies between them. -/
def placeFrom : Nat → List (Header × List UInt8) → List Entry
  | _,[] => []
  | offset,(h,name)::rest => ⟨offset,h,name⟩::placeFrom (offset + recordSize name) rest

theorem placeFromContent (offset : Nat) (records : List (Header × List UInt8)) :
    (placeFrom offset records).map (fun e => (e.header,e.name)) = records := by
  induction records generalizing offset with
  | nil => rfl
  | cons r rest ih => simp [placeFrom,ih]

theorem placeFromAligned {offset : Nat} (aligned : 4 ∣ offset) (records : List (Header × List UInt8)) :
    ∀ e ∈ placeFrom offset records, 4 ∣ e.offset := by
  induction records generalizing offset with
  | nil => simp [placeFrom]
  | cons r rest ih =>
    intro e m
    rw [placeFrom] at m
    rcases List.mem_cons.mp m with rfl | m
    · exact aligned
    · exact ih (Nat.dvd_add aligned (recordSizeBounds r.2).2.2) e m

theorem placeFromAppend {offset : Nat} {r : Header × List UInt8} {records : List (Header × List UInt8)} :
    placeFrom offset (records ++ [r]) =
      placeFrom offset records ++ [⟨offset + (records.map (fun r => recordSize r.2)).sum,r.1,r.2⟩] := by
  induction records generalizing offset with
  | nil => simp [placeFrom]
  | cons q rest ih => simp [placeFrom,ih,Nat.add_assoc]

theorem dirRecordsNames (ino : UInt32) (names : List (List UInt8)) : (dirRecords ino names).map Prod.snd = names := by
  induction names generalizing ino with
  | nil => rfl
  | cons name rest ih => simp [dirRecords,ih]

theorem dirHeaderSmall (short : name.length < 2^31) (ino : UInt32) : ∀ v ∈ (dirHeader name.length ino).fields, v < 2^32 := by
  intro v m
  have := ino.toNat_lt
  simp only [Header.fields,dirHeader,sIfdir0755,List.mem_cons,List.not_mem_nil,or_false] at m
  omega

theorem fileHeaderSmall (short : name.length < 2^31) (mode : UInt16) (len major minor ino : UInt32) :
    ∀ v ∈ (fileHeader mode len major minor name.length ino).fields, v < 2^32 := by
  intro v m
  have := ino.toNat_lt
  have := mode.toNat_lt
  have := len.toNat_lt
  have := major.toNat_lt
  have := minor.toNat_lt
  simp only [Header.fields,fileHeader,List.mem_cons,List.not_mem_nil,or_false] at m
  omega

theorem decodeDirs {names : List (List UInt8)} (short : ∀ name ∈ names, name.length < 2^31) (fuel : Nat)
    (tail : List UInt8) : ∀ (ino : UInt32) (offset : Nat),
    decodeFrom (names.length + fuel) offset ((dirRecords ino names).flatMap record ++ tail) =
      (decodeFrom fuel (offset + (names.map recordSize).sum) tail).map
        (fun rest => placeFrom offset (dirRecords ino names) ++ rest) := by
  induction names with
  | nil =>
    intro ino offset
    simp [dirRecords,placeFrom]
  | cons name rest ih =>
    intro ino offset
    have here : name.length < 2^31 := short name (by simp)
    have empty : roundUp (dirHeader name.length ino).filesize 4 = 0 := by simp [dirHeader,roundUp]
    rw [dirRecords,List.flatMap_cons,List.append_assoc,List.length_cons,Nat.add_right_comm,
      decodeRecord (dirHeaderSmall here ino) rfl,empty,List.drop_zero,Nat.add_zero,
      ih (fun n m => short n (by simp [m])),Option.map_map,List.map_cons,List.sum_cons,Nat.add_assoc]
    rfl

theorem recordsLength (records : List (Header × List UInt8)) :
    (records.flatMap record).length = ((records.map Prod.snd).map recordSize).sum := by
  simp [List.length_flatMap,recordLength,Function.comp_def]

theorem archiveLength (filename : List UInt8) (nextIno : UInt32) (mode : UInt16) (len major minor : UInt32) :
    ((archive filename nextIno mode len major minor).flatMap record).length = archiveSize filename := by
  rw [recordsLength,archive,List.map_append,dirRecordsNames,List.map_append,List.sum_append]
  simp [archiveSize,dirSize]

theorem dirPrefixesShort (short : filename.length < 2^31) : ∀ name ∈ dirPrefixes filename, name.length < 2^31 :=
  fun _ m => Nat.lt_of_le_of_lt (dirPrefixLength m) short

theorem dirCount (filename : List UInt8) : (dirPrefixes filename).length ≤ dirSize filename := by
  have each := List.length_le_sum_of_one_le ((dirPrefixes filename).map recordSize) (by
    intro n m
    obtain ⟨name,_,rfl⟩ := List.mem_map.mp m
    have := (recordSizeBounds name).1
    omega)
  rwa [List.length_map] at each

theorem decodeArchive (short : filename.length < 2^31) (nextIno : UInt32) (mode : UInt16) (len major minor : UInt32) :
    decode ((archive filename nextIno mode len major minor).flatMap record) =
      some (placeFrom 0 (archive filename nextIno mode len major minor)) := by
  have enough : (dirPrefixes filename).length + 1 ≤ archiveSize filename := by
    have := dirCount filename
    have := (recordSizeBounds filename).1
    unfold archiveSize
    omega
  obtain ⟨fuel,size⟩ := Nat.exists_eq_add_of_le enough
  have length := archiveLength filename nextIno mode len major minor
  unfold decode
  rw [length,size,archive,List.flatMap_append,Nat.add_assoc,decodeDirs (dirPrefixesShort short),List.flatMap_singleton,
    ← List.append_nil (record _),Nat.add_comm 1,decodeRecord (fileHeaderSmall short _ _ _ _ _) rfl,List.drop_nil,
    decodeFrom,Option.map_some,Option.map_some,placeFromAppend]
  congr 4
  rw [← dirRecordsNames nextIno (dirPrefixes filename),List.map_map,dirRecordsNames]
  rfl

theorem mkdirsWritten (short : filename.length < 2^31) (buflen : Nat) (e : Emit) :
    (initramfsMkdirs filename buflen e).2.written =
      e.written + if dirSize filename % 2^32 ≤ buflen then dirSize filename else 0 := by
  rw [initramfsMkdirsEq short]
  dsimp only
  split
  · rw [emitDirs (dirPrefixesShort short)]
    rfl
  · rfl

/- The pass that only sizes writes nothing, unless the size of some directories wraps to 0. -/
theorem mkdirsSizes (short : filename.length < 2^31) (fits : dirSize filename < 2^32) (e : Emit) :
    initramfsMkdirs filename 0 e = (dirSize filename,e) := by
  rw [initramfsMkdirsEq short,Nat.mod_eq_of_lt fits]
  congr 1
  split
  next zero =>
    have count := dirCount filename
    have none' : dirPrefixes filename = [] := List.eq_nil_iff_length_eq_zero.mpr (by omega)
    rw [none',List.foldl_nil]
  · rfl

theorem mkdirsWrites (short : filename.length < 2^31) {buflen : Nat} (fits : dirSize filename < 2^32)
    (room : dirSize filename ≤ buflen) (e : Emit) : initramfsMkdirs filename buflen e = (dirSize filename,
      ⟨store e.mem e.bp ((dirRecords e.nextIno (dirPrefixes filename)).flatMap record),e.bp + dirSize filename,
        e.nextIno + UInt32.ofNat (dirPrefixes filename).length,e.written + dirSize filename⟩) := by
  rw [initramfsMkdirsEq short,Nat.mod_eq_of_lt fits,if_pos room,emitDirs (dirPrefixesShort short)]
  rfl

section
variable {mallocs : List Bool} {buffer : Nat} {mem : Nat → UInt8} {nextIno : UInt32} {ihead : List Chunk} {mode : UInt16}
  {len major minor : UInt32}

theorem addDataChain {chain chain' : List Chunk} {data n : Nat} {rest rest' : List Bool} (some' : n ≠ 0)
    (added : initramfsAddData rest chain data n n 4 = (0,chain',rest')) : chain' = chain ++ [⟨data,n,n,4⟩] := by
  unfold initramfsAddData at added
  rw [if_neg some',if_neg (by decide)] at added
  split at added
  · simp at added
  · simp only [Prod.mk.injEq,true_and] at added
    exact added.1.symm

theorem mknodCases (done : (initramfsMknod mallocs buffer mem nextIno ihead filename true mode len major minor).rv = 0) :
    let r := initramfsMknod mallocs buffer mem nextIno ihead filename true mode len major minor
    let first := initramfsMkdirs filename 0 ⟨mem,0,nextIno,0⟩
    let bytes := add32 first.1 (hdrSz filename.length)
    let second := initramfsMkdirs filename bytes { first.2 with bp := buffer }
    let e := emitRecord (fileHeader mode len major minor filename.length) filename
      { second.2 with bp := buffer + second.1 }
    (∃ rest rest', initramfsAddData rest ihead buffer bytes bytes 4 = (0,r.chain,rest')) ∧
      r.mem = e.mem ∧ r.allocated = bytes ∧ r.written = e.written := by
  unfold initramfsMknod at done ⊢
  simp only [if_true] at done ⊢
  rcases taken : malloc mallocs with ⟨_ | _,rest⟩
  · simp [taken] at done
  simp only [taken] at done ⊢
  split at done
  · simp at done
  next zero =>
  rw [if_neg zero]
  exact ⟨⟨rest,_,Prod.ext (not_not.mp zero) (Prod.ext rfl rfl)⟩,rfl,rfl,rfl⟩

theorem mknodOk (short : filename.length < 2^31) (fits : archiveSize filename < 2^32)
    (done : (initramfsMknod mallocs buffer mem nextIno ihead filename true mode len major minor).rv = 0) :
    let r := initramfsMknod mallocs buffer mem nextIno ihead filename true mode len major minor
    r.chain = ihead ++ [⟨buffer,r.allocated,r.allocated,4⟩] ∧
    r.mem = store mem buffer ((archive filename nextIno mode len major minor).flatMap record) ∧
    r.allocated = archiveSize filename ∧ r.written = archiveSize filename := by
  obtain ⟨⟨rest,rest',added⟩,mem',allocated,written⟩ := mknodCases done
  intro r
  have dirs : dirSize filename < 2^32 := by unfold archiveSize at fits; omega
  have bytes : add32 (dirSize filename) (hdrSz filename.length) = archiveSize filename := by
    rw [hdrSzEq short]
    exact add32Eq fits
  have room : dirSize filename ≤ archiveSize filename := Nat.le_add_right _ _
  rw [mkdirsSizes short dirs] at added allocated mem' written
  simp only [bytes,mkdirsWrites short dirs room,emitRecordEq short,Nat.zero_add] at added allocated mem' written
  have some' : archiveSize filename ≠ 0 := by
    have := (recordSizeBounds filename).1
    unfold archiveSize
    omega
  refine ⟨?_,?_,allocated,written⟩
  · rw [allocated]
    exact addDataChain some' added
  · have length : ((dirRecords nextIno (dirPrefixes filename)).flatMap record).length = dirSize filename := by
      rw [recordsLength,dirRecordsNames]
      rfl
    rw [mem',archive,List.flatMap_append,← storeAppend,length,List.flatMap_singleton]

theorem mknodSizes (short : filename.length < 2^31)
    (done : (initramfsMknod mallocs buffer mem nextIno ihead filename true mode len major minor).rv = 0) :
    let r := initramfsMknod mallocs buffer mem nextIno ihead filename true mode len major minor
    r.allocated = archiveSize filename % 2^32 ∧
    r.written = (if dirSize filename % 2^32 ≤ 0 then dirSize filename else 0) +
      (if dirSize filename % 2^32 ≤ archiveSize filename % 2^32 then dirSize filename else 0) + recordSize filename := by
  obtain ⟨_,_,allocated,written⟩ := mknodCases done
  intro r
  have bytes : add32 (dirSize filename % 2^32) (hdrSz filename.length) = archiveSize filename % 2^32 := by
    rw [hdrSzEq short,add32,Nat.mod_add_mod]
    rfl
  have first : (initramfsMkdirs filename 0 ⟨mem,0,nextIno,0⟩).1 = dirSize filename % 2^32 := by
    rw [initramfsMkdirsEq short]
  simp only [first,bytes] at allocated written
  refine ⟨allocated,?_⟩
  rw [written,emitRecordEq short]
  dsimp only
  rw [mkdirsWritten short,mkdirsWritten short,Nat.zero_add]

theorem mknodOverflows (short : filename.length < 2^31) (large : 2^32 ≤ archiveSize filename)
    (done : (initramfsMknod mallocs buffer mem nextIno ihead filename true mode len major minor).rv = 0) :
    (initramfsMknod mallocs buffer mem nextIno ihead filename true mode len major minor).written ≠
      (initramfsMknod mallocs buffer mem nextIno ihead filename true mode len major minor).allocated := by
  obtain ⟨allocated,written⟩ := mknodSizes short done
  have small : recordSize filename < 2^32 := by
    have := (recordSizeBounds filename).2.1
    unfold cpioHeaderSize at this
    omega
  rw [allocated,written]
  unfold archiveSize at large ⊢
  split <;> split <;> omega

/- The chunk that a call adds is the archive of the file, written into exactly its buffer. -/
structure Archives (r : Made) (ihead : List Chunk) (records : List (Header × List UInt8)) : Prop where
  added : ∃ data entries, r.chain = ihead ++ [⟨data,r.allocated,r.allocated,4⟩] ∧
    decode (read r.mem data r.allocated) = some entries ∧ entries.map (fun e => (e.header,e.name)) = records ∧
    ∀ e ∈ entries, 4 ∣ e.offset
  exactly : r.written = r.allocated

theorem mknodArchives (short : filename.length < 2^31)
    (done : (initramfsMknod mallocs buffer mem nextIno ihead filename true mode len major minor).rv = 0) :
    Archives (initramfsMknod mallocs buffer mem nextIno ihead filename true mode len major minor) ihead
      (archive filename nextIno mode len major minor) ↔ archiveSize filename < 2^32 := by
  constructor
  · intro archives
    by_contra large
    exact mknodOverflows short (Nat.le_of_not_lt large) done archives.exactly
  · intro fits
    obtain ⟨chain,mem',allocated,written⟩ := mknodOk short fits done
    have length := archiveLength filename nextIno mode len major minor
    refine ⟨⟨buffer,placeFrom 0 (archive filename nextIno mode len major minor),chain,?_,placeFromContent 0 _,
      placeFromAligned (Nat.dvd_zero 4) _⟩,written.trans allocated.symm⟩
    rw [allocated,mem',← length,readInside (Nat.le_refl _),List.take_length]
    exact decodeArchive short nextIno mode len major minor

theorem mknodSucceeds : (initramfsMknod [] buffer mem nextIno ihead filename true mode len major minor).rv = 0 := by
  have added : ∀ n, (initramfsAddData [] ihead buffer n n 4).1 = 0 := by
    intro n
    unfold initramfsAddData
    split
    · rfl
    · rw [if_neg (by decide)]
      rfl
  unfold initramfsMknod
  simp [malloc,added]

end

/- "a//b/c", with the directories a and a//b. -/
theorem mknodArchivesSlashes :
    Archives (initramfsMknod [] 0x100000 (fun _ => 0) 1 [] [0x61,0x2f,0x2f,0x62,0x2f,0x63] true 0o100644 5 0 1) []
      [(dirHeader 1 1,[0x61]),(dirHeader 4 2,[0x61,0x2f,0x2f,0x62]),
        (fileHeader 0o100644 5 0 1 6 3,[0x61,0x2f,0x2f,0x62,0x2f,0x63])] :=
  (mknodArchives (by decide) mknodSucceeds).mpr (by decide)

/- A name made of n directories: the sizes of its records grow with the square of n. -/
def deepName (n : Nat) : List UInt8 := (List.replicate n [0x61,slash]).flatten

theorem deepNameSucc (n : Nat) : deepName (n + 1) = deepName n ++ [0x61,slash] := by
  rw [deepName,List.replicate_succ',List.flatten_append,deepName]
  rfl

theorem deepNameLength (n : Nat) : (deepName n).length = 2*n := by
  induction n with
  | zero => rfl
  | succ n ih =>
    rw [deepNameSucc,List.length_append,ih]
    rfl

theorem dirPrefixesGrow (b : UInt8) (other : b ≠ slash) :
    dirPrefixes (filename ++ [b,slash]) = dirPrefixes filename ++ [filename ++ [b]] := by
  have same : ∀ i ∈ List.range filename.length, isDirEnd (filename ++ [b,slash]) i = isDirEnd filename i := by
    intro i m
    have inside := List.mem_range.mp m
    rw [isDirEnd,isDirEnd,List.getElem?_append_left inside,List.getElem?_append_left (by omega)]
  have first : isDirEnd (filename ++ [b,slash]) filename.length = false := by
    simp [isDirEnd,other]
  have second : isDirEnd (filename ++ [b,slash]) (filename.length + 1) = true := by
    simp [isDirEnd,other]
  have taken : ∀ i ∈ (List.range filename.length).filter (isDirEnd filename),
      (filename ++ [b,slash]).take i = filename.take i := by
    intro i m
    have inside := List.mem_range.mp (List.mem_filter.mp m).1
    rw [List.take_append_of_le_length (by omega)]
  have last : (filename ++ [b,slash]).take (filename.length + 1) = filename ++ [b] := by
    rw [List.take_length_add_append]
    rfl
  unfold dirPrefixes
  rw [List.length_append,show [b,slash].length = 2 from rfl,List.range_succ,List.range_succ,List.filter_append,
    List.filter_append,List.filter_congr same]
  simp only [List.filter_cons,first,second,List.filter_nil,List.map_append,List.map_congr_left taken]
  simp [last]

theorem deepNameSize (n : Nat) : n*n ≤ dirSize (deepName n) := by
  induction n with
  | zero => simp
  | succ n ih =>
    have here := (recordSizeBounds (deepName n ++ [0x61])).1
    rw [List.length_append,deepNameLength] at here
    unfold dirSize at ih ⊢
    rw [deepNameSucc,dirPrefixesGrow _ (by decide),List.map_append,List.sum_append]
    simp only [List.map_cons,List.map_nil,List.sum_cons,List.sum_nil,Nat.add_zero]
    rw [Nat.mul_add,Nat.add_mul,Nat.mul_one,Nat.one_mul]
    simp only [List.length_cons,List.length_nil] at here
    omega

theorem deepNameOverflows {n : Nat} (short : 2*n < 2^31) (large : 2^32 ≤ n*n) {buffer : Nat} {mem : Nat → UInt8}
    {nextIno : UInt32} {ihead : List Chunk} {mode : UInt16} {len major minor : UInt32} :
    ¬ Archives (initramfsMknod [] buffer mem nextIno ihead (deepName n) true mode len major minor) ihead
      (archive (deepName n) nextIno mode len major minor) := by
  intro archives
  have size := deepNameSize n
  refine mknodOverflows (by rwa [deepNameLength]) ?_ mknodSucceeds archives.exactly
  unfold archiveSize
  omega

/- 65536 directories take over 4 GB of records, and the buffer for them has 7 MB. -/
theorem mknodDeep : (deepName 65536).length < 2^31 ∧
    (initramfsMknod [] 0x100000 (fun _ => 0) 1 [] (deepName 65536) true 0o100644 0 0 1).rv = 0 ∧
    ¬ Archives (initramfsMknod [] 0x100000 (fun _ => 0) 1 [] (deepName 65536) true 0o100644 0 0 1) []
      (archive (deepName 65536) 1 0o100644 0 0 1) :=
  ⟨(deepNameLength 65536).symm ▸ (by decide),mknodSucceeds,deepNameOverflows (by decide) (by decide)⟩

end
end Syslinux.Cpio
