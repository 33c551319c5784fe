import Syslinux.Fat
import Syslinux.NtfsRuns

/-! The reading of MFT records and the attribute lookup of core/fs/ntfs/ntfs.c. Memory is
addressed absolutely, by 32 bits: a record is read into a buffer of its own, in front of and
behind which there is other memory. get_cache has each block, of at most
32 KB (cache_block_size is a uint16_t), as it lies on the disk. -/
namespace Syslinux.Ntfs
open Fat (le16 le32 le64)

/- The fields of struct ntfs_bpb that ntfs_fs_init looks at. -/
structure Bpb where
  secPerClust : Nat
  clustPerMftRecord : Int
  clustPerIdxRecord : Nat
  mftLclust : Nat

/- struct ntfs_sb_info and the block shift, the blocks of the cache, each with what follows
it in memory, and where the buffers are: those of the records, by number, and the one on
the stack. -/
structure Volume where
  sectorShift : Nat
  clustByteShift : Nat
  blockShift : Nat
  mftRecordShift : Nat
  mftLcn : Nat
  v31 : Bool
  block : Nat → Nat → UInt8
  memory : Nat → UInt8
  heap : Nat → Nat
  stack : Nat

def ntfsFsInit (sectorShift : Nat) (bpb : Bpb) (block : Nat → Nat → UInt8) (memory : Nat → UInt8) (heap : Nat → Nat)
    (stack : Nat) : Volume :=
  let clustByteShift := Nat.log2 bpb.secPerClust + sectorShift
  let mftRecordShift :=
    if bpb.clustPerMftRecord < 0 then bpb.clustPerMftRecord.natAbs
    else Nat.log2 bpb.secPerClust + sectorShift + Nat.log2 bpb.clustPerMftRecord.natAbs
  ⟨sectorShift,clustByteShift,Nat.log2 bpb.clustPerIdxRecord + clustByteShift,mftRecordShift,bpb.mftLclust,false,
    block,memory,heap,stack⟩

def Volume.sectorSize (vol : Volume) : Nat := 2^vol.sectorShift
def Volume.clustSize (vol : Volume) : Nat := 2^vol.clustByteShift
def Volume.blockSize (vol : Volume) : Nat := 2^vol.blockShift
def Volume.mftRecordSize (vol : Volume) : Nat := 2^vol.mftRecordShift

section
variable {α : Type}

def memcpy (buf : Nat → α) (k : Nat) (data : Nat → α) (n i : Nat) : α :=
  if k ≤ i ∧ i < k + n then data (i - k) else buf i

/- The loop of ntfs_read: while (bytes) { ... } -/
def copyBlocks (blkSize : Nat) (content : Nat → Nat → α) : Nat → (Nat → α) → Nat → Nat → Nat → Nat → Nat → Nat → α
  | 0,buf,_,_,_,_,_ => buf
  | turns+1,buf,k,blk,offset,lbytes,bytes =>
      if bytes = 0 then buf
      else
        let buf := memcpy buf k (fun i => content blk (offset + i)) lbytes
        let bytes := bytes - lbytes
        -- In the next block all that is left is copied, however large the block is.
        if blkSize ≤ offset + lbytes then copyBlocks blkSize content turns buf (k + lbytes) (blk + 1) 0 bytes bytes
        else copyBlocks blkSize content turns buf (k + lbytes) blk (offset + lbytes) lbytes bytes

/- The content of the blocks may be anything, so that it can be told where a byte is from. -/
def ntfsRead (vol : Volume) (content : Nat → Nat → α) (buf : Nat → α) (count blk offset lcn : Nat) : Nat → α :=
  let offset := if offset = 0 then lcn*vol.clustSize % 2^64 % vol.blockSize else offset
  let lbytes := vol.blockSize - offset
  if count ≤ lbytes then memcpy buf 0 (fun i => content blk (offset + i)) count
  else copyBlocks vol.blockSize content count buf 0 blk offset lbytes count

/- Where ntfs_mft_record_lookup_any reads, given the LCN. -/
def mftRecordRead (vol : Volume) (content : Nat → Nat → α) (buf : Nat → α) (file lcn : Nat) : Nat → α :=
  let blk := lcn*vol.clustSize % 2^64 / vol.blockSize
  let offset := file*vol.mftRecordSize % 2^32 % vol.blockSize
  ntfsRead vol content buf vol.mftRecordSize blk offset lcn

end

def magicFile : Nat := 0x454c4946
def magicIndx : Nat := 0x58444e49

/- *blk = *usa, 16 bits. -/
def move16 (mem : Nat → UInt8) (blk usa a : Nat) : UInt8 :=
  if a = blk then mem usa else if a = blk + 1 then mem (usa + 1) else mem a

def writebackLoop (sectorSize usaNo : Nat) : Nat → (Nat → UInt8) → Nat → Nat → Nat → UInt8
  | 0,mem,_,_ => mem
  | usaCount+1,mem,usa,blk =>
      if le16 mem blk ≠ usaNo then mem
      else writebackLoop sectorSize usaNo usaCount (move16 mem blk usa) (usa + 2) (blk + sectorSize)

def ntfsFixupsWriteback (vol : Volume) (nrec : Nat) (mem : Nat → UInt8) : Nat → UInt8 :=
  if le32 mem nrec ≠ magicFile ∧ le32 mem nrec ≠ magicIndx then mem
  else
    let usa := nrec + le16 mem (nrec + 4)
    writebackLoop vol.sectorSize (le16 mem usa) ((le16 mem (nrec + 6) + 0xffff) % 0x10000) mem (usa + 2)
      (nrec + vol.sectorSize - 2)

/- A record in memory: its address, and the memory as it is seen from there. -/
structure Record where
  addr : Nat
  mem : Nat → UInt8

def placeBuffer (memory : Nat → UInt8) (addr : Nat) (buf : Nat → UInt8) (a : Nat) : UInt8 :=
  if a < addr then memory a else buf (a - addr)

def checkRecord (vol : Volume) (file : Nat) (buf : Nat → UInt8) : Option Record :=
  let addr := vol.heap file
  let mem := ntfsFixupsWriteback vol addr (placeBuffer vol.memory addr buf)
  if le32 mem addr ≠ magicFile then none
  else if vol.v31 ∧ le32 mem (addr + 44) ≠ file then none
  else some ⟨addr,mem⟩

def loadRecord (vol : Volume) (file lcn : Nat) : Option Record :=
  checkRecord vol file (mftRecordRead vol vol.block (fun i => vol.memory (vol.heap file + i)) file lcn)

def atAttrList : Nat := 0x20
def atData : Nat := 0x80
def atIndexRoot : Nat := 0x90
def atIndexAllocation : Nat := 0xa0
def atEnd : Nat := 0xffffffff

/- The fields of struct ntfs_attr_record. -/
def attrType (mem : Nat → UInt8) (attr : Nat) : Nat := le32 mem attr
def attrNext (mem : Nat → UInt8) (attr : Nat) : Nat := add32 attr (le32 mem (attr + 4))
def nonResident (mem : Nat → UInt8) (attr : Nat) : Bool := mem (attr + 8) ≠ 0
def valueOffset (mem : Nat → UInt8) (attr : Nat) : Nat := add32 attr (le16 mem (attr + 20))
def mappingPairs (mem : Nat → UInt8) (attr : Nat) : Nat := attr + le16 mem (attr + 32)

/- The walk through the attributes: where it stops, and the $ATTRIBUTE_LIST seen last. -/
def walkAttrs (mem : Nat → UInt8) (type : Nat) : Nat → Nat → Option Nat → Option (Nat × Option Nat)
  | 0,_,_ => none
  | turns+1,attr,list =>
      if attrType mem attr = atEnd then some (attr,list)
      else if attrType mem attr = atAttrList then walkAttrs mem type turns (attrNext mem attr) (some attr)
      else if attrType mem attr = type then some (attr,list)
      else walkAttrs mem type turns (attrNext mem attr) list

/- The walk through the entries of an $ATTRIBUTE_LIST. -/
def walkEntries (mem : Nat → UInt8) (type bound : Nat) : Nat → Nat → Option (Option Nat)
  | 0,_ => none
  | turns+1,entry =>
      if bound ≤ entry then some none
      else if le32 mem entry = type then some (some entry)
      else walkEntries mem type bound turns (add32 entry (le16 mem (entry + 4)))

/- One block of a non-resident attribute or index, read into the buffer on the stack; lcn is
an int64_t. -/
def readBuf (vol : Volume) (lcn : Int) : Nat → UInt8 :=
  let blk := (toInt64 (lcn*vol.clustSize) / vol.blockSize % 2^64).toNat
  placeBuffer vol.memory vol.stack
    (ntfsRead vol vol.block (fun i => vol.memory (vol.stack + i)) vol.blockSize blk 0 (lcn % 2^64).toNat)

/- The blocks of a run: none where the turns run out, else the entry and the memory it is in. -/
def listBlocks (vol : Volume) (type len : Nat) (chunk : MappingChunk) (turns : Nat) :
    Nat → Nat → Option (Option (Nat × (Nat → UInt8)))
  | 0,_ => none
  | more+1,vcn =>
      if chunk.len ≤ vcn then some none
      else
        let mem := readBuf vol (toInt64 (chunk.lcn + vcn))
        match walkEntries mem type (add32 vol.stack len) turns vol.stack with
        | none => none
        | some (some entry) => some (some (entry,mem))
        | some none => listBlocks vol type len chunk turns more ((vcn + vol.blockSize / vol.clustSize) % 2^64)

/- The runs of a non-resident $ATTRIBUTE_LIST. -/
def listRuns (vol : Volume) (mem : Nat → UInt8) (type len stream attrLen turns : Nat) :
    Nat → Nat → MappingChunk → Option (Option (Nat × (Nat → UInt8)))
  | 0,_,_ => none
  | more+1,offset,chunk =>
      match parseDataRun mem stream offset attrLen chunk with
      | none => some none
      | some (offset,chunk) =>
          if chunk.mapEnd then some none
          else if chunk.mapUnallocated then listRuns vol mem type len stream attrLen turns more offset chunk
          else
            match listBlocks vol type len chunk turns turns 0 with
            | none => none
            | some (some found) => some (some found)
            | some none => listRuns vol mem type len stream attrLen turns more offset chunk

def listEntry (vol : Volume) (mrec : Record) (attr type turns : Nat) : Option (Option (Nat × (Nat → UInt8))) :=
  if nonResident mrec.mem attr then
    listRuns vol mrec.mem type (le32 mrec.mem (attr + 48)) (mappingPairs mrec.mem attr) (attrNext mrec.mem attr)
      turns turns 0 mappingChunkInit
  else
    (walkEntries mrec.mem type (add32 attr (le32 mrec.mem (attr + 16))) turns (valueOffset mrec.mem attr)).map
      fun found => found.map fun entry => (entry,mrec.mem)

/- lookup stands for NTFS_SB(fs)->mft_record_lookup; an answer of none is one that does not
come, of some none is NULL. -/
def ntfsAttrListLookup (vol : Volume) (lookup : Nat → Option (Option Record)) (attr type : Nat) (mrec : Record)
    (turns : Nat) : Option (Option Record) :=
  match listEntry vol mrec attr type turns with
  | none => none
  | some none => some none
  | some (some (entry,mem)) =>
      if le32 mrec.mem (mrec.addr + 44) = le64 mem (entry + 16) then some (some mrec)
      else lookup (le64 mem (entry + 16) % 2^32)

def lookupAgain (vol : Volume) (lookup : Nat → Option (Option Record)) (type turns : Nat) :
    Nat → Record → Option (Option (Record × Nat))
  | 0,_ => none
  | more+1,mrec =>
      match walkAttrs mrec.mem type turns (add32 mrec.addr (le16 mrec.mem (mrec.addr + 20))) none with
      | none => none
      | some (attr,list) =>
          if attrType mrec.mem attr = atEnd then
            match list with
            | none => some none
            | some list =>
                match ntfsAttrListLookup vol lookup list type mrec turns with
                | none => none
                | some none => some none
                | some (some retval) => lookupAgain vol lookup type turns more retval
          else some (some (mrec,attr))

/- __ntfs_attr_lookup, with the record that the attribute is in. -/
def ntfsAttrLookup (vol : Volume) (lookup : Nat → Option (Option Record)) (type : Nat) (mrec : Record) (turns : Nat) :
    Option (Option (Record × Nat)) :=
  if type = atEnd then some none else lookupAgain vol lookup type turns turns mrec

def isDirectory (mrec : Record) : Bool := (le16 mrec.mem (mrec.addr + 22)).testBit 1

/- The search for a VCN in the runs of $MFT; LCN 0 stands for none. -/
def findLcn (mem : Nat → UInt8) (stream attrLen vcn : Nat) : Nat → Nat → MappingChunk → Option Nat
  | 0,_,_ => none
  | turns+1,offset,chunk =>
      match parseDataRun mem stream offset attrLen chunk with
      | none => some 0
      | some (offset,chunk) =>
          if chunk.mapUnallocated then findLcn mem stream attrLen vcn turns offset chunk
          else if chunk.mapEnd then some 0
          else if chunk.vcn ≤ vcn ∧ vcn < (chunk.vcn + chunk.len) % 2^64 then
            some (((vcn - chunk.vcn : Nat) + chunk.lcn) % 2^64).toNat
          else findLcn mem stream attrLen vcn turns offset { chunk with vcn := (chunk.vcn + chunk.len) % 2^64 }

/- file << mft_record_shift is 32 bits wide. -/
def Volume.recordVcn (vol : Volume) (file : Nat) : Nat := file*vol.mftRecordSize % 2^32 / vol.clustSize

/- The LCN of an MFT record, or 0. -/
def recordLcn (vol : Volume) (lookup : Nat → Option (Option Record)) (turns file : Nat) : Option Nat :=
  if vol.recordVcn file = 0 then some vol.mftLcn
  else
    match lookup 0 with
    | none => none
    | some none => some 0
    | some (some mrec) =>
        if isDirectory mrec then some 0
        else
          match ntfsAttrLookup vol lookup atData mrec turns with
          | none => none
          | some none => some 0
          | some (some (mrec,attr)) =>
              if nonResident mrec.mem attr then
                findLcn mrec.mem (mappingPairs mrec.mem attr) (attrNext mrec.mem attr) (vol.recordVcn file) turns 0
                  mappingChunkInit
              else some 0

def ntfsMftRecordLookupAny (vol : Volume) (turns : Nat) : Nat → Nat → Option (Option Record)
  | 0,_ => none
  | depth+1,file =>
      match recordLcn vol (ntfsMftRecordLookupAny vol turns depth) turns file with
      | none => none
      | some 0 => some none
      | some lcn => some (loadRecord vol file lcn)

end Syslinux.Ntfs
