import Syslinux.Ntfs
import Syslinux.Searchdir

/-! ntfs_index_lookup of core/fs/ntfs/ntfs.c: the search for a name in the index of a directory,
and index_inode_setup. The records that ntfs_attr_lookup is called with are one and the same, so
that it is __ntfs_attr_lookup. -/
namespace Syslinux.Ntfs
open Fat (le16 le32 le64)
open Searchdir (Bytes)

/- char and uint16_t are compared as int. -/
def charInt (c : UInt8) : Int := if c.toNat < 128 then c.toNat else c.toNat - 256

def tolower (c : Int) : Int := if 65 ≤ c ∧ c ≤ 90 then c + 32 else c

/- The fields of struct ntfs_idx_entry, with the key of a directory. -/
def indexedFile (mem : Nat → UInt8) (ie : Nat) : Nat := le64 mem ie
def idxEntryLen (mem : Nat → UInt8) (ie : Nat) : Nat := le16 mem (ie + 8)
def idxEntryNode (mem : Nat → UInt8) (ie : Nat) : Bool := (le16 mem (ie + 12)).testBit 0
def idxEntryEnd (mem : Nat → UInt8) (ie : Nat) : Bool := (le16 mem (ie + 12)).testBit 1
def fileNameLen (mem : Nat → UInt8) (ie : Nat) : Nat := (mem (ie + 80)).toNat
def fileNamePosix (mem : Nat → UInt8) (ie : Nat) : Bool := mem (ie + 81) = 0
def fileName (mem : Nat → UInt8) (ie i : Nat) : Nat := le16 mem (ie + 82 + 2*i)

def idxEntryHeaderSize : Nat := 16

def ntfsFilenameCmp (mem : Nat → UInt8) (dname : Bytes) (ie : Nat) : Bool :=
  if dname.length ≠ fileNameLen mem ie then false
  else if fileNamePosix mem ie then
    (List.range (fileNameLen mem ie)).all fun i => (fileName mem ie i : Int) = charInt (dname.getD i 0)
  else (List.range (fileNameLen mem ie)).all fun i => tolower (fileName mem ie i) = tolower (charInt (dname.getD i 0))

inductive DirentType where
  | dir | reg
  deriving DecidableEq, Repr

inductive InodeData where
  | none'
  | resident (offset : Nat)
  | nonResident (rlist : List RunlistElement)
  deriving DecidableEq, Repr

/- The fields of struct inode and of struct ntfs_inode that are set. -/
structure NtfsInode where
  mode : DirentType
  size : Nat
  mftNo : Nat
  seqNo : Nat
  startCluster : Nat
  here : Nat
  type : Nat
  data : InodeData
  deriving DecidableEq, Repr

def indexInodeSetup (vol : Volume) (lookup : Nat → Option (Option Record)) (mftNo turns : Nat) : Option (Option NtfsInode) :=
  match lookup mftNo with
  | none => none
  | some none => some none
  | some (some mrec) =>
      let startBlk := mftNo*vol.mftRecordSize % 2^32 / vol.blockSize
      let inode : NtfsInode := ⟨.dir,0,mftNo,le16 mrec.mem (mrec.addr + 16),
        startBlk / 2^(vol.clustByteShift - vol.sectorShift) % 2^32,startBlk,0,.none'⟩
      if isDirectory mrec then
        match ntfsAttrLookup vol lookup atIndexRoot mrec turns with
        | none => none
        | some none => some none
        | some (some _) => some (some inode)
      else
        match ntfsAttrLookup vol lookup atData mrec turns with
        | none => none
        | some none => some none
        | some (some (mrec,attr)) =>
            let inode := { inode with mode := .reg, type := attrType mrec.mem attr }
            if nonResident mrec.mem attr then
              match indexRuns mrec.mem (mappingPairs mrec.mem attr) (attrNext mrec.mem attr) turns with
              | none => none
              | some none => some none
              | some (some mapped) =>
                  if mapped.rlist = [] then some none
                  else some (some { inode with size := le64 mrec.mem (attr + 56), data := .nonResident mapped.rlist })
            else some (some { inode with size := le32 mrec.mem (attr + 16), data := .resident (valueOffset mrec.mem attr) })

inductive IndexStop where
  | corrupt
  | last (ie : Nat)
  | found (ie : Nat)
  deriving DecidableEq, Repr

/- The entries of an index header, between the start of the record or block and the end of the index. -/
def walkIndex (mem : Nat → UInt8) (dname : Bytes) (low bound : Nat) : Nat → Nat → Option IndexStop
  | 0,_ => none
  | turns+1,ie =>
      if ie < low ∨ bound < add32 ie idxEntryHeaderSize ∨ bound < add32 ie (idxEntryLen mem ie) then some .corrupt
      else if idxEntryEnd mem ie then some (.last ie)
      else if ntfsFilenameCmp mem dname ie then some (.found ie)
      else walkIndex mem dname low bound turns (add32 ie (idxEntryLen mem ie))

/- The entries behind struct ntfs_idx_header. -/
def indexStart (mem : Nat → UInt8) (index : Nat) : Nat := add32 index (le32 mem index)
def indexBound (mem : Nat → UInt8) (index : Nat) : Nat := add32 index (le32 mem (index + 4))

/- Whether the search in the index allocation goes on, gives up or comes to the record of a file. -/
inductive Search where
  | more
  | failed
  | found (mftNo : Nat)
  deriving DecidableEq, Repr

def indexBlock (vol : Volume) (chunk : MappingChunk) (vcn : Nat) : Nat → UInt8 :=
  ntfsFixupsWriteback vol vol.stack (readBuf vol (toInt64 (chunk.lcn + vcn)))

def indexBlocks (vol : Volume) (dname : Bytes) (chunk : MappingChunk) (turns : Nat) : Nat → Nat → Option Search
  | 0,_ => none
  | more+1,vcn =>
      if chunk.len ≤ vcn then some .more
      else
        let mem := indexBlock vol chunk vcn
        if le32 mem vol.stack ≠ magicIndx then some .failed
        else
          match walkIndex mem dname vol.stack (indexBound mem (vol.stack + 24)) turns (indexStart mem (vol.stack + 24)) with
          | none => none
          | some .corrupt => some .failed
          | some (.found ie) => some (.found (indexedFile mem ie % 2^32))
          | some (.last _) => indexBlocks vol dname chunk turns more ((vcn + vol.blockSize / vol.clustSize) % 2^64)

/- The runs of $INDEX_ALLOCATION. -/
def allocationRuns (vol : Volume) (dname : Bytes) (mem : Nat → UInt8) (stream attrLen turns : Nat) :
    Nat → Nat → MappingChunk → Option Search
  | 0,_,_ => none
  | more+1,offset,chunk =>
      match parseDataRun mem stream offset attrLen chunk with
      | none => some .failed
      | some (offset,chunk) =>
          if chunk.mapUnallocated then allocationRuns vol dname mem stream attrLen turns more offset chunk
          else if chunk.mapEnd then some .failed
          else
            match indexBlocks vol dname chunk turns turns 0 with
            | none => none
            | some .more => allocationRuns vol dname mem stream attrLen turns more offset chunk
            | some search => some search

def indexChildren (vol : Volume) (lookup : Nat → Option (Option Record)) (dname : Bytes) (mrec : Record) (turns : Nat) :
    Option (Option NtfsInode) :=
  match ntfsAttrLookup vol lookup atIndexAllocation mrec turns with
  | none => none
  | some none => some none
  | some (some (mrec,attr)) =>
      if nonResident mrec.mem attr then
        match allocationRuns vol dname mrec.mem (mappingPairs mrec.mem attr) (attrNext mrec.mem attr) turns turns 0
            mappingChunkInit with
        | none => none
        | some (.found mftNo) => indexInodeSetup vol lookup mftNo turns
        | some _ => some none
      else some none

def ntfsIndexLookup (vol : Volume) (lookup : Nat → Option (Option Record)) (dname : Bytes) (mftNo turns : Nat) :
    Option (Option NtfsInode) :=
  match lookup mftNo with
  | none => none
  | some none => some none
  | some (some mrec) =>
      match ntfsAttrLookup vol lookup atIndexRoot mrec turns with
      | none => none
      | some none => some none
      | some (some (root,attr)) =>
          let index := valueOffset root.mem attr + 16
          match walkIndex root.mem dname mrec.addr (indexBound root.mem index) turns (indexStart root.mem index) with
          | none => none
          | some .corrupt => some none
          | some (.found ie) => indexInodeSetup vol lookup (indexedFile root.mem ie % 2^32) turns
          | some (.last ie) => if idxEntryNode root.mem ie then indexChildren vol lookup dname mrec turns else some none

end Syslinux.Ntfs
