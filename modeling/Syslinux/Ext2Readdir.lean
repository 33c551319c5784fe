import Syslinux.Ext2Dir

/-! ext2_readdir, and the listing of a directory by it next to the lookup of its names. -/
namespace Syslinux.Ext2
open Searchdir (Bytes cstr cstrPlain cstrBytes)

def inodeType : List Nat := [0,8,4,2,6,1,12,10]

/- The table has eight types; behind it `none` is what the memory holds there. -/
def ext2CvtType (dFileType : Nat) : Option Nat := if inodeType.length < dFileType then some 0 else inodeType[dFileType]?

/- struct dirent, with the bytes before the NUL that ext2_readdir sets behind the name. -/
structure Dirent where
  dIno : Nat
  dOff : Nat
  dReclen : Nat
  dType : Option Nat
  dName : Bytes
  deriving DecidableEq, Repr

def offsetofName : Nat := 12

def ext2Readdir (v : Volume) (inode : Inode) (fuel offset : Nat) : Option (Option (Dirent × Nat)) :=
  if inode.size ≤ offset then some none
  else do
    let (pblock,_) ← ext2Bmap v inode fuel (offset / 2^v.blockShift)
    let de := entryAt (v.getCache pblock) (offset % v.blockSize)
    some (some (⟨de.dInode,offset,offsetofName + de.dName.length + 1,ext2CvtType de.dFileType,de.dName⟩,
      add32 offset de.dRecLen))

def listing (v : Volume) (inode : Inode) (fuel : Nat) : Nat → Nat → Option (List Dirent)
  | 0,_ => none
  | calls+1,offset => do
      match ← ext2Readdir v inode fuel offset with
      | none => some []
      | some (dirent,offset) =>
          let rest ← listing v inode fuel calls offset
          some (dirent::rest)

def Dirent.said (d : Dirent) : Bytes × Nat := (cstr d.dName,d.dIno)
def DirEntry.said (de : DirEntry) : Bytes × Nat := (cstr de.dName,de.dInode)

def Finds (v : Volume) (inode : Inode) (dname : Bytes) (dInode : Nat) : Prop :=
  ∃ fuel de, ext2FindEntry v inode dname fuel = some (some de) ∧ de.dInode = dInode

/- The listing comes to its end, its names are those that lookup finds, and lookup finds
them with the same inode numbers. -/
def Agrees (v : Volume) (inode : Inode) : Prop :=
  ∃ fuel calls dirents, listing v inode fuel calls 0 = some dirents ∧
    (∀ dname, 0 ∉ dname → ((∃ d ∈ dirents, d.said.1 = dname) ↔ ∃ dInode, Finds v inode dname dInode)) ∧
    ∀ d ∈ dirents, Finds v inode d.said.1 d.said.2

/- No record is unused, the name of each up to a NUL is the whole name of one, and records
with the same name up to a NUL have the same inode number. -/
structure InUse (records : List DirEntry) : Prop where
  used : ∀ de ∈ records, de.dInode ≠ 0
  named : ∀ de ∈ records, ∃ de' ∈ records, de'.dName = cstr de.dName
  same : ∀ de ∈ records, ∀ de' ∈ records, cstr de.dName = cstr de'.dName → de.dInode = de'.dInode

theorem matchIff (dname : Bytes) (de : DirEntry) : ext2MatchEntry dname de = true ↔ de.dInode ≠ 0 ∧ de.dName = dname := by
  simp only [ext2MatchEntry,Bool.and_eq_true,decide_eq_true_eq]
  constructor
  · rintro ⟨⟨used,_⟩,rfl⟩
    exact ⟨used,rfl⟩
  · rintro ⟨used,rfl⟩
    exact ⟨⟨used,rfl⟩,rfl⟩

theorem readdirOnly {v : Volume} {inode : Inode} {fuel fuel' offset : Nat} {read read' : Option (Dirent × Nat)}
    (ends : ext2Readdir v inode fuel offset = some read) (ends' : ext2Readdir v inode fuel' offset = some read') :
    read = read' := by
  rw [ext2Readdir] at ends ends'
  split at ends
  · rename_i outside
    rw [if_pos outside] at ends'
    exact Option.some.inj (ends.symm.trans ends')
  · rename_i inside
    rw [if_neg inside] at ends'
    obtain ⟨found,map,eq⟩ := Option.bind_eq_some_iff.mp ends
    obtain ⟨found',map',eq'⟩ := Option.bind_eq_some_iff.mp ends'
    rw [bmapOnly map map'] at eq
    exact Option.some.inj (eq.symm.trans eq')

theorem listingOnly {v : Volume} {inode : Inode} {fuel fuel' calls calls' offset : Nat} {dirents dirents' : List Dirent}
    (list : listing v inode fuel calls offset = some dirents) (list' : listing v inode fuel' calls' offset = some dirents') :
    dirents = dirents' := by
  induction calls generalizing calls' offset dirents dirents' with
  | zero => simp [listing] at list
  | succ calls ih =>
    cases calls' with
    | zero => simp [listing] at list'
    | succ calls' =>
      obtain ⟨read,ends,eq⟩ := Option.bind_eq_some_iff.mp list
      obtain ⟨read',ends',eq'⟩ := Option.bind_eq_some_iff.mp list'
      rw [readdirOnly ends ends'] at eq
      cases read' with
      | none => exact Option.some.inj (eq.symm.trans eq')
      | some both =>
        obtain ⟨rest,later,eq⟩ := Option.bind_eq_some_iff.mp eq
        obtain ⟨rest',later',eq'⟩ := Option.bind_eq_some_iff.mp eq'
        rw [← Option.some.inj eq,← Option.some.inj eq',ih later later']

theorem inUseIff (records : List DirEntry) : InUse records ↔ ∀ r ∈ records,
    ∃ de, records.find? (ext2MatchEntry (cstr r.dName)) = some de ∧ de.dInode = r.dInode := by
  constructor
  · intro use r member
    obtain ⟨de,inside,name⟩ := use.named r member
    have some' : (records.find? (ext2MatchEntry (cstr r.dName))).isSome :=
      List.find?_isSome.mpr ⟨de,inside,(matchIff _ _).mpr ⟨use.used de inside,name⟩⟩
    obtain ⟨first,found⟩ := Option.isSome_iff_exists.mp some'
    have name' := ((matchIff _ _).mp (List.find?_some found)).2
    refine ⟨first,found,use.same first (List.mem_of_find?_eq_some found) r member ?_⟩
    rw [name',cstrPlain cstrBytes]
  · intro finds
    refine ⟨?_,?_,?_⟩
    · intro r member
      obtain ⟨de,found,eq⟩ := finds r member
      rw [← eq]
      exact ((matchIff _ _).mp (List.find?_some found)).1
    · intro r member
      obtain ⟨de,found,_⟩ := finds r member
      exact ⟨de,List.mem_of_find?_eq_some found,((matchIff _ _).mp (List.find?_some found)).2⟩
    · intro r member r' member' name
      obtain ⟨de,found,eq⟩ := finds r member
      obtain ⟨de',found',eq'⟩ := finds r' member'
      rw [name,found'] at found
      rw [← eq,← eq',Option.some.inj found]

section
variable {v : Volume} {inode : Inode} {blocks : List (List DirEntry)} (dir : Directory v inode blocks)
  (large : v.blockShift ≤ 15) (word : inode.size < 2^32)
include dir

theorem mappedAll : ∃ fuel, ∀ index, index < blocks.length → ∃ found, ext2Bmap v inode fuel index = some found := by
  have some' : ∀ n, n ≤ blocks.length → ∃ fuel, ∀ index, index < n → ∃ found, ext2Bmap v inode fuel index = some found := by
    intro n
    induction n with
    | zero => exact fun _ => ⟨0,fun index inside => absurd inside (Nat.not_lt_zero index)⟩
    | succ n ih =>
      intro le
      obtain ⟨first,before⟩ := ih (by omega)
      obtain ⟨second,found,map,_⟩ := dir.mapped n le
      refine ⟨first + second,fun index inside => ?_⟩
      by_cases here : index = n
      · subst here
        exact ⟨found,by rw [Nat.add_comm]; exact bmapMore map first⟩
      · obtain ⟨found,map⟩ := before index (by omega)
        exact ⟨found,bmapMore map second⟩
  exact some' blocks.length (Nat.le_refl _)

include large word

theorem readdirAt {fuel index offset : Nat} {found : Nat × Nat} (inside : index < blocks.length)
    (within : offset < v.blockSize) (map : ext2Bmap v inode fuel index = some found)
    (fits : offset + (entryAt (v.getCache found.1) offset).dRecLen ≤ v.blockSize) :
    ∃ d, ext2Readdir v inode fuel (index*v.blockSize + offset) = some (some (d,
      index*v.blockSize + (offset + (entryAt (v.getCache found.1) offset).dRecLen))) ∧
      d.said = (entryAt (v.getCache found.1) offset).said := by
  have bound := blockInside dir inside
  have most := wholeSize dir large word
  have quotient : (index*v.blockSize + offset) / 2^v.blockShift = index := by
    rw [← Volume.blockSize,Nat.mul_comm,Nat.mul_add_div (show 0 < v.blockSize from Nat.two_pow_pos _),Nat.div_eq_of_lt within,Nat.add_zero]
  have remainder : (index*v.blockSize + offset) % v.blockSize = offset := by
    rw [Nat.mul_comm,Nat.mul_add_mod,Nat.mod_eq_of_lt within]
  generalize here : entryAt (v.getCache found.1) offset = de at *
  refine ⟨⟨de.dInode,index*v.blockSize + offset,offsetofName + de.dName.length + 1,ext2CvtType de.dFileType,de.dName⟩,?_,rfl⟩
  rw [ext2Readdir,if_neg (by omega),quotient,remainder,map]
  simp only [Option.bind_eq_bind,Option.bind_some,here]
  rw [add32Eq (by omega),Nat.add_assoc (index*v.blockSize)]

theorem listingBlock {fuel index offset : Nat} {found : Nat × Nat} {recs : List DirEntry} (inside : index < blocks.length)
    (map : ext2Bmap v inode fuel index = some found) (tiled : Tiled v (v.getCache found.1) offset recs)
    {calls : Nat} {rest : List Dirent} (later : listing v inode fuel calls ((index + 1)*v.blockSize) = some rest) :
    ∃ calls dirents, listing v inode fuel calls (index*v.blockSize + offset) = some (dirents ++ rest) ∧
      dirents.map Dirent.said = recs.map DirEntry.said := by
  induction tiled with
  | nil => exact ⟨calls,[],by rw [← Nat.succ_mul]; exact later,rfl⟩
  | cons least align name behind ih =>
    rename_i offset recs
    have bound := tiledBound behind
    obtain ⟨calls,dirents,list,said⟩ := ih
    obtain ⟨d,read,here⟩ := readdirAt dir large word inside (by omega) map bound
    refine ⟨calls + 1,d::dirents,?_,?_⟩
    · rw [listing,read]
      simp only [Option.bind_eq_bind,Option.bind_some]
      rw [list]
      rfl
    · rw [List.map_cons,List.map_cons,here,said]

theorem listingAll : ∃ fuel calls dirents, listing v inode fuel calls 0 = some dirents ∧
    dirents.map Dirent.said = blocks.flatten.map DirEntry.said := by
  obtain ⟨fuel,mapped⟩ := mappedAll dir
  have from' : ∀ left index, index + left = blocks.length → ∃ calls dirents,
      listing v inode fuel calls (index*v.blockSize) = some dirents ∧
      dirents.map Dirent.said = (blocks.drop index).flatten.map DirEntry.said := by
    intro left
    induction left with
    | zero =>
      intro index eq
      rw [Nat.add_zero] at eq
      refine ⟨1,[],?_,by rw [List.drop_eq_nil_of_le (by omega)]; rfl⟩
      rw [listing,ext2Readdir,if_pos (by rw [dir.size,eq])]
      rfl
    | succ left ih =>
      intro index eq
      have inside : index < blocks.length := by omega
      obtain ⟨calls,rest,list,said⟩ := ih (index + 1) (by omega)
      obtain ⟨found,map⟩ := mapped index inside
      obtain ⟨more,dirents,list',said'⟩ := listingBlock dir large word inside map (blockTiled dir inside map) list
      refine ⟨more,dirents ++ rest,by rw [← list',Nat.add_zero],?_⟩
      rw [List.drop_eq_getElem_cons inside,List.flatten_cons,List.map_append,List.map_append,said,said']
  obtain ⟨calls,dirents,list,said⟩ := from' blocks.length 0 (Nat.zero_add _)
  refine ⟨fuel,calls,dirents,?_,said⟩
  rw [Nat.zero_mul] at list
  exact list

theorem findsIff (dname : Bytes) (dInode : Nat) : Finds v inode dname dInode ↔
    ∃ de, blocks.flatten.find? (ext2MatchEntry dname) = some de ∧ de.dInode = dInode := by
  constructor
  · rintro ⟨fuel,de,search,eq⟩
    exact ⟨de,(findEntryTiled dir large word dname search).symm,eq⟩
  · rintro ⟨de,first,eq⟩
    obtain ⟨fuel,search⟩ := findEntryFound dir large word dname
    exact ⟨fuel,de,by rw [search,first],eq⟩

/- For every directory that is filled with records. -/
theorem readdirAgrees : Agrees v inode ↔ InUse blocks.flatten := by
  obtain ⟨fuel,calls,dirents,list,said⟩ := listingAll dir large word
  -- The names and inode numbers of the listing are those of the records.
  have listed : ∀ pair, (∃ d ∈ dirents, d.said = pair) ↔ ∃ r ∈ blocks.flatten, r.said = pair := by
    intro pair
    rw [← List.mem_map,said,List.mem_map]
  rw [inUseIff]
  constructor
  · rintro ⟨fuel',calls',dirents',list',_,finds⟩ r member
    obtain ⟨d,inside,eq⟩ := (listed r.said).mpr ⟨r,member,rfl⟩
    rw [listingOnly list' list] at finds
    have found := finds d inside
    rw [eq] at found
    exact (findsIff dir large word _ _).mp found
  · intro finds
    have found : ∀ d ∈ dirents, Finds v inode d.said.1 d.said.2 := by
      intro d inside
      obtain ⟨r,member,eq⟩ := (listed d.said).mp ⟨d,inside,rfl⟩
      rw [← eq]
      exact (findsIff dir large word _ _).mpr (finds r member)
    refine ⟨fuel,calls,dirents,list,fun dname plain => ⟨?_,?_⟩,found⟩
    · rintro ⟨d,inside,rfl⟩
      exact ⟨d.said.2,found d inside⟩
    · rintro ⟨dInode,looked⟩
      obtain ⟨de,first,_⟩ := (findsIff dir large word _ _).mp looked
      obtain ⟨d,inside,eq⟩ := (listed de.said).mpr ⟨de,List.mem_of_find?_eq_some first,rfl⟩
      refine ⟨d,inside,?_⟩
      have name := ((matchIff _ _).mp (List.find?_some first)).2
      rw [eq,← name]
      refine cstrPlain fun c member => ?_
      rintro rfl
      exact plain (name ▸ member)

end

theorem smallAgrees : Agrees smallVolume smallDirectory :=
  (readdirAgrees smallIsDirectory (by decide) (by decide)).mpr ⟨by decide,by decide,by decide⟩

def deletedBlock (i : Nat) : UInt8 := if i = 0 then 0 else smallBlock i
def deletedVolume : Volume := { smallVolume with disk := fun _ => deletedBlock }

theorem deletedTiled : Tiled deletedVolume deletedBlock 0 [⟨0,12,2,[97]⟩,⟨3,1012,2,[98]⟩] := by
  have first : entryAt deletedBlock 0 = ⟨0,12,2,[97]⟩ := by decide
  have second : entryAt deletedBlock 12 = ⟨3,1012,2,[98]⟩ := by decide
  rw [← first,← second]
  refine Tiled.cons (by decide) (by decide) (by decide) ?_
  exact Tiled.cons (by decide) (by decide) (by decide) Tiled.nil

theorem deletedIsDirectory : Directory deletedVolume smallDirectory [[⟨0,12,2,[97]⟩,⟨3,1012,2,[98]⟩]] := by
  refine ⟨by decide,fun index inside => ?_⟩
  cases Nat.lt_one_iff.mp inside
  exact ⟨0,(9,1),by decide,deletedTiled⟩

theorem deletedListed : ¬ ∀ (v : Volume) (inode : Inode) (blocks : List (List DirEntry)), Directory v inode blocks →
    v.blockShift ≤ 15 → inode.size < 2^32 → Agrees v inode := by
  intro claim
  obtain ⟨_,_,dirents,list,_,finds⟩ := claim _ _ _ deletedIsDirectory (by decide) (by decide)
  have read : listing deletedVolume smallDirectory 0 3 0 =
      some [⟨0,0,14,some 4,[97]⟩,⟨3,12,14,some 4,[98]⟩] := by decide
  rw [listingOnly list read] at finds
  obtain ⟨fuel,de,search,_⟩ := finds ⟨0,0,14,some 4,[97]⟩ (List.mem_cons_self ..)
  have none' := findEntryTiled deletedIsDirectory (by decide) (by decide) _ search
  contradiction

end Syslinux.Ext2
