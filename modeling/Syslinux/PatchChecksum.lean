import Syslinux.Extents

/-! syslinux_patch of libinstaller/syslxmod.c, and the checksum that core/diskstart.inc makes of
what it has loaded. -/
namespace Syslinux.PatchChecksum
open Extents

abbrev Memory := Nat → UInt8

def get : Nat → Memory → Nat → Nat
  | 0,_,_ => 0
  | n+1,mem,a => (mem a).toNat + 2^8*get n mem (a + 1)

def bytesOf : Nat → Nat → List UInt8
  | 0,_ => []
  | n+1,v => UInt8.ofNat v::bytesOf n (v / 2^8)

def set (n : Nat) (mem : Memory) (a v : Nat) : Memory := store mem a (bytesOf n v)

def ldlinuxMagic : Nat := 0x3eb202fe

/- The search for LDLINUX_MAGIC; none where it runs behind the image. -/
def findMagic (image : Memory) : Nat → Nat → Option Nat
  | 0,_ => none
  | turns+1,wp => if get 4 image wp = ldlinuxMagic then some wp else findMagic image turns (wp + 4)

/- struct patch_area, from its magic on, and struct ext_patch_area. -/
def patchSize : Nat := 24
def epaSize : Nat := 20

def dataSectors (patch : Nat) : Nat := patch + 8
def advSectors (patch : Nat) : Nat := patch + 10
def dwords (patch : Nat) : Nat := patch + 12
def checksum (patch : Nat) : Nat := patch + 16
def maxtransfer (patch : Nat) : Nat := patch + 20

def writeExtents : Memory → Nat → List Extent → Memory
  | image,_,[] => image
  | image,ex,x::extents => writeExtents (set 2 (set 8 image ex x.lba.toNat) (ex + 8) x.len) (ex + 10) extents

section
variable (image : Memory)

def epaOf (patch : Nat) : Nat := get 2 image (patch + 22)
def advptroffset (epa : Nat) : Nat := get 2 image epa
def diroffset (epa : Nat) : Nat := get 2 image (epa + 2)
def dirlen (epa : Nat) : Nat := get 2 image (epa + 4)
def subvoloffset (epa : Nat) : Nat := get 2 image (epa + 6)
def subvollen (epa : Nat) : Nat := get 2 image (epa + 8)
def secptroffset (epa : Nat) : Nat := get 2 image (epa + 10)
def secptrcnt (epa : Nat) : Nat := get 2 image (epa + 12)

/- A string in its field, if there is one; none for exit(1). -/
def poke (offset room : Nat) : Option (List UInt8) → Option Memory
  | none => some image
  | some text => if room < text.length + 1 then none else some (store image offset (text ++ [0]))

/- for (i = 0; i < dw; i++) csum -= get_32_sl(wp++). -/
def negative : Nat → Nat → UInt32 → UInt32
  | 0,_,csum => csum
  | dw+1,wp,csum => negative dw (wp + 4) (csum - UInt32.ofNat (get 4 image wp))

end

structure Args where
  sectp : List UInt64
  stupid : Bool
  raidMode : Bool
  subdir : Option (List UInt8)
  subvol : Option (List UInt8)

/- The sectors of the image with its two ADVs. -/
def nsectOf (len : Nat) : Nat := (len + sectorSize - 1) / sectorSize + 2

/- The pointer to the first sector, and RAID mode, in the boot sector. -/
def patchBootSector (image sbs : Memory) (epa : Nat) (args : Args) : Memory :=
  let sbs := set 4 sbs (get 2 image (epa + 14)) (args.sectp.headD 0).toNat
  let sbs := set 4 sbs (get 2 image (epa + 16)) ((args.sectp.headD 0).toNat / 2^32)
  if args.raidMode then set 2 sbs (get 2 image (epa + 18)) 0x18CD else sbs

def setTotals (image : Memory) (len patch : Nat) (args : Args) : Memory :=
  let image := set 2 image (dataSectors patch) (nsectOf len - 2)
  let image := set 2 image (advSectors patch) 2
  let image := set 4 image (dwords patch) (len / 4)
  if args.stupid then set 2 image (maxtransfer patch) 1 else image

def setExtents (image : Memory) (len epa : Nat) (args : Args) : Memory :=
  let image' := store image (secptroffset image epa) (List.replicate (10*secptrcnt image epa) 0)
  writeExtents image' (secptroffset image epa) (generateExtents ((args.sectp.drop 1).take (nsectOf len - 3)))

def setAdvptrs (image : Memory) (len epa : Nat) (args : Args) : Memory :=
  let image' := set 8 image (advptroffset image epa) (args.sectp.getD (nsectOf len - 2) 0).toNat
  set 8 image' (advptroffset image epa + 8) (args.sectp.getD (nsectOf len - 1) 0).toNat

/- The image and the boot sector as they are patched; none for what is not accepted. -/
def syslinuxPatch (image sbs : Memory) (len : Nat) (args : Args) : Option (Memory × Memory) :=
  if args.sectp.length < nsectOf len then none
  else (findMagic image (len / 4) 0).bind fun patch =>
    let epa := epaOf image patch
    let image' := setAdvptrs (setExtents (setTotals image len patch args) len epa args) len epa args
    (poke image' (diroffset image' epa) (dirlen image' epa) args.subdir).bind fun image' =>
      (poke image' (subvoloffset image' epa) (subvollen image' epa) args.subvol).map fun image' =>
        let image' := set 4 image' (checksum patch) 0
        (set 4 image' (checksum patch) (negative image' (len / 4) 0 (UInt32.ofNat ldlinuxMagic)).toNat,
          patchBootSector image sbs epa args)

/- The boot code runs with its data segment at 0; a memory has 2^20 addresses. -/
def linear (ds si : Nat) : Nat := (ds*16 + si) % 2^20

section
variable (mem : Memory)

def readDword (ds si : Nat) : UInt32 :=
  UInt32.ofNat ((mem (linear ds si)).toNat + 2^8*((mem (linear ds (si + 1))).toNat +
    2^8*((mem (linear ds (si + 2))).toNat + 2^8*((mem (linear ds (si + 3))).toNat + 2^8*0))))

def entLoop : Nat → Nat → UInt32 → UInt32
  | 0,_,edx => edx
  | cx+1,si,edx => entLoop cx ((si + 4) % 2^16) (edx + readDword mem 0 si)

/- add eax,[si]; add si,4; with the next segment when si has wrapped. -/
def verifyLoop : Nat → Nat → Nat → UInt32 → UInt32
  | 0,_,_,eax => eax
  | ecx+1,ds,si,eax =>
      let si' := (si + 4) % 2^16
      verifyLoop ecx (if si' = 0 then (ds + 0x1000) % 2^16 else ds) si' (eax + readDword mem ds si)

end

/- What is left in eax, of an image with the patch area at patch. dec ecx; jnz takes a count of 0 for 2^32. -/
def bootChecksum (mem : Memory) (patch : Nat) : UInt32 :=
  let edx := entLoop mem (sectorSize / 4) loadAddress (0 - UInt32.ofNat ldlinuxMagic)
  let mem := set 4 mem (loadAddress + checksum patch) edx.toNat
  let ecx := sub32 (get 4 mem (loadAddress + dwords patch)) (sectorSize / 4)
  verifyLoop mem ((ecx + (2^32 - 1)) % 2^32 + 1) 0 (loadAddress + sectorSize) (UInt32.ofNat (get 4 mem (loadAddress + checksum patch)))

structure Loaded (mem image : Memory) (len : Nat) : Prop where
  inMemory : loadAddress + len ≤ 2^20
  unchanged : ∀ i < len, mem (loadAddress + i) = image i

def Apart (x y : Nat × Nat) : Prop := x.1 + x.2 ≤ y.1 ∨ y.1 + y.2 ≤ x.1
instance (x y : Nat × Nat) : Decidable (Apart x y) := by unfold Apart; infer_instance

/- The areas an extended patch area describes; the extents have room for one of each sector. -/
def areas (image : Memory) (len epa : Nat) : List (Nat × Nat) :=
  [(secptroffset image epa,10*max (secptrcnt image epa) (nsectOf len)),(advptroffset image epa,16),
    (diroffset image epa,dirlen image epa),(subvoloffset image epa,subvollen image epa)]

/- The extended patch area and what it describes do not lie on the patch area, nor on each other. -/
structure Laid (image : Memory) (len patch : Nat) : Prop where
  epa : Apart (epaOf image patch,epaSize) (patch,patchSize)
  besidePatch : ∀ area ∈ areas image len (epaOf image patch), Apart area (patch,patchSize)
  besideEpa : ∀ area ∈ areas image len (epaOf image patch), Apart area (epaOf image patch,epaSize)

section
variable {image image' mem mem' sbs : Memory} {a b n k v len patch epa wp si j : Nat} {args : Args} {x : UInt32}

@[simp] theorem bytesOfLength : (bytesOf n v).length = n := by
  induction n generalizing v with
  | zero => rfl
  | succ n ih => simp [bytesOf,ih]

theorem getCongr (same : ∀ i < n, mem (a + i) = mem' (b + i)) : get n mem a = get n mem' b := by
  induction n generalizing a b with
  | zero => rfl
  | succ n ih =>
    have rest : get n mem (a + 1) = get n mem' (b + 1) := by
      refine ih fun i small => ?_
      rw [Nat.add_assoc,Nat.add_assoc,Nat.add_comm 1 i]
      exact same (i + 1) (by omega)
    rw [get,get,rest]
    exact congrArg (fun byte => byte.toNat + _) (same 0 (Nat.succ_pos _))

theorem setApart (apart : b + 1 ≤ a ∨ a + n ≤ b) : set n mem a v b = mem b := storeOutside (by rw [bytesOfLength]; omega)

theorem getSet (small : v < 2^(8*n)) : get n (set n mem a v) a = v := by
  induction n generalizing mem a v with
  | zero =>
    have : v < 1 := small
    rw [get]
    omega
  | succ n ih =>
    have first : set (n + 1) mem a v a = UInt8.ofNat v := @storeInside UInt8 mem a (bytesOf (n + 1) v) 0 (by simp)
    have behind : set (n + 1) mem a v = set n (store mem a [UInt8.ofNat v]) (a + 1) (v / 2^8) := (@storeAppend UInt8 mem a [UInt8.ofNat v] _).symm
    have small' : v / 2^8 < 2^(8*n) := by
      rw [Nat.div_lt_iff_lt_mul (by decide),← Nat.pow_add]
      exact small
    rw [get,first,behind,ih small',UInt8.toNat_ofNat']
    omega

def total (image : Memory) : Nat → Nat → UInt32
  | 0,_ => 0
  | n+1,wp => UInt32.ofNat (get 4 image wp) + total image n (wp + 4)

theorem totalCongr (same : ∀ i < 4*n, image (a + i) = image' (b + i)) : total image n a = total image' n b := by
  induction n generalizing a b with
  | zero => rfl
  | succ n ih =>
    have first : get 4 image a = get 4 image' b := getCongr fun i small => same i (by omega)
    have rest : total image n (a + 4) = total image' n (b + 4) := by
      refine ih fun i small => ?_
      rw [Nat.add_assoc,Nat.add_assoc]
      exact same (4 + i) (by omega)
    rw [total,total,first,rest]

theorem totalAppend : total image (k + n) wp = total image k wp + total image n (wp + 4*k) := by
  induction k generalizing wp with
  | zero => simp [total]
  | succ k ih => rw [Nat.add_right_comm,total,total,ih,UInt32.add_assoc,Nat.mul_add_one,Nat.add_assoc wp,Nat.add_comm 4]

theorem negativeTotal : negative image n wp x = x - total image n wp := by
  induction n generalizing wp x with
  | zero => simp [negative,total]
  | succ n ih => rw [negative,ih,total,UInt32.sub_eq_add_neg,UInt32.sub_eq_add_neg,UInt32.sub_eq_add_neg x,UInt32.neg_add,
      UInt32.sub_eq_add_neg,UInt32.add_assoc]

theorem checksumCancels (inside : k < n) : total (set 4 (set 4 image (4*k) 0) (4*k) (negative (set 4 image (4*k) 0) n 0 x).toNat) n 0 = x := by
  obtain ⟨m,rfl⟩ : ∃ m, n = k + (1 + m) := ⟨n - k - 1,by omega⟩
  generalize zeroed : set 4 image (4*k) 0 = zeroed'
  have zero : get 4 zeroed' (4*k) = 0 := zeroed ▸ getSet (by decide)
  have whole : total zeroed' (k + (1 + m)) 0 = total zeroed' k 0 + total zeroed' m (4*k + 4) := by
    rw [totalAppend,totalAppend]
    simp [total,zero]
  generalize sum : (negative zeroed' (k + (1 + m)) 0 x) = csum
  rw [negativeTotal,whole] at sum
  have low : csum.toNat < 2^(8*4) := csum.toNat_lt
  have before : total (set 4 zeroed' (4*k) csum.toNat) k 0 = total zeroed' k 0 := totalCongr fun i small => setApart (by omega)
  have behind : total (set 4 zeroed' (4*k) csum.toNat) m (4*k + 4) = total zeroed' m (4*k + 4) := totalCongr fun i small => setApart (by omega)
  rw [totalAppend,totalAppend,before,Nat.zero_add,behind,total,getSet low,total,UInt32.add_zero,UInt32.ofNat_toNat,← sum,
    UInt32.add_comm (x - _),← UInt32.add_assoc,UInt32.add_comm,UInt32.sub_add_cancel]

/- What the later writes of syslinux_patch leave alone: the dwords of the patch area and the extended patch area. -/
def Leaves (image image' : Memory) (patch epa : Nat) : Prop :=
  ∀ a, dwords patch ≤ a ∧ a < dwords patch + 4 ∨ epa ≤ a ∧ a < epa + epaSize → image' a = image a

theorem leavesTrans {image'' : Memory} (one : Leaves image image' patch epa) (two : Leaves image' image'' patch epa) :
    Leaves image image'' patch epa := fun a here => (two a here).trans (one a here)

theorem leavesStore {bytes : List UInt8} {room : Nat} (besidePatch : Apart (a,room) (patch,patchSize)) (besideEpa : Apart (a,room) (epa,epaSize))
    (fits : b + bytes.length ≤ room) : Leaves image (store image (a + b) bytes) patch epa := by
  intro c here
  refine storeOutside ?_
  unfold Apart patchSize at *
  unfold dwords epaSize at *
  simp only at besidePatch besideEpa
  omega

theorem leavesSet {room : Nat} (besidePatch : Apart (a,room) (patch,patchSize)) (besideEpa : Apart (a,room) (epa,epaSize))
    (fits : b + n ≤ room) : Leaves image (set n image (a + b) v) patch epa :=
  leavesStore besidePatch besideEpa (by rwa [bytesOfLength])

theorem leavesExtents {extents : List Extent} {room : Nat} (besidePatch : Apart (a,room) (patch,patchSize)) (besideEpa : Apart (a,room) (epa,epaSize))
    (fits : b + 10*extents.length ≤ room) : Leaves image (writeExtents image (a + b) extents) patch epa := by
  induction extents generalizing image b with
  | nil => exact fun _ _ => rfl
  | cons x extents ih =>
    rw [List.length_cons] at fits
    have lba : Leaves image (set 8 image (a + b) x.lba.toNat) patch epa := leavesSet besidePatch besideEpa (by omega)
    have len : Leaves _ (set 2 (set 8 image (a + b) x.lba.toNat) (a + (b + 8)) x.len) patch epa := leavesSet besidePatch besideEpa (by omega)
    rw [writeExtents,Nat.add_assoc,Nat.add_assoc]
    exact leavesTrans (leavesTrans lba len) (ih (by omega))

theorem leavesPoke {room : Nat} {text : Option (List UInt8)} (besidePatch : Apart (a,room) (patch,patchSize))
    (besideEpa : Apart (a,room) (epa,epaSize)) (poked : poke image a room text = some image') : Leaves image image' patch epa := by
  cases text with
  | none => exact Option.some.inj poked ▸ fun _ _ => rfl
  | some text =>
    rw [poke] at poked
    split at poked
    · cases poked
    · rename_i fits
      rw [← Option.some.inj poked]
      exact @leavesStore _ a 0 _ _ _ _ besidePatch besideEpa (by simp; omega)

theorem generateLoopLength {addr base len : Nat} {lba : UInt64} {sectp : List UInt64} :
    (generateLoop sectp addr base lba len).length ≤ sectp.length + 1 := by
  induction sectp generalizing addr base lba len with
  | nil =>
    rw [generateLoop]
    split
    · exact Nat.le_refl _
    · exact Nat.zero_le _
  | cons sect sectp ih =>
    rw [generateLoop]
    split
    · dsimp only
      split
      · exact Nat.le_succ_of_le ih
      · exact Nat.succ_le_succ ih
    · exact Nat.le_succ_of_le ih

section
variable (kept : ∀ i < epaSize, image' (epa + i) = image (epa + i))
include kept

theorem epaField (field : k + 2 ≤ epaSize) : get 2 image' (epa + k) = get 2 image (epa + k) := by
  refine getCongr fun i small => ?_
  rw [Nat.add_assoc]
  exact kept (k + i) (by omega)

theorem areasKept : areas image' len epa = areas image len epa := by
  have field (k : Nat) (small : k + 2 ≤ epaSize) := epaField kept small
  simp only [areas,secptroffset,secptrcnt,advptroffset,diroffset,dirlen,subvoloffset,subvollen]
  rw [field 10 (by decide),field 12 (by decide),show get 2 image' epa = get 2 image epa from field 0 (by decide),field 2 (by decide),
    field 4 (by decide),field 6 (by decide),field 8 (by decide)]

end

theorem leavesEpa (kept : Leaves image image' patch epa) : ∀ i < epaSize, image' (epa + i) = image (epa + i) :=
  fun i small => kept _ (Or.inr (by omega))

theorem leavesDwords (kept : Leaves image image' patch epa) : get 4 image' (dwords patch) = get 4 image (dwords patch) :=
  getCongr fun i small => kept _ (Or.inl (by omega))

section
variable (beside : ∀ area ∈ areas image len epa, Apart area (patch,patchSize) ∧ Apart area (epa,epaSize))
include beside

theorem leavesSetExtents : Leaves image (setExtents image len epa args) patch epa := by
  obtain ⟨besidePatch,besideEpa⟩ := beside _ (List.mem_cons_self ..)
  have few : (generateExtents ((args.sectp.drop 1).take (nsectOf len - 3))).length ≤ nsectOf len := by
    have := @generateLoopLength loadAddress loadAddress 0 0 ((args.sectp.drop 1).take (nsectOf len - 3))
    have count : 2 ≤ nsectOf len := Nat.le_add_left _ _
    unfold generateExtents
    simp only [List.length_take] at this ⊢
    omega
  have clear := @leavesStore image _ 0 patch epa (List.replicate (10*secptrcnt image epa) 0) _ besidePatch besideEpa
    (by rw [List.length_replicate]; omega)
  have extents := @leavesExtents (store image (secptroffset image epa) (List.replicate (10*secptrcnt image epa) 0)) _ 0 patch epa
    (generateExtents ((args.sectp.drop 1).take (nsectOf len - 3))) _ besidePatch besideEpa (by omega)
  exact leavesTrans clear extents

theorem leavesSetAdvptrs : Leaves image (setAdvptrs image len epa args) patch epa := by
  obtain ⟨besidePatch,besideEpa⟩ := beside (advptroffset image epa,16) (by simp [areas])
  have first := @leavesSet image _ 0 8 (args.sectp.getD (nsectOf len - 2) 0).toNat patch epa _ besidePatch besideEpa (by decide)
  have second := @leavesSet (set 8 image (advptroffset image epa) (args.sectp.getD (nsectOf len - 2) 0).toNat) _ 8 8
    (args.sectp.getD (nsectOf len - 1) 0).toNat patch epa _ besidePatch besideEpa (by decide)
  have field : advptroffset (set 8 image (advptroffset image epa) (args.sectp.getD (nsectOf len - 2) 0).toNat) epa = advptroffset image epa :=
    @epaField _ _ 0 _ (leavesEpa first) (by decide)
  unfold setAdvptrs
  exact leavesTrans first second

end

theorem setTotalsApart (apart : a < patch + 8 ∨ patch + patchSize ≤ a) : setTotals image len patch args a = image a := by
  unfold patchSize at apart
  unfold setTotals dataSectors advSectors dwords maxtransfer
  split
  · rw [setApart (by omega),setApart (by omega),setApart (by omega),setApart (by omega)]
  · rw [setApart (by omega),setApart (by omega),setApart (by omega)]

theorem setTotalsDwords (small : len / 4 < 2^32) : get 4 (setTotals image len patch args) (dwords patch) = len / 4 := by
  have wrote {mem : Memory} : get 4 (set 4 mem (dwords patch) (len / 4)) (dwords patch) = len / 4 := getSet small
  unfold setTotals
  simp only
  split
  · exact (getCongr fun i inside => setApart (by unfold maxtransfer dwords; omega)).trans wrote
  · exact wrote

theorem findMagicPlace {turns : Nat} (found : findMagic image turns wp = some patch) : ∃ k < turns, patch = wp + 4*k := by
  induction turns generalizing wp with
  | zero => cases found
  | succ turns ih =>
    rw [findMagic] at found
    split at found
    · exact ⟨0,Nat.succ_pos _,(Option.some.inj found).symm⟩
    · obtain ⟨k,small,place⟩ := ih found
      exact ⟨k + 1,by omega,by omega⟩

theorem patchedEq {sbs' : Memory} (found : findMagic image (len / 4) 0 = some patch)
    (accepted : syslinuxPatch image sbs len args = some (image',sbs')) : ∃ written image₁ image₂,
    setAdvptrs (setExtents (setTotals image len patch args) len (epaOf image patch) args) len (epaOf image patch) args = written ∧
    poke written (diroffset written (epaOf image patch)) (dirlen written (epaOf image patch)) args.subdir = some image₁ ∧
    poke image₁ (subvoloffset image₁ (epaOf image patch)) (subvollen image₁ (epaOf image patch)) args.subvol = some image₂ ∧
    image' = set 4 (set 4 image₂ (checksum patch) 0) (checksum patch)
      (negative (set 4 image₂ (checksum patch) 0) (len / 4) 0 (UInt32.ofNat ldlinuxMagic)).toNat := by
  unfold syslinuxPatch at accepted
  split at accepted
  · cases accepted
  simp only [found,Option.bind_some,Option.bind_eq_some_iff,Option.map_eq_some_iff,Prod.mk.injEq] at accepted
  obtain ⟨image₁,poked₁,image₂,poked₂,rfl,_⟩ := accepted
  exact ⟨_,image₁,image₂,rfl,poked₁,poked₂,rfl⟩

theorem patchedSum {sbs' : Memory} (found : findMagic image (len / 4) 0 = some patch) (inside : patch + patchSize ≤ len / 4*4)
    (accepted : syslinuxPatch image sbs len args = some (image',sbs')) : total image' (len / 4) 0 = UInt32.ofNat ldlinuxMagic := by
  obtain ⟨k,_,place⟩ := findMagicPlace found
  obtain ⟨_,_,image₂,_,_,_,rfl⟩ := patchedEq found accepted
  have field : checksum patch = 4*(k + 4) := by
    unfold checksum
    omega
  rw [field]
  exact checksumCancels (by unfold patchSize at inside; omega)

theorem patchedDwords {sbs' : Memory} (found : findMagic image (len / 4) 0 = some patch) (small : len / 4 < 2^32) (laid : Laid image len patch)
    (accepted : syslinuxPatch image sbs len args = some (image',sbs')) : get 4 image' (dwords patch) = len / 4 := by
  obtain ⟨_,image₁,image₂,rfl,poked₁,poked₂,rfl⟩ := patchedEq found accepted
  generalize epaHere : epaOf image patch = epa at poked₁ poked₂
  have epaApart := laid.epa
  have besidePatch := laid.besidePatch
  have besideEpa := laid.besideEpa
  rw [epaHere] at epaApart besidePatch besideEpa
  have beside : ∀ area ∈ areas image len epa, Apart area (patch,patchSize) ∧ Apart area (epa,epaSize) :=
    fun area mem => ⟨besidePatch area mem,besideEpa area mem⟩
  have kept₀ : ∀ i < epaSize, setTotals image len patch args (epa + i) = image (epa + i) := by
    intro i low
    refine setTotalsApart ?_
    unfold Apart at epaApart
    simp only at epaApart
    omega
  -- Each write finds the areas as they were, and leaves them so.
  rw [← areasKept kept₀] at beside
  have kept₁ := @leavesSetExtents _ _ _ _ args beside
  rw [← areasKept (leavesEpa kept₁)] at beside
  have kept₂ := @leavesSetAdvptrs _ _ _ _ args beside
  rw [← areasKept (leavesEpa kept₂)] at beside
  have dir := beside _ (List.mem_cons_of_mem _ (List.mem_cons_of_mem _ (List.mem_cons_self ..)))
  have kept₃ := leavesPoke dir.1 dir.2 poked₁
  rw [← areasKept (leavesEpa kept₃)] at beside
  have subvol := beside _ (List.mem_cons_of_mem _ (List.mem_cons_of_mem _ (List.mem_cons_of_mem _ (List.mem_cons_self ..))))
  have kept₄ := leavesPoke subvol.1 subvol.2 poked₂
  have counted := leavesDwords (leavesTrans (leavesTrans (leavesTrans kept₁ kept₂) kept₃) kept₄)
  rw [setTotalsDwords small] at counted
  rw [← counted]
  refine getCongr fun i low => ?_
  rw [setApart (by unfold checksum dwords; omega),setApart (by unfold checksum dwords; omega)]

theorem readDwordEq {ds : Nat} (place : linear ds si = a) (low : a + 4 ≤ 2^20) :
    readDword mem ds si = UInt32.ofNat (get 4 mem a) := by
  have behind (i : Nat) (less : i < 4) : linear ds (si + i) = a + i := by
    unfold linear at *
    omega
  rw [readDword,place,behind 1 (by decide),behind 2 (by decide),behind 3 (by decide)]
  rfl

theorem entLoopTotal (inside : si + 4*n < 2^16) : entLoop mem n si x = x + total mem n si := by
  induction n generalizing si x with
  | zero => rw [entLoop,total,UInt32.add_zero]
  | succ n ih =>
    have here : linear 0 si = si := by
      unfold linear
      omega
    rw [entLoop,Nat.mod_eq_of_lt (by omega),ih (by omega),readDwordEq here (by omega),total,UInt32.add_assoc]

theorem verifyLoopTotal (aligned : si % 4 = 0) (low : si < 2^16) (inside : 65536*j + si + 4*n ≤ 2^20) :
    verifyLoop mem n (0x1000*j % 2^16) si x = x + total mem n (65536*j + si) := by
  induction n generalizing j si x with
  | zero => rw [verifyLoop,total,UInt32.add_zero]
  | succ n ih =>
    have here : linear (0x1000*j % 2^16) si = 65536*j + si := by
      unfold linear
      omega
    rw [verifyLoop,readDwordEq here (by omega),total,← UInt32.add_assoc]
    by_cases wrap : (si + 4) % 2^16 = 0
    · have segment : (0x1000*j % 2^16 + 0x1000) % 2^16 = 0x1000*(j + 1) % 2^16 := by omega
      have place : 65536*(j + 1) + 0 = 65536*j + si + 4 := by omega
      rw [if_pos wrap,wrap,segment,ih rfl (by decide) (by omega),place]
    · have step : (si + 4) % 2^16 = si + 4 := Nat.mod_eq_of_lt (by omega)
      rw [if_neg wrap,step,ih (by omega) (by omega) (by omega),Nat.add_assoc _ si]

theorem bootChecksumTotal (first : patch + patchSize ≤ sectorSize) (counted : get 4 mem (loadAddress + dwords patch) = 128 + (n + 1))
    (inMemory : loadAddress + 4*(128 + (n + 1)) ≤ 2^20) :
    bootChecksum mem patch = 0 - UInt32.ofNat ldlinuxMagic + total mem (128 + (n + 1)) loadAddress := by
  unfold patchSize sectorSize at first
  unfold bootChecksum
  rw [show entLoop mem (sectorSize / 4) loadAddress (0 - UInt32.ofNat ldlinuxMagic) = 0 - UInt32.ofNat ldlinuxMagic + total mem 128 loadAddress
    from entLoopTotal (by decide)]
  generalize saved : 0 - UInt32.ofNat ldlinuxMagic + total mem 128 loadAddress = edx
  have dwordsHere : get 4 (set 4 mem (loadAddress + checksum patch) edx.toNat) (loadAddress + dwords patch) = 128 + (n + 1) :=
    (getCongr fun i small => setApart (by unfold checksum dwords; omega)).trans counted
  have savedHere : get 4 (set 4 mem (loadAddress + checksum patch) edx.toNat) (loadAddress + checksum patch) = edx.toNat := getSet edx.toNat_lt
  unfold loadAddress at inMemory
  have count : (sub32 (128 + (n + 1)) (sectorSize / 4) + (2^32 - 1)) % 2^32 + 1 = n + 1 := by
    unfold sectorSize
    rw [sub32Eq (by omega)]
    omega
  have two := @verifyLoopTotal (set 4 mem (loadAddress + checksum patch) edx.toNat) (n + 1) (loadAddress + sectorSize) 0 edx (by decide)
    (by decide) (by unfold loadAddress sectorSize; omega)
  have rest : total (set 4 mem (loadAddress + checksum patch) edx.toNat) (n + 1) (65536*0 + (loadAddress + sectorSize)) =
      total mem (n + 1) (loadAddress + 4*128) := totalCongr fun i small => by
    rw [setApart (by unfold checksum sectorSize; omega),Nat.mul_zero,Nat.zero_add]
    rfl
  simp only [dwordsHere,count,savedHere,UInt32.ofNat_toNat]
  refine two.trans ?_
  rw [rest,@totalAppend mem (n + 1) 128,← UInt32.add_assoc,saved]

theorem loadedDwords (first : patch + patchSize ≤ sectorSize) (long : sectorSize ≤ len) (loaded : Loaded mem image len) :
    get 4 mem (loadAddress + dwords patch) = get 4 image (dwords patch) := by
  refine getCongr fun i small => ?_
  rw [Nat.add_assoc]
  refine loaded.unchanged _ ?_
  unfold patchSize at first
  unfold dwords
  omega

theorem loadedTotal (loaded : Loaded mem image len) : total mem (len / 4) loadAddress = total image (len / 4) 0 := totalCongr fun i small => by
  rw [Nat.zero_add]
  exact loaded.unchanged i (by omega)

theorem bootChecksumZero {sbs' : Memory} (long : sectorSize + 4 ≤ len) (found : findMagic image (len / 4) 0 = some patch)
    (first : patch + patchSize ≤ sectorSize) (laid : Laid image len patch)
    (accepted : syslinuxPatch image sbs len args = some (image',sbs')) (loaded : Loaded mem image' len) : bootChecksum mem patch = 0 := by
  have inMemory := loaded.inMemory
  have low : sectorSize = 512 := rfl
  obtain ⟨n,words⟩ : ∃ n, len / 4 = 128 + (n + 1) := ⟨len / 4 - 129,by omega⟩
  have counted := (loadedDwords first (by omega) loaded).trans (patchedDwords found (by omega) laid accepted)
  have sum := (loadedTotal loaded).trans (patchedSum found (by omega) accepted)
  rw [words] at counted sum
  rw [bootChecksumTotal first counted (by omega),sum,UInt32.sub_add_cancel]

/- An image of 516 bytes with its patch area first: epaoffset, and an extended patch area at 100. -/
def smallImage (secptroffset : Nat) : Memory :=
  store (store (fun _ => 0) 0 (bytesOf 4 ldlinuxMagic)) 22 (bytesOf 2 100 ++ List.replicate 76 0 ++
    (bytesOf 2 200 ++ bytesOf 2 240 ++ bytesOf 2 4 ++ bytesOf 2 0 ++ bytesOf 2 0 ++ bytesOf 2 secptroffset ++ bytesOf 2 1))

def smallArgs : Args := ⟨[129,130,131,132],true,false,some [47],none⟩

def patched (secptroffset : Nat) : Memory :=
  ((syslinuxPatch (smallImage secptroffset) (fun _ => 0) 516 smallArgs).map Prod.fst).getD fun _ => 0

def inMemory (image : Memory) (behind : UInt8) : Memory := fun a =>
  if a < loadAddress then 0 else if a < loadAddress + 516 then image (a - loadAddress) else if a = loadAddress + 516 then behind else 0

theorem smallAccepted (secptroffset : Nat) (some' : (syslinuxPatch (smallImage secptroffset) (fun _ => 0) 516 smallArgs).isSome) :
    ∃ sbs', syslinuxPatch (smallImage secptroffset) (fun _ => 0) 516 smallArgs = some (patched secptroffset,sbs') := by
  obtain ⟨⟨image',sbs'⟩,accepted⟩ := Option.isSome_iff_exists.mp some'
  exact ⟨sbs',by simp [patched,accepted]⟩

theorem inMemoryLoaded (image : Memory) (behind : UInt8) : Loaded (inMemory image behind) image 516 where
  inMemory := by decide
  unchanged i small := by
    unfold inMemory
    rw [if_neg (by omega),if_pos (by omega),Nat.add_sub_cancel_left]

theorem bootChecksumZeroSmall : bootChecksum (inMemory (patched 120) 1) 0 = 0 := by
  obtain ⟨sbs',accepted⟩ := smallAccepted 120 (by decide)
  refine bootChecksumZero (by decide) (by decide : findMagic (smallImage 120) (516 / 4) 0 = some 0) (by decide)
    ⟨by decide,by decide,by decide⟩ accepted (inMemoryLoaded _ _)

/- With the extents on the patch area the first of them takes the place of the number of dwords: 130,
for an image of 129. -/
theorem extentsOverDwords : ¬ ∀ (image sbs image' sbs' mem : Memory) (len patch : Nat) (args : Args), sectorSize + 4 ≤ len →
    findMagic image (len / 4) 0 = some patch → patch + patchSize ≤ sectorSize → syslinuxPatch image sbs len args = some (image',sbs') →
    Loaded mem image' len → bootChecksum mem patch = 0 := by
  intro all
  obtain ⟨sbs',accepted⟩ := smallAccepted 12 (by decide)
  have loaded := inMemoryLoaded (patched 12) 1
  have zero := all _ _ _ _ _ 516 0 _ (by decide) (by decide) (by decide) accepted loaded
  have found : findMagic (smallImage 12) (516 / 4) 0 = some 0 := by decide
  have counted : get 4 (inMemory (patched 12) 1) (loadAddress + dwords 0) = 128 + (1 + 1) :=
    (loadedDwords (by decide) (by decide) loaded).trans (by decide)
  have sum := (loadedTotal loaded).trans (patchedSum found (by decide) accepted)
  rw [bootChecksumTotal (by decide) counted (by decide),show 128 + (1 + 1) = 516 / 4 + 1 from rfl,totalAppend,sum] at zero
  exact absurd zero (by decide)

end
end Syslinux.PatchChecksum
