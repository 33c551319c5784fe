import Mathlib.Data.List.TakeWhile
import Syslinux.Machine
import Syslinux.Searchdir

/-! The mangling of file names: generic_mangle_name of core/fs/lib/mangle.c and
vfat_mangle_name of core/fs/fat/fat.c, into a buffer of FILENAME_MAX bytes. A source
string is the bytes in front of its NUL. -/
namespace Syslinux.Mangle
open Searchdir (Bytes cstr slash)

def filenameMax : Nat := 2^8
def backslash : UInt8 := 92

def notWhitespace (c : UInt8) : Bool := 32 < c.toNat

/- The first loop, with `k` bytes copied: the memory, dst - p and i. What is stored is
*src, in vfat_mangle_name too. -/
@[grind =] def copy (sep : UInt8 → Bool) (p : Nat) : Bytes → (Nat → UInt8) → Nat → Int → (Nat → UInt8) × Nat × Int
  | [],mem,k,i => (mem,k,i)
  | c::src,mem,k,i =>
      if notWhitespace c then
        if sep c && src.head?.any sep then copy sep p src mem k (i - 1)
        else copy sep p src (store mem (p + k) [c]) (k + 1) (i - 1)
      else (mem,k,i)

@[grind =] def strip (mem : Nat → UInt8) (p : Nat) : Nat → Int → Nat × Int
  | 0,i => (0,i)
  | k+1,i =>
      if mem (p + k) ≠ slash then (k + 1,i)
      else if k = 0 then (k + 1,i)
      else strip mem p k (i + 1)

def pad (mem : Nat → UInt8) (q : Nat) : Nat → Nat → UInt8
  | 0 => mem
  | n+1 => pad (store mem q [0]) (q + 1) n

def mangleName (sep : UInt8 → Bool) (mem : Nat → UInt8) (dst : Nat) (src : Bytes) : Nat → UInt8 :=
  let (mem,k,i) := copy sep dst src mem 0 (filenameMax - 1)
  let (k,i) := strip mem dst k i
  pad mem (dst + k) (i + 1).toNat

def isSlash (c : UInt8) : Bool := c = slash

/- vfat_mangle_name compares a backslash as if it were a slash. -/
def isSlashOrBackslash (c : UInt8) : Bool := c = slash || c = backslash

def genericMangleName := mangleName isSlash
def vfatMangleName := mangleName isSlashOrBackslash

/- The part of the source in front of the first whitespace, what the first loop keeps of
it, and what the second leaves. -/
def name (src : Bytes) : Bytes := src.takeWhile notWhitespace

@[grind =] def collapse (sep : UInt8 → Bool) : Bytes → Bytes
  | [] => []
  | c::src =>
      if notWhitespace c then
        if sep c && src.head?.any sep then collapse sep src else c::collapse sep src
      else []

def trim (text : Bytes) : Bytes := if 1 < text.length ∧ text.getLast? = some slash then text.dropLast else text

section
variable {sep : UInt8 → Bool} {mem : Nat → UInt8} {p : Nat}

theorem copyEq (src : Bytes) (mem : Nat → UInt8) (k : Nat) (i : Int) : copy sep p src mem k i =
    (store mem (p + k) (collapse sep src),k + (collapse sep src).length,i - (name src).length) := by
  induction src generalizing mem k i with
  | nil => simp [copy,collapse,name,storeNothing]
  | cons c src ih =>
    rw [copy,collapse,name,List.takeWhile_cons]
    by_cases black : notWhitespace c = true
    · simp only [if_pos black]
      by_cases skipped : (sep c && src.head?.any sep) = true
      · simp only [if_pos skipped]
        rw [ih]
        simp only [name,List.length_cons]
        congr 2
        omega
      · simp only [if_neg skipped]
        rw [ih,show p + (k + 1) = p + k + [c].length from rfl,storeAppend]
        simp only [name,List.length_cons,List.cons_append,List.nil_append,Prod.mk.injEq,true_and]
        constructor <;> omega
    · simp only [if_neg black]
      simp [storeNothing]

def Apart (sep : UInt8 → Bool) (text : Bytes) : Prop := text.IsChain (fun c d => ¬ (sep c = true ∧ sep d = true))

theorem collapseHead {src : Bytes} {d : UInt8} (head : (collapse sep src).head? = some d) (separator : sep d = true) :
    src.head?.any sep = true := by
  cases src with
  | nil => simp [collapse] at head
  | cons c src =>
    rw [collapse] at head
    split at head
    · split at head
      · rename_i skipped
        simp only [Bool.and_eq_true] at skipped
        simpa using skipped.1
      · simp only [List.head?_cons,Option.some.injEq] at head
        subst head
        simpa using separator
    · simp at head

theorem collapseApart (sep : UInt8 → Bool) (src : Bytes) : Apart sep (collapse sep src) := by
  induction src with
  | nil => simp [collapse,Apart]
  | cons c src ih =>
    rw [collapse]
    split
    · split
      · exact ih
      · rename_i kept
        refine List.isChain_cons.mpr ⟨?_,ih⟩
        rintro d head ⟨separator,separator'⟩
        exact kept (by rw [separator,collapseHead head separator']; rfl)
    · simp [Apart]

theorem collapseBlack (sep : UInt8 → Bool) (src : Bytes) : ∀ c ∈ collapse sep src, notWhitespace c = true := by
  induction src with
  | nil => simp [collapse]
  | cons c src ih =>
    rw [collapse]
    split
    · rename_i black
      split
      · exact ih
      · intro d mem
        rcases List.mem_cons.mp mem with rfl | mem
        · exact black
        · exact ih d mem
    · simp

theorem collapseLength (sep : UInt8 → Bool) (src : Bytes) : (collapse sep src).length ≤ (name src).length := by
  induction src with
  | nil => simp [collapse]
  | cons c src ih =>
    rw [collapse,name,List.takeWhile_cons]
    split
    · split
      · exact Nat.le_succ_of_le ih
      · exact Nat.succ_le_succ ih
    · simp

theorem collapseSame {text : Bytes} (apart : Apart sep text) (black : ∀ c ∈ text, notWhitespace c = true) :
    collapse sep text = text ∧ name text = text := by
  refine ⟨?_,List.takeWhile_eq_self_iff.mpr black⟩
  induction text with
  | nil => rfl
  | cons c text ih =>
    obtain ⟨first,rest⟩ := List.isChain_cons.mp apart
    have kept : ¬ (sep c && text.head?.any sep) = true := by
      intro skipped
      simp only [Bool.and_eq_true,Option.any_eq_true] at skipped
      obtain ⟨separator,d,head,separator'⟩ := skipped
      exact first d head ⟨separator,separator'⟩
    rw [collapse,if_pos (black c (by simp)),if_neg kept,ih rest (fun d mem => black d (by simp [mem]))]

theorem stripEq (front : Bytes) (c : UInt8) (separator : sep slash = true) (apart : Apart sep (front ++ [c])) (i : Int) :
    strip (store mem p (front ++ [c])) p (front.length + 1) i =
      ((trim (front ++ [c])).length,i + ((front ++ [c]).length - (trim (front ++ [c])).length : Nat)) := by
  have last : store mem p (front ++ [c]) (p + front.length) = c := by
    rw [storeInside (by simp)]
    simp
  rw [strip,last,trim]
  by_cases plain : c = slash
  · rw [if_neg (not_not_intro plain)]
    rcases List.eq_nil_or_concat front with rfl | ⟨before,d,rfl⟩
    · simp
    · -- The byte in front of a trailing slash is no slash.
      rw [List.concat_eq_append] at apart last ⊢
      have here : store mem p (before ++ [d] ++ [c]) (p + before.length) = d := by
        rw [storeInside (by simp)]
        simp
      have other : d ≠ slash := by
        rintro rfl
        rw [List.append_assoc] at apart
        have pair := (List.isChain_append.mp apart).2.1
        simp only [List.cons_append,List.nil_append,List.isChain_cons_cons] at pair
        exact pair.1 ⟨separator,plain ▸ separator⟩
      have more : 1 < (before ++ [d] ++ [c]).length ∧ (before ++ [d] ++ [c]).getLast? = some slash := by simp [plain]
      rw [if_neg (by simp),if_pos more,show (before ++ [d]).length = before.length + 1 by simp,strip,here,if_pos other]
      simp only [List.dropLast_concat,List.length_append,List.length_cons,List.length_nil,Prod.mk.injEq,true_and]
      omega
  · rw [if_pos plain,if_neg (by simp [plain])]
    simp

theorem padEq (mem : Nat → UInt8) (q n : Nat) : pad mem q n = store mem q (List.replicate n 0) := by
  induction n generalizing mem q with
  | zero => simp [pad,storeNothing]
  | succ n ih =>
    rw [pad,ih,show q + 1 = q + ([0] : Bytes).length from rfl,storeAppend]
    rfl

theorem trimCases (text : Bytes) : trim text = text ∨ text = trim text ++ [slash] ∧ trim text ≠ [] := by
  rw [trim]
  split
  · rename_i more
    obtain ⟨front,rfl⟩ := List.getLast?_eq_some_iff.mp more.2
    refine Or.inr ⟨by simp,?_⟩
    have := more.1
    intro empty
    simp_all
  · exact Or.inl rfl

def left (sep : UInt8 → Bool) (src : Bytes) : Int :=
  filenameMax - (name src).length + ((collapse sep src).length - (trim (collapse sep src)).length : Nat)

theorem mangleEq (separator : sep slash = true) (dst : Nat) (src : Bytes) : mangleName sep mem dst src =
    store (store mem dst (collapse sep src)) (dst + (trim (collapse sep src)).length)
      (List.replicate (left sep src).toNat 0) := by
  have stripped : strip (store mem dst (collapse sep src)) dst (collapse sep src).length
      ((filenameMax : Int) - 1 - (name src).length) = ((trim (collapse sep src)).length,left sep src - 1) := by
    have apart := collapseApart sep src
    unfold left
    generalize collapse sep src = text at apart
    rcases List.eq_nil_or_concat text with rfl | ⟨front,c,rfl⟩
    · simp [strip,trim]
      omega
    · rw [List.concat_eq_append] at apart ⊢
      rw [show (front ++ [c]).length = front.length + 1 by simp,stripEq front c separator apart]
      simp only [List.length_append,List.length_cons,List.length_nil,Prod.mk.injEq,true_and]
      omega
  rw [mangleName,copyEq]
  simp only [Nat.add_zero,Nat.zero_add]
  rw [stripped]
  simp only [Int.sub_add_cancel]
  exact padEq _ _ _

end

abbrev Mangler := (Nat → UInt8) → Nat → Bytes → Nat → UInt8

def result (mangle : Mangler) (mem : Nat → UInt8) (dst : Nat) (src : Bytes) : Bytes :=
  cstr (read (mangle mem dst src) dst filenameMax)

structure Mangled (mangle : Mangler) (mem : Nat → UInt8) (dst : Nat) (src : Bytes) : Prop where
  inside : ∀ a, a < dst ∨ dst + filenameMax ≤ a → mangle mem dst src a = mem a
  terminated : ∃ i, i < filenameMax ∧ mangle mem dst src (dst + i) = 0
  black : ∀ c ∈ result mangle mem dst src, notWhitespace c = true
  single : ∀ before after, result mangle mem dst src ≠ before ++ slash::slash::after
  trailing : (result mangle mem dst src).getLast? = some slash → result mangle mem dst src = [slash]
  again : ∀ mem' dst', result mangle mem' dst' (result mangle mem dst src) = result mangle mem dst src

/- The name and its NUL fit, where a slash that goes in the end is not counted. -/
def Fits (sep : UInt8 → Bool) (name : Bytes) : Prop :=
  name.length < filenameMax ∨
    name.length = filenameMax ∧ name.getLast? = some slash ∧ ∃ c ∈ name, sep c = false

def BackslashesSkipped (name : Bytes) : Prop :=
  ∀ before after, name = before ++ backslash::after → after.head?.any isSlashOrBackslash = true

section
variable {sep : UInt8 → Bool} (separator : sep slash = true) (plain : ∀ c, sep c = true → notWhitespace c = true)

theorem collapseMem {src : Bytes} {c : UInt8} (other : sep c = false) (mem : c ∈ name src) : c ∈ collapse sep src := by
  induction src with
  | nil => simp [name] at mem
  | cons d src ih =>
    rw [name,List.takeWhile_cons] at mem
    split at mem
    · rename_i black
      rw [collapse,if_pos black]
      rcases List.mem_cons.mp mem with rfl | mem
      · simp [other]
      · split
        · exact ih mem
        · exact List.mem_cons_of_mem _ (ih mem)
    · simp at mem

theorem memName {src : Bytes} {c : UInt8} (mem : c ∈ collapse sep src) : c ∈ name src := by
  induction src with
  | nil => simp [collapse] at mem
  | cons d src ih =>
    rw [name,List.takeWhile_cons]
    rw [collapse] at mem
    split at mem
    · rename_i black
      rw [if_pos black]
      split at mem
      · exact List.mem_cons_of_mem _ (ih mem)
      · rcases List.mem_cons.mp mem with rfl | mem
        · simp
        · exact List.mem_cons_of_mem _ (ih mem)
    · simp at mem

include plain in
theorem collapseLast (src : Bytes) : (collapse sep src).getLast? = (name src).getLast? := by
  induction src with
  | nil => rfl
  | cons c src ih =>
    rw [collapse,name,List.takeWhile_cons]
    split
    · split
      · rename_i skipped
        simp only [Bool.and_eq_true,Option.any_eq_true] at skipped
        obtain ⟨_,d,head,separator'⟩ := skipped
        cases src with
        | nil => simp at head
        | cons e src =>
          simp only [List.head?_cons,Option.some.injEq] at head
          subst head
          rw [ih,name,List.takeWhile_cons,if_pos (plain _ separator'),List.getLast?_cons_cons]
      · rw [List.getLast?_cons,List.getLast?_cons,ih,name]
    · rfl

include separator plain in
theorem trimmedIff (src : Bytes) : (trim (collapse sep src)).length < (collapse sep src).length ↔
    (name src).getLast? = some slash ∧ ∃ c ∈ name src, sep c = false := by
  rw [← collapseLast plain]
  constructor
  · intro less
    have stripped : 1 < (collapse sep src).length ∧ (collapse sep src).getLast? = some slash := by
      by_contra kept
      rw [trim,if_neg kept] at less
      omega
    refine ⟨stripped.2,?_⟩
    by_contra all
    push Not at all
    have apart := collapseApart sep src
    have mem : ∀ c ∈ collapse sep src, c ∈ name src := fun c here => memName here
    match eq : collapse sep src with
    | [] => simp [eq] at stripped
    | [_] => simp [eq] at stripped
    | c::d::rest =>
      rw [eq] at apart mem
      refine (List.isChain_cons_cons.mp apart).1 ⟨?_,?_⟩
      · exact Bool.eq_true_of_not_eq_false (all c (mem c (by simp)))
      · exact Bool.eq_true_of_not_eq_false (all d (mem d (by simp)))
  · rintro ⟨last,c,mem,other⟩
    have here := collapseMem other mem
    have more : 1 < (collapse sep src).length := by
      obtain ⟨front,eq⟩ := List.getLast?_eq_some_iff.mp last
      rw [eq] at here ⊢
      rcases List.mem_append.mp here with front' | same
      · have := List.length_pos_of_mem front'
        simp
        omega
      · simp only [List.mem_singleton] at same
        rw [same,separator] at other
        contradiction
    rw [trim,if_pos ⟨more,last⟩,List.length_dropLast]
    omega

theorem trimLength (text : Bytes) : (trim text).length ≤ text.length ∧ text.length ≤ (trim text).length + 1 := by
  rcases trimCases text with same | ⟨more,_⟩
  · rw [same]
    omega
  · have := congrArg List.length more
    simp only [List.length_append,List.length_cons,List.length_nil] at this
    omega

include separator plain in
theorem leftIff (src : Bytes) : 0 < left sep src ↔ Fits sep (name src) := by
  have iff := trimmedIff separator plain src
  obtain ⟨le,more⟩ := trimLength (collapse sep src)
  unfold left Fits
  constructor
  · intro positive
    by_cases short : (name src).length < filenameMax
    · exact Or.inl short
    · exact Or.inr ⟨by omega,iff.1 (by omega)⟩
  · rintro (short | ⟨full,last⟩)
    · omega
    · have := iff.2 last
      omega


include separator in
theorem mangleFits (mem : Nat → UInt8) (dst : Nat) {src : Bytes} (fits : 0 < left sep src) :
    mangleName sep mem dst src =
      store mem dst (trim (collapse sep src) ++ List.replicate (left sep src).toNat 0) ∧
    (trim (collapse sep src)).length + (left sep src).toNat ≤ filenameMax := by
  obtain ⟨le,_⟩ := trimLength (collapse sep src)
  have kept := collapseLength sep src
  have zeros : List.replicate (left sep src).toNat (0 : UInt8) ≠ [] := by simp; omega
  refine ⟨?_,by unfold left at *; omega⟩
  rw [mangleEq separator]
  rcases trimCases (collapse sep src) with same | ⟨more,_⟩
  · rw [same,storeAppend]
  · generalize trim (collapse sep src) = text at *
    rw [more,storeOver zeros]

theorem trimBlack (sep : UInt8 → Bool) (src : Bytes) : ∀ c ∈ trim (collapse sep src), notWhitespace c = true := by
  intro c mem
  refine collapseBlack sep src c ?_
  rcases trimCases (collapse sep src) with same | ⟨more,_⟩
  · rwa [same] at mem
  · rw [more]
    simp [mem]

theorem trimApart (sep : UInt8 → Bool) (src : Bytes) : Apart sep (trim (collapse sep src)) := by
  have apart := collapseApart sep src
  rw [trim]
  split
  · exact apart.dropLast
  · exact apart

theorem cstrFront {text : Bytes} (black : ∀ c ∈ text, notWhitespace c = true) (rest : Bytes) :
    cstr (text ++ 0::rest) = text := by
  unfold cstr
  rw [List.takeWhile_append_of_pos]
  · simp
  · intro c mem
    have := black c mem
    simp only [ne_eq,decide_eq_true_eq]
    rintro rfl
    contradiction

include separator in
theorem resultEq (mem : Nat → UInt8) (dst : Nat) {src : Bytes} (fits : 0 < left sep src) :
    result (mangleName sep) mem dst src = trim (collapse sep src) := by
  obtain ⟨eq,room⟩ := mangleFits separator mem dst fits
  obtain ⟨n,zeros⟩ : ∃ n, (left sep src).toNat = n + 1 := ⟨(left sep src).toNat - 1,by omega⟩
  obtain ⟨k,rest⟩ : ∃ k, filenameMax = (trim (collapse sep src)).length + (n + 1) + k :=
    ⟨filenameMax - ((trim (collapse sep src)).length + (n + 1)),by omega⟩
  have first : read (mangleName sep mem dst src) dst ((trim (collapse sep src)).length + (n + 1)) =
      trim (collapse sep src) ++ List.replicate (n + 1) 0 := by
    rw [eq,zeros,readInside (by simp),List.take_of_length_le (by simp)]
  rw [result,rest,readAppend,first,List.append_assoc]
  exact cstrFront (trimBlack sep src) _


theorem trimTrailing (src : Bytes) (separator : sep slash = true)
    (last : (trim (collapse sep src)).getLast? = some slash) : trim (collapse sep src) = [slash] := by
  obtain ⟨front,eq⟩ := List.getLast?_eq_some_iff.mp last
  rcases trimCases (collapse sep src) with same | ⟨more,_⟩
  · rw [same] at eq ⊢
    by_contra longer
    have stripped : 1 < (collapse sep src).length := by
      have : front ≠ [] := by
        rintro rfl
        exact longer (by rw [eq]; rfl)
      have := List.length_pos_iff.mpr this
      rw [eq]
      simp
      omega
    rw [same] at last
    have shorter := congrArg List.length same
    rw [trim,if_pos ⟨stripped,last⟩,List.length_dropLast] at shorter
    omega
  · -- Two slashes would stand side by side.
    have apart := collapseApart sep src
    rw [more,eq,List.append_assoc] at apart
    have pair := (List.isChain_append.mp apart).2.1
    simp only [List.cons_append,List.nil_append,List.isChain_cons_cons] at pair
    exact absurd ⟨separator,separator⟩ pair.1

include separator in
theorem fitsMangled (mem : Nat → UInt8) (dst : Nat) {src : Bytes} (fits : 0 < left sep src) :
    Mangled (mangleName sep) mem dst src := by
  obtain ⟨eq,room⟩ := mangleFits separator mem dst fits
  have text := resultEq separator mem dst fits
  have apart := trimApart sep src
  have black := trimBlack sep src
  have trailing := trimTrailing src separator
  refine ⟨?_,⟨(trim (collapse sep src)).length,by omega,?_⟩,?_,?_,?_,?_⟩
  · intro a outside
    rw [eq]
    exact storeOutside (by simp; omega)
  · have inside : (trim (collapse sep src)).length <
        (trim (collapse sep src) ++ List.replicate (left sep src).toNat (0 : UInt8)).length := by simp; omega
    rw [eq,storeInside inside]
    simp
  · rw [text]
    exact black
  · rw [text]
    intro before after double
    rw [double] at apart
    have pair := (List.isChain_append.mp apart).2.1
    exact (List.isChain_cons_cons.mp pair).1 ⟨separator,separator⟩
  · rw [text]
    exact trailing
  · intro mem' dst'
    rw [text]
    obtain ⟨same,whole⟩ := collapseSame apart black
    have untouched : trim (trim (collapse sep src)) = trim (collapse sep src) := by
      rw [trim,if_neg]
      rintro ⟨longer,last⟩
      rw [trailing last] at longer
      simp at longer
    have short : 0 < left sep (trim (collapse sep src)) := by
      unfold left
      rw [same,whole,untouched]
      omega
    rw [resultEq separator _ _ short,same,untouched]

include separator in
/- A name that does not fit is left without its NUL, in a buffer that holds none. -/
theorem tooLongUnterminated {src : Bytes} (long : ¬ 0 < left sep src) :
    ¬ ∀ mem dst, Mangled (mangleName sep) mem dst src := by
  intro claim
  obtain ⟨i,inside,zero⟩ := (claim (fun _ => 1) 0).terminated
  rw [mangleEq separator,show (left sep src).toNat = 0 by omega,List.replicate_zero,storeNothing] at zero
  by_cases here : i < (collapse sep src).length
  · rw [storeInside here] at zero
    have black := collapseBlack sep src _ (List.getElem_mem here)
    rw [zero] at black
    contradiction
  · rw [storeOutside (by omega)] at zero
    contradiction

include separator plain in
theorem mangledIff (src : Bytes) : (∀ mem dst, Mangled (mangleName sep) mem dst src) ↔ Fits sep (name src) := by
  rw [← leftIff separator plain]
  constructor
  · intro claim
    by_contra long
    exact tooLongUnterminated separator long claim
  · intro fits mem dst
    exact fitsMangled separator mem dst fits

end

theorem plainSlash (c : UInt8) (separator : isSlash c = true) : notWhitespace c = true := by
  obtain rfl : c = slash := by simpa [isSlash] using separator
  rfl

theorem plainBackslash (c : UInt8) (separator : isSlashOrBackslash c = true) : notWhitespace c = true := by
  simp only [isSlashOrBackslash,Bool.or_eq_true,decide_eq_true_eq] at separator
  rcases separator with rfl | rfl <;> rfl

theorem backslashesCons {c : UInt8} {text : Bytes} : BackslashesSkipped (c::text) ↔
    (c = backslash → text.head?.any isSlashOrBackslash = true) ∧ BackslashesSkipped text := by
  constructor
  · intro skipped
    refine ⟨?_,?_⟩
    · rintro rfl
      exact skipped [] text rfl
    · intro before after eq
      exact skipped (c::before) after (by rw [eq]; rfl)
  · rintro ⟨first,rest⟩ before after eq
    cases before with
    | nil =>
      obtain ⟨rfl,rfl⟩ := List.cons.inj eq
      exact first rfl
    | cons d before => exact rest before after (List.cons.inj eq).2

theorem backslashIff (src : Bytes) :
    backslash ∉ collapse isSlashOrBackslash src ↔ BackslashesSkipped (name src) := by
  induction src with
  | nil => simp [collapse,BackslashesSkipped,name]
  | cons c src ih =>
    have whole : name (c::src) = if notWhitespace c then c::name src else [] := List.takeWhile_cons
    have next : (name src).head?.any isSlashOrBackslash = src.head?.any isSlashOrBackslash := by
      cases src with
      | nil => rfl
      | cons d src =>
        rw [name,List.takeWhile_cons]
        split
        · rfl
        · rename_i white
          have other : isSlashOrBackslash d = false := by
            by_contra separator
            exact white (plainBackslash d (Bool.eq_true_of_not_eq_false separator))
          simp [other]
    rw [collapse,whole]
    by_cases black : notWhitespace c = true
    · rw [if_pos black,if_pos black,backslashesCons,← ih,next]
      by_cases skipped : (isSlashOrBackslash c && src.head?.any isSlashOrBackslash) = true
      · rw [if_pos skipped]
        simp only [Bool.and_eq_true] at skipped
        simp [skipped.2]
      · rw [if_neg skipped,List.mem_cons,not_or]
        refine and_congr_left fun _ => ?_
        constructor
        · rintro other rfl
          exact absurd rfl other
        · rintro follows rfl
          exact skipped (by rw [follows rfl]; rfl)
    · rw [if_neg black,if_neg black]
      simp [BackslashesSkipped]

theorem backslashTrim (text : Bytes) : backslash ∈ trim text ↔ backslash ∈ text := by
  rcases trimCases text with same | ⟨more,_⟩
  · rw [same]
  · conv_rhs => rw [more,List.mem_append]
    simp [show backslash ≠ slash by decide]

/- generic_mangle_name does what it says for the names that fit, vfat_mangle_name for
those of them in which no backslash is kept. -/
theorem mangledNames (src : Bytes) :
    ((∀ mem dst, Mangled genericMangleName mem dst src) ↔ Fits isSlash (name src)) ∧
    ((∀ mem dst, Mangled vfatMangleName mem dst src ∧ backslash ∉ result vfatMangleName mem dst src) ↔
      Fits isSlashOrBackslash (name src) ∧ BackslashesSkipped (name src)) := by
  refine ⟨mangledIff rfl plainSlash src,?_⟩
  have iff : (∀ mem dst, Mangled vfatMangleName mem dst src) ↔ Fits isSlashOrBackslash (name src) :=
    mangledIff rfl plainBackslash src
  have kept : backslash ∉ trim (collapse isSlashOrBackslash src) ↔ BackslashesSkipped (name src) := by
    rw [backslashTrim,backslashIff]
  constructor
  · intro claim
    have fits := iff.1 fun mem dst => (claim mem dst).1
    refine ⟨fits,kept.mp ?_⟩
    have absent := (claim (fun _ => 0) 0).2
    rwa [vfatMangleName,resultEq rfl _ _ ((leftIff rfl plainBackslash src).mpr fits)] at absent
  · rintro ⟨fits,skipped⟩ mem dst
    refine ⟨iff.2 fits mem dst,?_⟩
    rw [vfatMangleName,resultEq rfl _ _ ((leftIff rfl plainBackslash src).mpr fits)]
    exact kept.mpr skipped

/- 257 bytes overrun the buffer, and a backslash stays where it is. -/
set_option maxRecDepth 8000 in
theorem mangledNamesNot :
    ¬ (∀ mem dst src, Mangled genericMangleName mem dst src) ∧
    ¬ ∀ mem dst src, backslash ∉ result vfatMangleName mem dst src := by
  constructor
  · intro claim
    have same := (claim (fun _ => 0) 0 (List.replicate 257 97)).inside 256 (Or.inr (by decide))
    have written : genericMangleName (fun _ => 0) 0 (List.replicate 257 97) 256 = 97 := by decide
    rw [written] at same
    contradiction
  · intro claim
    have absent := claim (fun _ => 0) 0 [97,92,98]
    rw [vfatMangleName,resultEq rfl _ _ (by decide)] at absent
    exact absent (by decide)

end Syslinux.Mangle
