import Syslinux.ReadconfigParse

/-! copy_sysappend_string of com32/elflink/ldlinux/readconfig.c, in memory, and what it makes of the strings that
record appends to a command line. -/
namespace Syslinux.Sysappend
open Readconfig

abbrev Memory := Nat → UInt8

@[grind =] def copyLoop : Text → Memory → Nat → Nat → Bool → Memory × Nat
  | [],mem,_,end',_ => (mem,end')
  | c::src,mem,dst,end',wasSpace =>
      if c = 0 then (mem,end')
      -- c is a signed char
      else if (c.toNat < 33 ∨ 128 ≤ c.toNat) ∧ c = 127 then
        copyLoop src (if wasSpace then mem else Function.update mem dst 95) (if wasSpace then dst else dst + 1) end' true
      else copyLoop src (Function.update mem dst c) (dst + 1) (dst + 1) false

def copySysappendStringAt (mem : Memory) (dst : Nat) (src : Text) : Memory × Nat :=
  let r := copyLoop src mem dst dst true
  (Function.update r.1 r.2 0,r.2)

/- Control characters, spaces and DEL. -/
def separator (c : UInt8) : Bool := c ≤ 32 || c == 127

def words (t : Text) : List Text := (t.splitOnP separator).filter (· ≠ [])

def squeeze (t : Text) : Text := List.intercalate [95] (words t)

structure Holds (mem : Memory) (dst : Nat) (t : Text) : Prop where
  text : ∀ i (less : i < t.length), mem (dst + i) = t[i]
  final : mem (dst + t.length) = 0

structure Copies (src : Text) : Prop where
  copied : ∀ mem dst, Holds (copySysappendStringAt mem dst src).1 dst (squeeze (cstr src))
  returned : ∀ mem dst, (copySysappendStringAt mem dst src).2 = dst + (squeeze (cstr src)).length

def selected (env : Env) (ld : Labeldata) : List Text :=
  env.sysappendStrings.zipIdx.filterMap fun s =>
    match s.1 with
    | some (c::value) => if ld.ipappend.testBit s.2 then some (c::value) else none
    | _ => none

def OneWordEach (env : Env) (ld : Labeldata) (append : Option Text) : Prop :=
  words (cmdline env ld append) = words (cmdline env { ld with ipappend := 0 } append) ++ (selected env ld).map squeeze

section
variable {t src : Text} {mem : Memory} {dst : Nat}

theorem wordsSome : ∀ w ∈ words t, w ≠ [] := fun _ mem => of_decide_eq_true (List.mem_filter.mp mem).2

theorem splitPlain : ∀ w ∈ t.splitOnP separator, ∀ c ∈ w, separator c = false := by
  induction t with
  | nil => simp
  | cons c t ih =>
    rw [List.splitOnP_cons_eq_if_modifyHead]
    split
    · simpa using ih
    · rename_i plain
      obtain ⟨head,tail,parts⟩ := List.exists_cons_of_ne_nil (List.splitOnP_ne_nil separator t)
      rw [parts] at ih ⊢
      simp only [List.modifyHead_cons,List.mem_cons,forall_eq_or_imp] at ih ⊢
      exact ⟨⟨by simpa using plain,ih.1⟩,ih.2⟩

theorem wordsPlain : ∀ w ∈ words t, ∀ c ∈ w, separator c = false := fun w mem => splitPlain w (List.mem_of_mem_filter mem)

theorem wordsOfPlain (plain : ∀ c ∈ t, separator c = false) : words t = if t = [] then [] else [t] := by
  rw [words,List.splitOnP_eq_singleton plain]
  split <;> simp_all

theorem wordsSpace (a b : Text) : words (a ++ 32::b) = words a ++ words b := by
  rw [words,List.splitOnP_append_cons a b (show separator 32 = true by decide),List.filter_append]
  rfl

theorem intercalatePlain {ws : List Text} (plain : ∀ w ∈ ws, ∀ c ∈ w, separator c = false) :
    ∀ c ∈ List.intercalate [95] ws, separator c = false := by
  induction ws with
  | nil => simp
  | cons w ws ih =>
    have rest := ih fun w mem => plain w (List.mem_cons_of_mem _ mem)
    cases ws with
    | nil => simpa using plain w List.mem_cons_self
    | cons v vs =>
      rw [List.intercalate_cons_cons]
      intro c mem
      rcases List.mem_append.mp mem with mem | mem
      · rcases List.mem_append.mp mem with mem | mem
        · exact plain w List.mem_cons_self c mem
        · rw [List.mem_singleton.mp mem]
          decide
      · exact rest c mem

theorem squeezePlain : ∀ c ∈ squeeze t, separator c = false := intercalatePlain wordsPlain

theorem squeezeIff : squeeze t = t ↔ ∀ c ∈ t, separator c = false := by
  refine ⟨fun same => same ▸ squeezePlain,fun plain => ?_⟩
  rw [squeeze,wordsOfPlain plain]
  split
  · rename_i empty
    exact empty.symm
  · simp

/- The test for a space is never true, so that every character goes into the copy. -/
theorem noSpace (c : UInt8) : ¬ ((c.toNat < 33 ∨ 128 ≤ c.toNat) ∧ c = 127) := by
  rintro ⟨range,rfl⟩
  exact absurd range (by decide)

theorem copyLoopEnd (src : Text) (mem : Memory) (dst : Nat) (wasSpace : Bool) :
    (copyLoop src mem dst dst wasSpace).2 = dst + (cstr src).length := by
  induction src generalizing mem dst wasSpace with
  | nil => rfl
  | cons c src ih =>
    rw [copyLoop]
    split
    · rename_i nul
      simp [cstr,nul]
    · rename_i more
      rw [if_neg (noSpace c),ih]
      simp [cstr,more]
      omega

theorem copyLoopBefore (src : Text) (mem : Memory) {dst a : Nat} (wasSpace : Bool) (before : a < dst) :
    (copyLoop src mem dst dst wasSpace).1 a = mem a := by
  induction src generalizing mem dst wasSpace with
  | nil => rfl
  | cons c src ih =>
    rw [copyLoop]
    split
    · rfl
    · rw [if_neg (noSpace c),ih _ _ (Nat.lt_succ_of_lt before),Function.update_of_ne (Nat.ne_of_lt before)]

theorem copyLoopText (src : Text) (mem : Memory) (dst : Nat) (wasSpace : Bool) :
    ∀ i (less : i < (cstr src).length), (copyLoop src mem dst dst wasSpace).1 (dst + i) = (cstr src)[i] := by
  induction src generalizing mem dst wasSpace with
  | nil => exact fun i less => absurd less (Nat.not_lt_zero i)
  | cons c src ih =>
    intro i less
    by_cases nul : c = 0
    · simp [cstr,nul] at less
    have text : cstr (c::src) = c::cstr src := by simp [cstr,nul]
    rw [copyLoop,if_neg nul,if_neg (noSpace c)]
    simp only [text]
    cases i with
    | zero => rw [copyLoopBefore _ _ _ (by omega)]; simp
    | succ i =>
      have less : i < (cstr src).length := by simpa [text] using less
      have here := ih (Function.update mem dst c) (dst + 1) false i less
      rwa [show dst + 1 + i = dst + (i + 1) by omega] at here

theorem copyReturned (mem : Memory) (dst : Nat) (src : Text) : (copySysappendStringAt mem dst src).2 = dst + (cstr src).length :=
  copyLoopEnd src mem dst true

theorem copyHolds (mem : Memory) (dst : Nat) (src : Text) : Holds (copySysappendStringAt mem dst src).1 dst (cstr src) := by
  have final := copyReturned mem dst src
  constructor
  · intro i less
    rw [← copyLoopText src mem dst true i less]
    exact Function.update_of_ne (by rw [show (copyLoop src mem dst dst true).2 = dst + (cstr src).length from final]; omega) ..
  · rw [← final]
    exact Function.update_self ..

theorem copiesOneIff : Copies src ↔ ∀ c ∈ cstr src, separator c = false := by
  rw [← squeezeIff]
  constructor
  · intro copies
    have length : (squeeze (cstr src)).length = (cstr src).length := by
      have returned := copies.returned (fun _ => 0) 0
      rw [copyReturned] at returned
      omega
    refine List.ext_getElem length fun i less less' => ?_
    rw [← (copies.copied (fun _ => 0) 0).text i less,(copyHolds (fun _ => 0) 0 src).text i less']
  · intro same
    constructor <;> intro mem dst <;> rw [same]
    · exact copyHolds mem dst src
    · exact copyReturned mem dst src

theorem copyKept (src dst : Text) (wasSpace : Bool) : copySysappendString src wasSpace dst dst = dst ++ src := by
  induction src generalizing dst wasSpace with
  | nil => simp [copySysappendString]
  | cons c src ih => rw [copySysappendString,if_neg (noSpace c),ih,List.append_assoc]; rfl

def initrdOption (ld : Labeldata) : Text :=
  match ld.initrd with
  | some initrd => ascii " initrd=" ++ initrd
  | none => []

theorem ipoptionsEq (env : Env) (ld : Labeldata) :
    ipoptions env ld = initrdOption ld ++ (selected env ld).flatMap fun s => 32::s := by
  unfold ipoptions initrdOption selected
  congr 1
  generalize env.sysappendStrings.zipIdx = strings
  induction strings with
  | nil => rfl
  | cons s strings ih =>
    rw [List.flatMap_cons,List.filterMap_cons,ih]
    obtain ⟨string,i⟩ := s
    rcases string with _ | (_ | ⟨c,value⟩)
    · rfl
    · rfl
    · cases chosen : ld.ipappend.testBit i
      · simp
      · simp [copyKept]

def commandPart (ld : Labeldata) (append : Option Text) : Text :=
  let given := (ld.append <|> append).getD []
  let a := if given = [45] then [] else given
  let s : Text := if a = [] then [] else [32]
  let kernel := ld.kernel.getD []
  if ld.type = ktKernel then kernel ++ s ++ a else 46 :: ascii (kernelTypes.getD ld.type "") ++ 32 :: kernel ++ s ++ a

theorem cmdlineEq (env : Env) (ld : Labeldata) (append : Option Text) :
    cmdline env ld append = commandPart ld append ++ ipoptions env ld := by
  unfold cmdline commandPart
  simp only
  split <;> rfl

theorem wordsAppended (front : Text) (strings : List Text) :
    words (front ++ strings.flatMap fun s => 32::s) = words front ++ strings.flatMap words := by
  induction strings generalizing front with
  | nil => simp
  | cons s strings ih => rw [List.flatMap_cons,List.flatMap_cons,List.cons_append,wordsSpace,ih]

theorem wordsCmdline (env : Env) (ld : Labeldata) (append : Option Text) :
    words (cmdline env ld append) = words (commandPart ld append ++ initrdOption ld) ++ (selected env ld).flatMap words := by
  rw [cmdlineEq,ipoptionsEq,← List.append_assoc,wordsAppended]

theorem selectedNone (env : Env) (ld : Labeldata) : selected env { ld with ipappend := 0 } = [] := by
  refine List.filterMap_eq_nil_iff.mpr fun s _ => ?_
  simp only [Nat.zero_testBit,Bool.false_eq_true,if_false]
  split <;> rfl

theorem squeezedIff (strings : List Text) : strings.flatMap words = strings.map squeeze ↔ ∀ s ∈ strings, (words s).length = 1 := by
  induction strings with
  | nil => simp
  | cons s strings ih =>
    rw [List.flatMap_cons,List.map_cons,List.forall_mem_cons,← ih,squeeze]
    rcases parts : words s with _ | ⟨w,_ | ⟨v,ws⟩⟩
    · refine iff_of_false (fun same => ?_) (fun one => absurd one.1 (by simp))
      have inside : [] ∈ strings.flatMap words := by
        rw [List.nil_append] at same
        rw [same]
        exact List.mem_cons_self
      obtain ⟨_,_,mem⟩ := List.mem_flatMap.mp inside
      exact wordsSome _ mem rfl
    · simp
    · refine iff_of_false (fun same => ?_) (fun one => absurd one.1 (by simp))
      have first : w = List.intercalate [95] (w::v::ws) := (List.cons.inj same).1
      have lengths := congrArg List.length first
      rw [List.intercalate_cons_cons] at lengths
      simp at lengths

theorem oneWordIff (env : Env) (ld : Labeldata) (append : Option Text) :
    OneWordEach env ld append ↔ ∀ s ∈ selected env ld, (words s).length = 1 := by
  rw [← squeezedIff,OneWordEach,wordsCmdline,wordsCmdline,selectedNone,List.flatMap_nil,List.append_nil]
  exact List.append_right_inj _

theorem copiesIff (src : Text) (env : Env) (ld : Labeldata) (append : Option Text) :
    (Copies src ↔ ∀ c ∈ cstr src, separator c = false) ∧
    (OneWordEach env ld append ↔ ∀ s ∈ selected env ld, (words s).length = 1) :=
  ⟨copiesOneIff,oneWordIff env ld append⟩

/- A product name of two words. -/
theorem spaceCopied : ¬ ∀ src, Copies src := by
  intro all
  exact absurd (copiesOneIff.1 (all (ascii "Virtual Machine"))) (by decide)

end
end Syslinux.Sysappend
