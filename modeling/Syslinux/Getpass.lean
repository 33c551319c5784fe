import Syslinux.Opal
import Syslinux.Searchdir

/-! ask_passwd of com32/msedpba/getpass.c, next to the text that the user has typed. The buffer is
cleared once; after that only the pointer p says where the text ends, and what was behind it stays. -/
namespace Syslinux.Getpass
open Searchdir (Bytes cstr)
open Opal (DiskInfo Port unlockOpal)

def width : Nat := 256

def keyCtrl (c : Char) : Int := (c.toNat &&& 0x1f : Nat)
def keyBackspace : Int := 0x08
def keyEnter : Int := 0x0d
def keyEsc : Int := 0x1b
def keyDel : Int := 0x7f
def keyDelete : Int := 0x129

def Erases (key : Int) : Prop := key = keyBackspace ∨ key = keyDel ∨ key = keyDelete
def Printable (key : Int) : Prop := 0x20 ≤ key ∧ key ≤ 0xff

instance (key) : Decidable (Erases key) := by unfold Erases; infer_instance
instance (key) : Decidable (Printable key) := by unfold Printable; infer_instance

/- The WIDTH bytes of user_passwd that are cleared, and p as an offset into them. -/
structure Line where
  buf : Bytes
  p : Nat
  deriving DecidableEq, Repr

inductive Press where
  | on (line : Line)
  | done (line : Line)
  deriving DecidableEq, Repr

def press (line : Line) (key : Int) : Press :=
  if key = keyEnter ∨ key = keyCtrl 'J' then .done line
  else if key = keyEsc ∨ key = keyCtrl 'C' then .done { line with p := 0 }
  else if Erases key then .on { line with p := line.p - 1 }
  else if key = keyCtrl 'U' then .on { line with p := 0 }
  else if Printable key ∧ line.p < width - 1 then .on ⟨line.buf.set line.p (UInt8.ofNat key.toNat),line.p + 1⟩
  else .on line

def askLoop : Line → List Int → Option (Nat × Bytes)
  | _,[] => none
  | line,key::keys =>
      match press line key with
      | .on line => askLoop line keys
      | .done line => some (if line.p = 0 then 1 else 0,line.buf)

def askPasswd (keys : List Int) : Option (Nat × Bytes) := askLoop ⟨List.replicate width 0,0⟩ keys

def Ends (key : Int) : Prop := key = keyEnter ∨ key = keyCtrl 'J' ∨ key = keyEsc ∨ key = keyCtrl 'C'

instance (key) : Decidable (Ends key) := by unfold Ends; infer_instance

def typed (keys : List Int) : List Int := keys.takeWhile fun key => !decide (Ends key)

def edit (text : Bytes) (key : Int) : Bytes :=
  if Erases key then text.dropLast
  else if key = keyCtrl 'U' then []
  else if Printable key ∧ text.length < width - 1 then text ++ [UInt8.ofNat key.toNat]
  else text

def visible (keys : List Int) : Bytes := keys.foldl edit []

def Longest (keys : List Int) : Prop :=
  ∀ before, before <+: typed keys → (visible before).length ≤ (visible (typed keys)).length

instance (keys) : Decidable (Longest keys) :=
  decidable_of_iff (∀ before ∈ (typed keys).inits, (visible before).length ≤ (visible (typed keys)).length)
    (forall_congr' fun before => imp_congr_left (List.mem_inits before _))

/- The buffer begins with the text. In all it has the characters up to the most there have been. -/
structure Shows (line : Line) (text : Bytes) (most : Nat) : Prop where
  pointer : line.p = text.length
  front : line.buf.take text.length = text
  high : text.length ≤ most
  room : most < width
  filled : ∀ c ∈ line.buf.take most,c ≠ 0
  clear : line.buf.drop most = List.replicate (width - most) 0

section
variable {line line' : Line} {text buf : Bytes} {most : Nat} {key : Int}

theorem showsLength (shows' : Shows line text most) : line.buf.length = width := by
  have length := congrArg List.length shows'.clear
  rw [List.length_drop,List.length_replicate] at length
  have := shows'.room
  omega

theorem showsStart : Shows ⟨List.replicate width 0,0⟩ [] 0 :=
  ⟨rfl,rfl,Nat.le_refl 0,by decide,fun _ member => by simp at member,rfl⟩

theorem showsString (shows' : Shows line text most) : cstr line.buf = line.buf.take most := by
  have split := List.take_append_drop most line.buf
  obtain ⟨rest,zeros⟩ : ∃ rest, width - most = rest + 1 := ⟨width - most - 1,by have := shows'.room; omega⟩
  rw [shows'.clear,zeros,List.replicate_succ] at split
  have filled : ∀ c ∈ line.buf.take most, decide (c ≠ 0) = true := fun c member => decide_eq_true (shows'.filled c member)
  calc cstr line.buf = (line.buf.take most ++ 0 :: List.replicate rest 0).takeWhile (· ≠ 0) := by rw [split]; rfl
    _ = line.buf.take most := by rw [List.takeWhile_append_of_pos filled]; simp

theorem showsErased (shows' : Shows line text most) : Shows { line with p := line.p - 1 } text.dropLast most := by
  refine ⟨?_,?_,?_,shows'.room,shows'.filled,shows'.clear⟩
  · rw [List.length_dropLast]
    exact congrArg (· - 1) shows'.pointer
  · rw [List.length_dropLast,List.dropLast_eq_take]
    calc line.buf.take (text.length - 1) = (line.buf.take text.length).take (text.length - 1) := by
          rw [List.take_take,Nat.min_eq_left (Nat.sub_le _ _)]
      _ = text.take (text.length - 1) := by rw [shows'.front]
  · rw [List.length_dropLast]
    have := shows'.high
    omega

theorem showsTyped (shows' : Shows line text most) {c : UInt8} (plain : c ≠ 0) (room : text.length < width - 1) :
    Shows ⟨line.buf.set line.p c,line.p + 1⟩ (text ++ [c]) (max most (text.length + 1)) := by
  have length := showsLength shows'
  have high := shows'.high
  have room' := shows'.room
  have inside : text.length < line.buf.length := by rw [length]; omega
  have front : (line.buf.set text.length c).take (text.length + 1) = text ++ [c] := by
    rw [List.take_add_one,List.take_set_of_le (Nat.le_refl _),shows'.front]
    simp [inside]
  rw [shows'.pointer]
  refine ⟨by simp,by simpa using front,?_,?_,?_,?_⟩
  · simp
  · omega
  · intro d member
    obtain ⟨i,at',rfl⟩ := List.getElem_of_mem member
    rw [List.length_take,List.length_set] at at'
    rw [List.getElem_take,List.getElem_set]
    split_ifs with same
    · exact plain
    · have below : i < most := by omega
      exact shows'.filled _ (List.mem_take_iff_getElem.mpr ⟨i,by omega,rfl⟩)
  · rw [List.drop_set_of_lt (by omega)]
    calc line.buf.drop (max most (text.length + 1)) = (line.buf.drop most).drop (max most (text.length + 1) - most) := by
          rw [List.drop_drop]
          congr 1
          omega
      _ = List.replicate (width - max most (text.length + 1)) 0 := by
          rw [shows'.clear,List.drop_replicate]
          congr 1
          omega

theorem showsCleared (shows' : Shows line text most) : Shows { line with p := 0 } [] most :=
  ⟨rfl,rfl,Nat.zero_le _,shows'.room,shows'.filled,shows'.clear⟩

theorem printableByte (printable : Printable key) : UInt8.ofNat key.toNat ≠ 0 := by
  obtain ⟨low,high⟩ := printable
  intro zero
  have := congrArg UInt8.toNat zero
  rw [UInt8.toNat_ofNat_of_lt' (by show key.toNat < 256; omega)] at this
  simp at this
  omega

theorem pressOn (shows' : Shows line text most) (more : ¬ Ends key) : ∃ line', press line key = .on line' ∧
    Shows line' (edit text key) (max most (edit text key).length) := by
  have stop : ¬ (key = keyEnter ∨ key = keyCtrl 'J') := fun h => more (h.imp id Or.inl)
  have abort : ¬ (key = keyEsc ∨ key = keyCtrl 'C') := fun h => more (Or.inr (Or.inr h))
  unfold press edit
  rw [if_neg stop,if_neg abort]
  by_cases erases : Erases key
  · rw [if_pos erases,if_pos erases]
    refine ⟨_,rfl,?_⟩
    rw [Nat.max_eq_left (showsErased shows').high]
    exact showsErased shows'
  rw [if_neg erases,if_neg erases]
  by_cases clears : key = keyCtrl 'U'
  · rw [if_pos clears,if_pos clears]
    refine ⟨_,rfl,?_⟩
    rw [Nat.max_eq_left (showsCleared shows').high]
    exact showsCleared shows'
  rw [if_neg clears,if_neg clears,shows'.pointer]
  by_cases goes : Printable key ∧ text.length < width - 1
  · rw [if_pos goes,if_pos goes]
    refine ⟨_,rfl,?_⟩
    have typed' := showsTyped shows' (printableByte goes.1) goes.2
    rw [shows'.pointer] at typed'
    simpa using typed'
  · rw [if_neg goes,if_neg goes]
    refine ⟨_,rfl,?_⟩
    rw [Nat.max_eq_left shows'.high]
    exact shows'

/- Where ask_passwd returns 0, the buffer shows the text, and all there has been is the string in it. -/
theorem loopShows {keys : List Int} (shows' : Shows line text most) (ok : askLoop line keys = some (0,buf)) :
    ∃ last most', Shows last ((typed keys).foldl edit text) most' ∧ last.buf = buf ∧ most ≤ most' ∧
      (∀ before, before <+: typed keys → (before.foldl edit text).length ≤ most') ∧
      (most' = most ∨ ∃ before, before <+: typed keys ∧ (before.foldl edit text).length = most') := by
  induction keys generalizing line text most with
  | nil => cases ok
  | cons key keys ih =>
    by_cases stop : Ends key
    · have none' : typed (key::keys) = [] := by simp [typed,stop]
      rw [none']
      unfold askLoop press at ok
      have short : ∀ before, before <+: ([] : List Int) → (before.foldl edit text).length ≤ most := by
        intro before prefix'
        rw [List.prefix_nil.mp prefix']
        exact shows'.high
      by_cases enter : key = keyEnter ∨ key = keyCtrl 'J'
      · rw [if_pos enter] at ok
        exact ⟨line,most,shows',congrArg Prod.snd (Option.some.inj ok),Nat.le_refl _,short,Or.inl rfl⟩
      · rw [if_neg enter,if_pos (by unfold Ends at stop; tauto)] at ok
        cases ok
    · obtain ⟨line',on,shows''⟩ := pressOn shows' stop
      have more : typed (key::keys) = key::typed keys := by simp [typed,stop]
      rw [askLoop,on] at ok
      obtain ⟨last,most',shown,same,le,all,reached⟩ := ih shows'' ok
      rw [more]
      refine ⟨last,most',shown,same,Nat.le_trans (Nat.le_max_left _ _) le,?_,?_⟩
      · intro before prefix'
        cases before with
        | nil => exact Nat.le_trans shows'.high (Nat.le_trans (Nat.le_max_left _ _) le)
        | cons k before =>
          obtain ⟨rfl,rest⟩ := List.cons_prefix_cons.mp prefix'
          exact all before rest
      · rcases reached with rfl | ⟨before,prefix',length⟩
        · rcases Nat.le_total (edit text key).length most with short | long
          · exact Or.inl (Nat.max_eq_left short)
          · exact Or.inr ⟨[key],List.cons_prefix_cons.mpr ⟨rfl,List.nil_prefix⟩,(Nat.max_eq_right long).symm⟩
        · exact Or.inr ⟨key::before,List.cons_prefix_cons.mpr ⟨rfl,prefix'⟩,length⟩

end

/- The pass phrase is the text just when that has never been longer. -/
theorem phraseIff {keys : List Int} {buf : Bytes} (ok : askPasswd keys = some (0,buf)) :
    cstr buf = visible (typed keys) ↔ Longest keys := by
  obtain ⟨last,most,shown,rfl,_,all,reached⟩ := loopShows showsStart ok
  have length := showsLength shown
  have room := shown.room
  have text : visible (typed keys) = last.buf.take (visible (typed keys)).length := shown.front.symm
  rw [showsString shown,text]
  constructor
  · intro same before prefix'
    have lengths := congrArg List.length same
    rw [List.length_take,List.length_take,length] at lengths
    have high : (visible (typed keys)).length ≤ most := shown.high
    have below : (visible before).length ≤ most := all before prefix'
    omega
  · intro longest
    have high : most = (visible (typed keys)).length := by
      refine Nat.le_antisymm ?_ shown.high
      rcases reached with rfl | ⟨before,prefix',rfl⟩
      · exact Nat.zero_le _
      · exact longest before prefix'
    rw [high]

/- ask_passwd, and the pass phrase that unlockOpal is given: the same for the same text. -/
theorem passPhrase {keys keys' : List Int} {buf buf' : Bytes} (ok : askPasswd keys = some (0,buf))
    (ok' : askPasswd keys' = some (0,buf')) : (cstr buf = visible (typed keys) ↔ Longest keys) ∧
    (Longest keys → Longest keys' → visible (typed keys) = visible (typed keys') →
      ∀ hash d p, unlockOpal hash (cstr buf) d p = unlockOpal hash (cstr buf') d p) := by
  refine ⟨phraseIff ok,fun longest longest' same hash d p => ?_⟩
  rw [(phraseIff ok).mpr longest,(phraseIff ok').mpr longest',same]

/- "ab", and "ax" with the x replaced. -/
def plainKeys : List Int := [0x61,0x62,keyEnter]
def replacedKeys : List Int := [0x61,0x78,keyBackspace,0x62,keyEnter]

theorem passPhraseSmall : ∃ buf buf', askPasswd plainKeys = some (0,buf) ∧ askPasswd replacedKeys = some (0,buf') ∧
    ∀ hash d p, unlockOpal hash (cstr buf) d p = unlockOpal hash (cstr buf') d p := by
  obtain ⟨buf,ok⟩ : ∃ buf, askPasswd plainKeys = some (0,buf) := ⟨_,rfl⟩
  obtain ⟨buf',ok'⟩ : ∃ buf, askPasswd replacedKeys = some (0,buf) := ⟨_,rfl⟩
  exact ⟨buf,buf',ok,ok',(passPhrase ok ok').2 (by decide) (by decide) (by decide)⟩

/- "ab" with the b erased: the user sees a, and the pass phrase is ab. -/
theorem erasedStays : ¬ ∀ keys buf, askPasswd keys = some (0,buf) → cstr buf = visible (typed keys) := by
  intro claim
  have same := claim [0x61,0x62,keyBackspace,keyEnter] _ rfl
  revert same
  decide

end Syslinux.Getpass
