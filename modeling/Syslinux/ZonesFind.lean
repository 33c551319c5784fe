import Syslinux.Zones

/-! syslinux_memmap_find_type and syslinux_memmap_find: both take the first zone in which the
rounded start leaves enough room. Rounding a start above the last multiple of the alignment
gives 0, which passes every test that follows. -/
namespace Syslinux.Zones
open Zonelist Zonelist.MemmapType Movebits Align

structure Search where
  type : MemmapType
  bounds : Bounds
  need : Nat
  align : Nat

def Search.cap (g : Search) (s : Span) : Nat := min s.hi g.bounds.endMax

/- The zones the loop does not skip: the last zone of the map ends at 0 for it. -/
def Search.looks (g : Search) (s : Span) : Prop := s.type = g.type ∧ g.bounds.endMin < s.hi % 2^32
instance (g : Search) (s : Span) : Decidable (g.looks s) := by unfold Search.looks; infer_instance

def Search.offer (g : Search) (s : Span) : Option (Span × Nat) :=
  let x := alignUp (max s.lo g.bounds.startMin) g.align
  if g.looks s ∧ x ≤ g.bounds.startMax ∧ x < g.cap s ∧ g.need ≤ g.cap s - x then some (s,x) else none

structure Search.FitsIn (g : Search) (s : Span) (y : Nat) : Prop where
  type : s.type = g.type
  upwards : g.bounds.endMin < s.hi
  aligned : g.align ∣ y
  min : g.bounds.startMin ≤ y
  max : y ≤ g.bounds.startMax
  lo : s.lo ≤ y
  below : y < g.cap s
  room : y + g.need ≤ g.cap s

/- The start of the zone or the minimum lies above the last multiple of the alignment. -/
structure Search.Wraps (g : Search) (s : Span) : Prop where
  looks : g.looks s
  high : 2^32 < max s.lo g.bounds.startMin + g.align
  nonempty : 0 < g.cap s
  room : g.need ≤ g.cap s

inductive FirstFit (list : List Zone) (g : Search) : Option (Span × Nat) → Prop where
  | missed (none' : ∀ s ∈ spans list, s.hi < 2^32 → ∀ y, ¬g.FitsIn s y) (never : ∀ s ∈ spans list, ¬g.Wraps s) :
      FirstFit list g none
  | fits {s x} (mem : s ∈ spans list) (fit : g.FitsIn s x) (below : s.hi < 2^32)
      (lowest : ∀ t ∈ spans list, ∀ y, g.FitsIn t y → x ≤ y)
      (first : ∀ t ∈ spans list, g.Wraps t → s.hi ≤ t.lo) : FirstFit list g (some (s,x))
  | wrapped {s} (mem : s ∈ spans list) (wraps : g.Wraps s)
      (none' : ∀ t ∈ spans list, t.hi ≤ s.lo → ∀ y, ¬g.FitsIn t y) : FirstFit list g (some (s,0))

section
variable {list : List Zone} {g : Search} {k : Nat} {s : Span}

theorem looksBelow (span : Spanned list s) (looks : g.looks s) : s.hi < 2^32 := by
  have := looks.2
  have := span.top
  omega

theorem offerProper (span : Spanned list s) (align : g.align = 2^k) (small : k < 32)
    (room : max s.lo g.bounds.startMin + g.align ≤ 2^32) :
    (∀ t x, g.offer s = some (t,x) → t = s ∧ g.looks s ∧ g.FitsIn s x ∧ ∀ y, g.FitsIn s y → x ≤ y) ∧
    (g.offer s = none → s.hi < 2^32 → ∀ y, ¬g.FitsIn s y) := by
  rw [align] at room
  have up := alignUpOk small room
  rw [← align] at up
  have least : ∀ y, g.FitsIn s y → alignUp (max s.lo g.bounds.startMin) g.align ≤ y :=
    fun y fit => up.lowest y fit.aligned (Nat.max_le.mpr ⟨fit.lo,fit.min⟩)
  have low := Nat.max_le.mp up.le
  unfold Search.offer
  constructor
  · intro t x ok
    obtain ⟨⟨looks,max',below,need⟩,eq⟩ := Option.ite_none_right_eq_some.mp ok
    cases Option.some.inj eq
    have hi := looksBelow span looks
    refine ⟨rfl,looks,⟨looks.1,?_,up.aligned,low.2,max',low.1,below,by omega⟩,least⟩
    have := looks.2
    omega
  · intro failed hi y fit
    have le := least y fit
    have looks : g.looks s := ⟨fit.type,by have := fit.upwards; omega⟩
    have below := fit.below
    have need := fit.room
    have max' := fit.max
    rw [if_pos ⟨looks,by omega,by omega,by omega⟩] at failed
    contradiction

theorem offerWraps (span : Spanned list s) (align : g.align = 2^k) (small : k < 32)
    (min' : g.bounds.startMin < 2^32) (high : 2^32 < max s.lo g.bounds.startMin + g.align) :
    (∀ t x, g.offer s = some (t,x) → t = s ∧ x = 0 ∧ g.Wraps s) ∧ (g.Wraps s → g.offer s ≠ none) ∧
      ∀ y, ¬g.FitsIn s y := by
  have inside := span.nonempty
  have top := span.top
  have wraps := alignUpWraps small (by omega : max s.lo g.bounds.startMin < 2^32) (align ▸ high)
  rw [← align] at wraps
  unfold Search.offer
  simp only [wraps.1]
  refine ⟨?_,?_,?_⟩
  · intro t x ok
    obtain ⟨⟨looks,_,below,need⟩,eq⟩ := Option.ite_none_right_eq_some.mp ok
    cases Option.some.inj eq
    exact ⟨rfl,rfl,looks,high,below,by omega⟩
  · intro w
    rw [if_pos ⟨w.looks,Nat.zero_le _,w.nonempty,w.room⟩]
    simp
  · intro y fit
    have up := wraps.2 y fit.aligned (Nat.max_le.mpr ⟨fit.lo,fit.min⟩)
    have below := fit.below
    unfold Search.cap at below
    omega

theorem firstFit (wf : WellFormed list) (align : g.align = 2^k) (small : k < 32) (min' : g.bounds.startMin < 2^32) :
    FirstFit list g ((spans list).findSome? g.offer) := by
  have order := spansOrdered wf
  -- an offer of none leaves nothing behind: no fit below 2^32 and no wrap
  have passed : ∀ s ∈ spans list, g.offer s = none → (s.hi < 2^32 → ∀ y, ¬g.FitsIn s y) ∧ ¬g.Wraps s := by
    intro s mem failed
    by_cases high : 2^32 < max s.lo g.bounds.startMin + g.align
    · obtain ⟨_,offers,none'⟩ := offerWraps (spanned wf mem) align small min' high
      exact ⟨fun _ => none',fun w => offers w failed⟩
    · exact ⟨(offerProper (spanned wf mem) align small (by omega)).2 failed,fun w => high w.high⟩
  cases found : (spans list).findSome? g.offer with
  | none =>
    have all := List.findSome?_eq_none_iff.mp found
    exact .missed (fun s mem => (passed s mem (all s mem)).1) (fun s mem => (passed s mem (all s mem)).2)
  | some pair =>
    obtain ⟨t,x⟩ := pair
    obtain ⟨before,s,after,split,offered,earlier⟩ := List.findSome?_eq_some_iff.mp found
    have mem : s ∈ spans list := by simp [split]
    have place : ∀ t ∈ spans list, t ∈ before ∨ t = s ∨ s.hi ≤ t.lo := by
      intro t memT
      rw [split] at memT order
      rcases List.mem_append.mp memT with early | rest
      · exact Or.inl early
      · rcases List.mem_cons.mp rest with same | late
        · exact Or.inr (Or.inl same)
        · exact Or.inr (Or.inr ((List.pairwise_cons.mp (List.pairwise_append.mp order).2.1).1 t late))
    have earlyHi : ∀ t ∈ before, t ∈ spans list ∧ t.hi ≤ s.lo := by
      intro t early
      rw [split] at order
      exact ⟨by simp [split,early],(List.pairwise_append.mp order).2.2 t early s List.mem_cons_self⟩
    have nonempty := (spanned wf mem).nonempty
    have top := (spanned wf mem).top
    have earlyNone : ∀ t ∈ before, (∀ y, ¬g.FitsIn t y) ∧ ¬g.Wraps t := by
      intro t early
      obtain ⟨memT,hi⟩ := earlyHi t early
      obtain ⟨none',never⟩ := passed t memT (earlier t early)
      exact ⟨none' (by omega),never⟩
    by_cases high : 2^32 < max s.lo g.bounds.startMin + g.align
    · obtain ⟨rfl,rfl,wraps⟩ := (offerWraps (spanned wf mem) align small min' high).1 t x offered
      refine .wrapped mem wraps ?_
      intro t memT hi
      rcases place t memT with early | rfl | late
      · exact (earlyNone t early).1
      · omega
      · have := (spanned wf memT).nonempty
        omega
    · obtain ⟨rfl,looks,fit,least⟩ := (offerProper (spanned wf mem) align small (by omega)).1 t x offered
      refine .fits mem fit (looksBelow (spanned wf mem) looks) ?_ ?_
      · intro t memT y fitT
        rcases place t memT with early | rfl | late
        · exact absurd fitT ((earlyNone t early).1 y)
        · exact least y fitT
        · have lo := fitT.lo
          have below := fit.below
          unfold Search.cap at below
          omega
      · intro t memT w
        rcases place t memT with early | rfl | late
        · exact absurd w (earlyNone t early).2
        · exact absurd w.high high
        · exact late

theorem foldOffers {α : Type} (answer : Span × Nat → α) (l : List Span) :
    l.foldr (fun s later => ((g.offer s).map answer).or later) none = (l.findSome? g.offer).map answer := by
  induction l with
  | nil => rfl
  | cons s rest ih =>
    rw [List.foldr_cons,ih,List.findSome?_cons]
    cases g.offer s <;> rfl

end

theorem maxEq (a b : Nat) : (if a < b then b else a) = max a b := by
  split <;> omega

theorem alignUpSmall (p a : Nat) : alignUp p a < 2^32 :=
  Nat.lt_of_le_of_lt Nat.and_le_left (Nat.mod_lt _ (by decide))

/- Without bounds but the minimum start: the search of syslinux_memmap_find_type. -/
def typeSearch (type : MemmapType) (start len align : Nat) : Search := ⟨type,⟨start,2^32,0,2^32⟩,len,align⟩

theorem findTypeEq {list : List Zone} (wf : WellFormed list) (type : MemmapType) (start len align : Nat) :
    findTypeFrom type start len align list =
      ((spans list).findSome? (typeSearch type start len align).offer).map (fun p => ⟨p.2,p.1.hi - p.2⟩) := by
  rw [← foldOffers]
  refine walkSpans (findTypeFrom type start len align) _ none ?_ ?_ (suffixWhole wf)
  · intro z rest isEnd
    cases rest with
    | nil => rfl
    | cons next tail => simp [findTypeFrom,isEnd]
  · intro z next rest proper nstart above top
    have small := alignUpSmall (max z.start start) align
    obtain ⟨x,rounded⟩ : ∃ x, alignUp (max z.start start) align = x := ⟨_,rfl⟩
    rw [findTypeFrom,if_neg proper,Search.offer]
    simp only [maxEq,Search.cap,Search.looks,typeSearch,rounded]
    rw [rounded] at small
    by_cases isLast : zoneEnd next = 2^32
    · rw [if_neg (by omega),if_neg (by simp [isLast])]
      rfl
    · have same : next.start = zoneEnd next := by omega
      rw [same,Nat.mod_eq_of_lt (by omega),Nat.min_eq_left top]
      by_cases taken : z.type = type ∧ x < zoneEnd next ∧ len ≤ zoneEnd next - x
      · rw [if_pos taken,if_pos ⟨⟨taken.1,by omega⟩,by omega,taken.2.1,taken.2.2⟩]
        rfl
      · rw [if_neg taken,if_neg (fun h => taken ⟨h.1.1,h.2.2.1,h.2.2.2⟩)]
        rfl

structure FindTypeSpec (list : List Zone) (type : MemmapType) (start len align : Nat) (r : FoundType) : Prop where
  found : r.rv = 0 → align ∣ r.start ∧ start ≤ r.start ∧ len ≤ r.len ∧
    (∃ s ∈ spans list, s.type = type ∧ s.lo ≤ r.start ∧ r.start + r.len = s.hi) ∧
    ∀ s ∈ spans list, ∀ y, (typeSearch type start len align).FitsIn s y → r.start ≤ y
  none : r.rv = -1 → ∀ s ∈ spans list, s.hi < 2^32 → ∀ y, ¬(typeSearch type start len align).FitsIn s y

def Search.Unwrapped (g : Search) (list : List Zone) : Prop :=
  ∀ s ∈ spans list, g.Wraps s → ∃ t ∈ spans list, t.hi ≤ s.lo ∧ ∃ y, g.FitsIn t y

theorem spanOfEnd {list : List Zone} (wf : WellFormed list) {s t : Span} (memS : s ∈ spans list)
    (memT : t ∈ spans list) (same : s.hi = t.hi) : s = t := by
  have someS := (spanned wf memS).nonempty
  have someT := (spanned wf memT).nonempty
  by_contra differ
  rcases spansApart wf memS memT differ with before | behind
  · omega
  · omega

theorem findTypeExact {list : List Zone} {start k : Nat} (wf : WellFormed list) (type : MemmapType) (len : Nat)
    (min' : start < 2^32) (small : k < 32) :
    FindTypeSpec list type start len (2^k) (syslinuxMemmapFindType list type start len (2^k)) ↔
      (typeSearch type start len (2^k)).Unwrapped list := by
  have first := firstFit (g := typeSearch type start len (2^k)) wf rfl small min'
  rw [syslinuxMemmapFindType,findTypeEq wf]
  generalize (spans list).findSome? (typeSearch type start len (2^k)).offer = answer at first
  cases first with
  | missed none' never =>
    constructor
    · intro _ s mem wraps
      exact absurd wraps (never s mem)
    · intro _
      exact ⟨by simp,fun _ => none'⟩
  | @fits s x mem fit below lowest first =>
    have cap : (typeSearch type start len (2^k)).cap s = s.hi := Nat.min_eq_left (spanned wf mem).top
    have under := fit.below
    have room := fit.room
    rw [cap] at under room
    constructor
    · intro _ t memT wraps
      exact ⟨s,mem,first t memT wraps,x,fit⟩
    · intro _
      refine ⟨fun _ => ⟨fit.aligned,fit.min,?_,⟨s,mem,fit.type,fit.lo,?_⟩,lowest⟩,by simp⟩
      · exact Nat.le_sub_of_add_le' room
      · simp only [Option.map_some]
        omega
  | @wrapped s mem wraps none' =>
    constructor
    · intro spec
      obtain ⟨_,low,_,⟨t,memT,_,lo,hi⟩,_⟩ := spec.found rfl
      simp only [Option.map_some] at low lo hi
      have same := spanOfEnd wf memT mem (by omega)
      subst same
      have high := wraps.high
      have power := powerLe small
      simp only [typeSearch] at high
      omega
    · intro unwrapped
      obtain ⟨t,memT,before,y,fit⟩ := unwrapped s mem wraps
      exact absurd fit (none' t memT before y)

theorem findTypeExactHigh :
    let list : List Zone := [⟨0,smtUndefined⟩,⟨0x100000,smtFree⟩,⟨0x8000000,smtReserved⟩,⟨0,smtEnd⟩]
    syslinuxMemmapFindType list smtFree 0x200800 0x1000 0x1000 = ⟨0,0x201000,0x7dff000⟩ ∧
    (FindTypeSpec list smtFree 0x200800 0x1000 (2^12) (syslinuxMemmapFindType list smtFree 0x200800 0x1000 (2^12)) ↔
      (typeSearch smtFree 0x200800 0x1000 (2^12)).Unwrapped list) :=
  ⟨by decide,findTypeExact (by simp [WellFormed,Follows]) smtFree 0x1000 (by decide) (by decide)⟩

/- The minimum start lies in the last page of memory: the answer is address 0. -/
theorem findTypeWraps :
    ¬ ∀ (list : List Zone) (type : MemmapType) (start len k : Nat), WellFormed list → start < 2^32 → len < 2^32 →
      k < 32 → FindTypeSpec list type start len (2^k) (syslinuxMemmapFindType list type start len (2^k)) := by
  intro claim
  have spec := claim [⟨0,smtUndefined⟩,⟨0x100000,smtFree⟩,⟨0x8000000,smtReserved⟩,⟨0,smtEnd⟩] smtFree 0xfffff800 0x1000 12
    (by simp [WellFormed,Follows]) (by decide) (by decide) (by decide)
  have answer : syslinuxMemmapFindType [⟨0,smtUndefined⟩,⟨0x100000,smtFree⟩,⟨0x8000000,smtReserved⟩,⟨0,smtEnd⟩]
      smtFree 0xfffff800 0x1000 (2^12) = ⟨0,0,0x8000000⟩ := by decide
  rw [answer] at spec
  exact absurd (spec.found rfl).2.1 (by decide)

def relocation (size align : Nat) (b : Bounds) : Search := ⟨smtFree,b,size,align⟩

theorem findEq {list : List Zone} (wf : WellFormed list) (size align : Nat) (b : Bounds) :
    findFrom size align b list = ((spans list).findSome? (relocation size align b).offer).map Prod.snd := by
  rw [← foldOffers]
  refine walkSpans (findFrom size align b) _ none ?_ ?_ (suffixWhole wf)
  · intro mp rest isEnd
    cases rest with
    | nil => rfl
    | cons next tail => simp [findFrom,isEnd]
  · intro mp next rest proper nstart above top
    obtain ⟨x,rounded⟩ : ∃ x, alignUp (max mp.start b.startMin) align = x := ⟨_,rfl⟩
    rw [findFrom,if_neg proper,Search.offer]
    simp only [maxEq,Search.cap,Search.looks,relocation,rounded]
    by_cases skipped : mp.type ≠ smtFree ∨ next.start ≤ b.endMin
    · rw [if_pos skipped,if_neg]
      · rfl
      · rintro ⟨⟨type,up⟩,_⟩
        rcases skipped with other | low
        · exact other type
        · omega
    · simp only [not_or,ne_eq,not_not,not_le] at skipped
      have same : next.start = zoneEnd next := by omega
      have stop : (if b.endMax < next.start then b.endMax else next.start) = min (zoneEnd next) b.endMax := by
        rw [same]
        split <;> omega
      rw [if_neg (by simp only [not_or,ne_eq,not_not,not_le]; exact skipped),stop]
      have looks : mp.type = smtFree ∧ b.endMin < zoneEnd next % 2^32 := ⟨skipped.1,by omega⟩
      by_cases outside : b.startMax < x ∨ min (zoneEnd next) b.endMax ≤ x
      · rw [if_pos outside,if_neg (by rintro ⟨_,le,less,_⟩; omega)]
        rfl
      · rw [if_neg outside]
        by_cases room : size ≤ min (zoneEnd next) b.endMax - x
        · rw [if_pos room,if_pos ⟨looks,by omega,by omega,room⟩]
          rfl
        · rw [if_neg room,if_neg (fun h => room h.2.2.2)]
          rfl

structure RelocationSpec (mmap : List Zone) (base size align : Nat) (b : Bounds) (r : Found) : Prop where
  found : r.rv = 0 → align ∣ r.start ∧ b.startMin ≤ r.start ∧ r.start ≤ b.startMax ∧
    r.start + size < 2^32 ∧ r.start + size ≤ b.endMax ∧
    (∀ a, r.start ≤ a → a < r.start + size → typeAt mmap a = smtFree) ∧
    ∀ s ∈ spans mmap, ∀ y, (relocation size align b).FitsIn s y → r.start ≤ y
  none : r.rv = -1 → r.start = base

theorem relocationExact {mmap : List Zone} {base size k : Nat} {b : Bounds} (wf : WellFormed mmap) (some' : 0 < size)
    (small : k < 32) (min' : b.startMin < 2^32) (max' : b.endMax < 2^32)
    (moves : validTerminalType (syslinuxMemmapType mmap base size) = false) :
    RelocationSpec mmap base size (2^k) b (syslinuxMemmapFind mmap base size true (2^k) b) ↔
      (relocation size (2^k) b).Unwrapped mmap ∨ b.startMin = 0 ∧ ∀ a, a < size → typeAt mmap a = smtFree := by
  have first := firstFit (g := relocation size (2^k) b) wf rfl small min'
  rw [syslinuxMemmapFind,if_neg (by omega),moves,if_neg (by decide),if_neg (by decide),findEq wf]
  generalize (spans mmap).findSome? (relocation size (2^k) b).offer = answer at first
  cases first with
  | missed none' never =>
    constructor
    · intro _
      exact Or.inl (fun s mem wraps => absurd wraps (never s mem))
    · intro _
      exact ⟨by simp,fun _ => rfl⟩
  | @fits s x mem fit below lowest first =>
    constructor
    · intro _
      exact Or.inl (fun t memT wraps => ⟨s,mem,first t memT wraps,x,fit⟩)
    · intro _
      have room := fit.room
      simp only [Search.cap,relocation] at room
      refine ⟨fun _ => ⟨fit.aligned,fit.min,fit.max,by simp only [Option.map_some]; omega,
        by simp only [Option.map_some]; omega,?_,lowest⟩,by simp⟩
      intro a from' upto
      simp only [Option.map_some] at from' upto
      have lo := fit.lo
      rw [(spanned wf mem).typed a (by omega) (by omega)]
      exact fit.type
  | @wrapped s mem wraps none' =>
    constructor
    · intro spec
      obtain ⟨_,low,_,_,_,free,_⟩ := spec.found rfl
      simp only [Option.map_some,Nat.le_zero_eq,Nat.zero_add,Nat.zero_le,true_implies] at low free
      exact Or.inr ⟨low,free⟩
    · rintro (unwrapped | ⟨low,free⟩)
      · obtain ⟨t,memT,before,y,fit⟩ := unwrapped s mem wraps
        exact absurd fit (none' t memT before y)
      · have room := wraps.room
        simp only [Search.cap,relocation] at room
        refine ⟨fun _ => ⟨Nat.dvd_zero _,by simp only [Option.map_some]; omega,Nat.zero_le _,
          by simp only [Option.map_some]; omega,by simp only [Option.map_some]; omega,?_,fun _ _ _ _ => Nat.zero_le _⟩,
          by simp⟩
        intro a _ upto
        simp only [Option.map_some,Nat.zero_add] at upto
        exact free a upto

/- A relocatable kernel whose preferred place is taken. -/
theorem relocationExactKernel :
    let mmap : List Zone := [⟨0,smtReserved⟩,⟨0x1000000,smtFree⟩,⟨0x8000000,smtReserved⟩,⟨0,smtEnd⟩]
    let b : Bounds := ⟨0x100000,0xffffffff,0x100000,0xffffffff⟩
    syslinuxMemmapFind mmap 0x100000 0x800000 true 0x200000 b = ⟨0,0x1000000⟩ ∧
    (RelocationSpec mmap 0x100000 0x800000 (2^21) b (syslinuxMemmapFind mmap 0x100000 0x800000 true (2^21) b) ↔
      (relocation 0x800000 (2^21) b).Unwrapped mmap ∨ b.startMin = 0 ∧ ∀ a, a < 0x800000 → typeAt mmap a = smtFree) :=
  ⟨by decide,relocationExact (by simp [WellFormed,Follows]) (by decide) (by decide) (by decide) (by decide) (by decide)⟩

/- The alignment the kernel asks for is 2^31: the start of the free zone rounds up to 2^32. -/
theorem relocationWraps :
    ¬ ∀ (mmap : List Zone) (base size k : Nat) (b : Bounds), WellFormed mmap → base < 2^32 → 0 < size → size < 2^32 →
      k < 32 → b.startMin < 2^32 → b.startMax < 2^32 → b.endMin < 2^32 → b.endMax < 2^32 →
      validTerminalType (syslinuxMemmapType mmap base size) = false →
      RelocationSpec mmap base size (2^k) b (syslinuxMemmapFind mmap base size true (2^k) b) := by
  intro claim
  have spec := claim [⟨0,smtReserved⟩,⟨0x90000000,smtFree⟩,⟨0xa0000000,smtReserved⟩,⟨0,smtEnd⟩] 0x100000 0x800000 31
    ⟨0x100000,0xffffffff,0x100000,0xffffffff⟩ (by simp [WellFormed,Follows]) (by decide) (by decide) (by decide)
    (by decide) (by decide) (by decide) (by decide) (by decide) (by decide)
  have answer : syslinuxMemmapFind [⟨0,smtReserved⟩,⟨0x90000000,smtFree⟩,⟨0xa0000000,smtReserved⟩,⟨0,smtEnd⟩] 0x100000
      0x800000 true (2^31) ⟨0x100000,0xffffffff,0x100000,0xffffffff⟩ = ⟨0,0⟩ := by decide
  rw [answer] at spec
  exact absurd (spec.found rfl).2.1 (by decide)

end Syslinux.Zones
