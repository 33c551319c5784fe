import Syslinux.BootKernel

/-! Where bios_boot_linux puts the initramfs and the setup data. A range that wraps leaves amap out
of order, so what is known of the map is only what every splice keeps: how the chain ends, and
that no free zone ends above the limit. -/
namespace Syslinux.BootLinux
open Align Zonelist Zonelist.MemmapType Relocation Initramfs Zones
open Movebits (zoneEnd)

@[grind =] def Chained (limit : Nat) (previous : MemmapType) : List Zone → Prop
  | [] => False
  | z::rest => (previous = smtFree → zoneEnd z ≤ limit) ∧
      (z = ⟨0,smtEnd⟩ ∧ rest = [] ∨ z.type ≠ smtEnd ∧ 0 < z.start ∧ z.start < 2^32 ∧ Chained limit z.type rest)

def Capped (limit : Nat) : List Zone → Prop
  | [] => False
  | z::rest => z.start = 0 ∧ z.type ≠ smtEnd ∧ Chained limit z.type rest

section
variable {limit start last : Nat} {old : MemmapType} {list here : List Zone}

theorem chainedAlloc (h : Chained limit old here) : Chained limit smtAlloc here := by
  cases here with
  | nil => exact h
  | cons z rest => exact ⟨by simp,h.2⟩

theorem lastOfEnd : sub32 0 1 = 2^32 - 1 := by decide

theorem dropCoveredChained (small : last < 2^32) (proper : old ≠ smtEnd) (h : Chained limit old here) :
    (dropCovered last old here).1 ≠ smtEnd ∧
      Chained limit (dropCovered last old here).1 (dropCovered last old here).2 := by
  induction here generalizing old with
  | nil => exact absurd h (by simp [Chained])
  | cons mp rest ih =>
    rw [dropCovered]
    split
    next covered =>
      rcases h.2 with ⟨isEnd,_⟩ | ⟨proper',_,_,h'⟩
      · rw [isEnd,lastOfEnd] at covered
        omega
      · exact ih proper' h'
    · exact ⟨proper,h⟩

theorem endTokenChained (small : last < 2^32) (proper : old ≠ smtEnd) (h : Chained limit old here) :
    Chained limit smtAlloc (endToken last smtAlloc [] old here).list := by
  obtain ⟨proper',h'⟩ := dropCoveredChained small proper h
  unfold endToken
  split
  next eq =>
    rw [eq] at h'
    exact absurd h' (by simp [Chained])
  next old' mp rest eq =>
    rw [eq] at proper' h'
    dsimp only at proper' h'
    split
    next gap =>
      split
      · have room : sub32 mp.start 1 < 2^32 := by
          rcases h'.2 with ⟨isEnd,_⟩ | ⟨_,above,top,_⟩
          · rw [isEnd,lastOfEnd]
            omega
          · rw [sub32Eq above]
            omega
        exact ⟨by simp,Or.inr ⟨proper',by simp,by simp only; omega,h'⟩⟩
      · exact chainedAlloc h'
    · split
      next same =>
        rcases h'.2 with ⟨isEnd,_⟩ | ⟨_,_,_,h''⟩
        · rw [isEnd] at same
          cases same
        · rwa [same] at h''
      · exact chainedAlloc h'

theorem startTokenChained (positive : 0 < start) (top : start < 2^32) (small : last < 2^32) (proper : old ≠ smtEnd)
    (h : Chained limit old here) (stop : ∀ mp rest, here = mp::rest → start ≤ mp.start ∨ mp.type = smtEnd) :
    Chained limit old (startToken [] start last smtAlloc old here).list := by
  cases here with
  | nil => exact absurd h (by simp [Chained])
  | cons mp rest =>
    have cut : old = smtFree → start ≤ limit := by
      intro free
      have most := h.1 free
      rcases h.2 with ⟨isEnd,_⟩ | ⟨proper',_,_,_⟩
      · rw [isEnd] at most
        simp only [zoneEnd,if_true] at most
        omega
      · rw [zoneEnd,if_neg proper'] at most
        have := (stop mp rest rfl).resolve_right proper'
        omega
    have token : ∀ l, Chained limit smtAlloc l → Chained limit old (⟨start,smtAlloc⟩::l) := by
      intro l h'
      exact ⟨by simpa [zoneEnd] using cut,Or.inr ⟨by simp,positive,top,h'⟩⟩
    rw [startToken]
    split
    next splice =>
      split
      · exact token _ (endTokenChained small proper h)
      next same =>
        rw [not_not] at same
        rw [← same] at h proper ⊢
        exact endTokenChained small proper h
    next aligned =>
      rcases h.2 with ⟨isEnd,_⟩ | ⟨proper',_,_,h'⟩
      · exact absurd (Or.inr (by rw [isEnd])) aligned
      have at' : mp.start = start := by
        have := (stop mp rest rfl).resolve_right proper'
        omega
      split
      · rw [at']
        exact token _ (endTokenChained small proper' h')
      next same =>
        rw [not_not] at same
        rw [← same] at h proper ⊢
        exact endTokenChained small proper h

theorem passBelowChained (positive : 0 < start) (top : start < 2^32) (small : last < 2^32) (proper : old ≠ smtEnd)
    (h : Chained limit old list) : Chained limit old
      ((passBelow start old list).1 ++
        (startToken [] start last smtAlloc (passBelow start old list).2.1 (passBelow start old list).2.2).list) := by
  induction list generalizing old with
  | nil => exact absurd h (by simp [Chained])
  | cons mp rest ih =>
    rw [passBelow]
    split
    next passed =>
      rcases h.2 with ⟨isEnd,_⟩ | ⟨proper',above,below,h'⟩
      · exact absurd (by rw [isEnd]) passed.2
      · exact ⟨h.1,Or.inr ⟨proper',above,below,ih proper' h'⟩⟩
    next stay =>
      refine startTokenChained positive top small proper h ?_
      intro y tail eq
      cases eq
      by_cases isEnd : mp.type = smtEnd
      · exact Or.inr isEnd
      · exact Or.inl (by by_contra low; exact stay ⟨by omega,isEnd⟩)

theorem addCapped (top : start < 2^32) (len : Nat) (h : Capped limit list) :
    Capped limit (addAll list [⟨start,len,smtAlloc⟩]) := by
  have small : (start + len - 1) % 2^32 < 2^32 := Nat.mod_lt _ (by decide)
  rw [addAll,addAll,syslinuxAddMemmap]
  split
  · exact h
  cases list with
  | nil => exact absurd h (by simp [Capped])
  | cons z rest =>
    obtain ⟨zero,proper,h⟩ := h
    by_cases origin : start = 0
    · have stay : ¬(z.start < start ∧ z.type ≠ smtEnd) := by omega
      have aligned : ¬(start < z.start ∨ z.type = smtEnd) := by simp [proper]; omega
      simp only [passBelow,if_neg stay,startToken,if_neg aligned,Added.behind]
      exact ⟨zero,by simp,endTokenChained small proper h⟩
    · have pass : z.start < start ∧ z.type ≠ smtEnd := ⟨by omega,proper⟩
      simp only [passBelow,if_pos pass,Added.behind,List.cons_append]
      exact ⟨zero,proper,passBelowChained (Nat.pos_of_ne_zero origin) top small proper h⟩

theorem chainedSpans {z : Zone} (low : z.start < 2^32) (proper : z.type ≠ smtEnd) (h : Chained limit z.type list) :
    ∀ s ∈ spans (z::list), s.lo < 2^32 ∧ s.hi ≤ 2^32 ∧ (s.type = smtFree → s.hi ≤ limit) := by
  induction list generalizing z with
  | nil => exact absurd h (by simp [Chained])
  | cons next rest ih =>
    intro s mem
    rw [spans,if_neg proper] at mem
    have stop : zoneEnd next ≤ 2^32 := by
      rcases h.2 with ⟨isEnd,_⟩ | ⟨proper',_,below,_⟩
      · simp [isEnd,zoneEnd]
      · rw [zoneEnd,if_neg proper']
        omega
    rcases List.mem_cons.mp mem with rfl | mem
    · exact ⟨low,stop,h.1⟩
    · rcases h.2 with ⟨_,nil'⟩ | ⟨proper',_,below,h'⟩
      · rw [nil'] at mem
        simp [spans] at mem
      · exact ih below proper' h' s mem

theorem cappedSpans (h : Capped limit list) :
    ∀ s ∈ spans list, s.lo < 2^32 ∧ s.hi ≤ 2^32 ∧ (s.type = smtFree → s.hi ≤ limit) := by
  cases list with
  | nil => exact absurd h (by simp [Capped])
  | cons z rest => exact chainedSpans (by rw [h.1]; decide) h.2.1 h.2.2

theorem followsChained {low : Nat} {z : Zone} (follows : Follows low z.type list) (proper : z.type ≠ smtEnd)
    (bound : low ≤ z.start) (above : ∀ s ∈ spans (z::list), s.type = smtFree → s.hi ≤ limit) :
    Chained limit z.type list := by
  induction list generalizing z low with
  | nil => exact absurd follows (by simp [Follows])
  | cons next rest ih =>
    rw [spans,if_neg proper] at above
    refine ⟨fun free => above ⟨z.start,zoneEnd next,z.type⟩ (by simp) free,?_⟩
    rcases follows with isEnd | ⟨proper',_,lower,top,follows'⟩
    · exact Or.inl isEnd
    · refine Or.inr ⟨proper',by omega,top,?_⟩
      exact ih follows' proper' (Nat.le_refl _) (fun s mem => above s (by simp [mem]))

theorem cappedOf (wf : WellFormed list) (below : ∀ a, a < 2^32 → typeAt list a = smtFree → a < limit) :
    Capped limit list := by
  have ends : ∀ s ∈ spans list, s.type = smtFree → s.hi ≤ limit := by
    intro s mem free
    have span := spanned wf mem
    have nonempty := span.nonempty
    have top := span.top
    have := below (s.hi - 1) (by omega) (by rw [span.typed (s.hi - 1) (by omega) (by omega),free])
    omega
  cases list with
  | nil => exact absurd wf (by simp [WellFormed])
  | cons z rest =>
    obtain ⟨zero,proper,follows⟩ := wf
    exact ⟨zero,proper,followsChained follows proper (by omega) ends⟩

def passes (size align : Nat) (s : Span) : Prop :=
  s.type = smtFree ∧ size ≤ sub32 (alignDown (s.hi % 2^32) align) (alignUp s.lo align)
instance (size align : Nat) (s : Span) : Decidable (passes size align s) := by unfold passes; infer_instance

def spot (size align : Nat) (s : Span) : Nat := alignDown (sub32 (alignDown (s.hi % 2^32) align) size) align

def deciding (size align : Nat) (amap : List Zone) : Option Span :=
  ((spans amap).filter (fun s => passes size align s)).getLast?

theorem bestAddrFrom {size align : Nat} {z : Zone} (proper : z.type ≠ smtEnd) (h : Chained limit z.type list) (best : Nat) :
    bestAddr size align best (z::list) = match deciding size align (z::list) with
      | none => best
      | some s => spot size align s := by
  induction list generalizing z best with
  | nil => exact absurd h (by simp [Chained])
  | cons next rest ih =>
    have nstart : next.start = zoneEnd next % 2^32 := by
      rcases h.2 with ⟨isEnd,_⟩ | ⟨proper',_,below,_⟩
      · simp [isEnd,zoneEnd]
      · rw [zoneEnd,if_neg proper',Nat.mod_eq_of_lt below]
    have turn : bestAddr size align best (z::next::rest) = bestAddr size align
        (if passes size align ⟨z.start,zoneEnd next,z.type⟩ then spot size align ⟨z.start,zoneEnd next,z.type⟩ else best)
        (next::rest) := by
      rw [bestAddr,if_neg proper]
      unfold passes spot
      rw [nstart]
    have later : ∀ b, bestAddr size align b (next::rest) = match deciding size align (next::rest) with
        | none => b
        | some s => spot size align s := by
      intro b
      rcases h.2 with ⟨_,nil'⟩ | ⟨proper',_,_,h'⟩
      · rw [nil']
        rfl
      · exact ih proper' h' b
    rw [turn,later]
    unfold deciding
    rw [spans,if_neg proper,List.filter_cons]
    by_cases pass : passes size align ⟨z.start,zoneEnd next,z.type⟩
    · simp only [pass,if_true,decide_true,List.getLast?_cons]
      cases ((spans (next::rest)).filter (fun s => passes size align s)).getLast? <;> rfl
    · simp only [pass,if_false,decide_false,Bool.false_eq_true]

theorem bestAddrEq (size align : Nat) (h : Capped limit list) :
    bestAddr size align 0 list = match deciding size align list with
      | none => 0
      | some s => spot size align s := by
  cases list with
  | nil => exact absurd h (by simp [Capped])
  | cons z rest => exact bestAddrFrom h.2.1 h.2.2 0

end

/- The highest aligned range of the size that ends at the rounded end of the zone, or wraps below it. -/
def below (size align : Nat) (s : Span) : Nat := (2^32 + s.hi / align*align - roundUp size align) % 2^32

section
variable {k size m : Nat} {s : Span}

theorem powerDvdTop (small : k < 32) : 2^k ∣ 2^32 := Nat.pow_dvd_pow 2 (by omega)

theorem roundUpLe (whole : 2^k ∣ m) (le : size ≤ m) : roundUp size (2^k) ≤ m :=
  (roundUpOk (2^k) (Nat.two_pow_pos k)).lowest m whole le

theorem alignDownUnder (small : k < 32) (whole : 2^k ∣ m) (le : size ≤ m) (fits : m - size < 2^32) :
    alignDown (m - size) (2^k) = m - roundUp size (2^k) := by
  have down := alignDownOk small fits
  have up := roundUpOk (n := size) (2^k) (Nat.two_pow_pos k)
  have most := roundUpLe whole le
  have enough := up.le
  refine Nat.le_antisymm ?_ (down.highest _ (Nat.dvd_sub whole up.aligned) (by omega))
  have least := down.le
  have other := up.lowest (m - alignDown (m - size) (2^k)) (Nat.dvd_sub whole down.aligned) (by omega)
  omega

theorem downEnd (small : k < 32) (top : s.hi ≤ 2^32) : alignDown (s.hi % 2^32) (2^k) = s.hi / 2^k*2^k % 2^32 := by
  rw [alignDownEq small (Nat.mod_lt _ (by decide))]
  by_cases last : s.hi = 2^32
  · rw [last,Nat.mod_self,Nat.zero_div,Nat.zero_mul,Nat.div_mul_cancel (powerDvdTop small),Nat.mod_self]
  · have := Nat.div_mul_le_self s.hi (2^k)
    rw [Nat.mod_eq_of_lt (by omega : s.hi < 2^32),Nat.mod_eq_of_lt (by omega)]

theorem downEndBounds (top : s.hi ≤ 2^32) : 2^k ∣ s.hi / 2^k*2^k ∧ s.hi / 2^k*2^k ≤ 2^32 :=
  ⟨Nat.dvd_mul_left _ _,(Nat.div_mul_le_self _ _).trans top⟩

theorem spotEq (small : k < 32) (top : s.hi ≤ 2^32) (fits : size < 2^32) : spot size (2^k) s = below size (2^k) s := by
  obtain ⟨whole,most⟩ := downEndBounds (k := k) top
  have enough := (roundUpOk (n := size) (2^k) (Nat.two_pow_pos k)).le
  have last := roundUpLe (powerDvdTop small) (Nat.le_of_lt fits)
  unfold spot below
  rw [downEnd small top]
  generalize s.hi / 2^k*2^k = down at whole most ⊢
  have rest : 2^k ∣ down % 2^32 := (Nat.dvd_mod_iff (powerDvdTop small)).mpr whole
  by_cases room : size ≤ down % 2^32
  · rw [sub32Eq room,alignDownUnder small rest room (by omega)]
    have := roundUpLe rest room
    omega
  · have wrapped : sub32 (down % 2^32) size = 2^32 + down % 2^32 - size := by
      rw [sub32,if_neg room]
      omega
    rw [wrapped,alignDownUnder small (Nat.dvd_add (powerDvdTop small) rest) (by omega) (by omega)]
    omega

/- A zone that holds an aligned range of the size has the spot in it. -/
theorem spotInside (small : k ≤ 12) (low : s.lo < 2^32) (top : s.hi ≤ 2^32) (some' : 0 < size)
    (pass : passes size (2^k) s) (order : roundUp s.lo (2^k) ≤ s.hi / 2^k*2^k) :
    s.lo ≤ below size (2^k) s ∧ below size (2^k) s + size ≤ s.hi := by
  obtain ⟨whole,most⟩ := downEndBounds (k := k) top
  have up := roundUpOk (n := s.lo) (2^k) (Nat.two_pow_pos k)
  have enough := (roundUpOk (n := size) (2^k) (Nat.two_pow_pos k)).le
  have stop := Nat.div_mul_le_self s.hi (2^k)
  have lower := up.le
  have room := pass.2
  rw [downEnd (by omega) top] at room
  -- above the last multiple nothing passes
  have inside : roundUp s.lo (2^k) < 2^32 := by
    by_contra above
    have near : roundUp s.lo (2^k) < s.lo + 2^k := by
      have := Nat.div_mul_le_self (s.lo + (2^k - 1)) (2^k)
      have := Nat.two_pow_pos k
      unfold roundUp
      omega
    have wraps := (alignUpWraps (k := k) (by omega) low (by omega)).1
    rw [wraps,show s.hi / 2^k*2^k = 2^32 by omega,Nat.mod_self] at room
    simp [sub32] at room
    omega
  rw [alignUpEq small inside] at room
  unfold below
  generalize s.hi / 2^k*2^k = down at *
  have length : size ≤ down - roundUp s.lo (2^k) := by
    unfold sub32 at room
    split at room <;> omega
  have fits := roundUpLe (Nat.dvd_sub whole up.aligned) length
  omega

end
def Contained (p : Placement) : Prop :=
  ∃ s ∈ spans p.amap, s.type = smtFree ∧ s.lo ≤ p.addr ∧ p.addr + p.bytes ≤ s.hi

instance (p : Placement) : Decidable (Contained p) := by unfold Contained; infer_instance

/- Where the range that a zone decides on ends with its padding: at the rounded end of the zone,
or as far below 2^32 where that is too low. -/
def stopOf (size align : Nat) (s : Span) : Nat :=
  if roundUp size align ≤ s.hi / align*align then s.hi / align*align else 2^32 + s.hi / align*align

/- The zone that decides begins, rounded up, no later than it ends rounded down; if not, the
range comes to lie in front of it, and another zone has to be free there. -/
def ZoneHolds (amap : List Zone) (size align bytes : Nat) : Prop :=
  bytes < 2^32 ∧ ∃ s, deciding size align amap = some s ∧ (roundUp s.lo align ≤ s.hi / align*align ∨
    ∃ t ∈ spans amap, t ≠ s ∧ t.type = smtFree ∧ t.lo + roundUp size align ≤ stopOf size align s ∧
      stopOf size align s + bytes ≤ t.hi + roundUp size align)

structure Proper (limit : Nat) (p : Placement) : Prop where
  capped : Capped limit p.amap
  addr : p.addr = bestAddr p.size p.align 0 p.amap
  nonzero : p.addr ≠ 0
  some' : 0 < p.bytes
  size : p.size = p.bytes % 2^32
  align : ∃ k, k ≤ 12 ∧ p.align = 2^k

section
variable {limit : Nat} {p : Placement}

theorem properDecides (proper : Proper limit p) : ∃ s, deciding p.size p.align p.amap = some s ∧ s ∈ spans p.amap ∧
    passes p.size p.align s ∧ p.addr = below p.size p.align s := by
  have addr := proper.addr
  have nonzero := proper.nonzero
  rw [bestAddrEq p.size p.align proper.capped] at addr
  cases found : deciding p.size p.align p.amap with
  | none =>
    rw [found] at addr
    exact absurd addr nonzero
  | some s =>
    have mem := List.mem_filter.mp (List.mem_of_getLast? found)
    obtain ⟨k,small,align⟩ := proper.align
    have top := (cappedSpans proper.capped s mem.1).2.1
    have fits : p.size < 2^32 := by
      rw [proper.size]
      exact Nat.mod_lt _ (by decide)
    rw [found] at addr
    refine ⟨s,rfl,mem.1,by simpa using mem.2,?_⟩
    rw [addr,align]
    exact spotEq (by omega) top fits

theorem properAligned (proper : Proper limit p) : p.align ∣ p.addr ∧ p.addr < 2^32 := by
  obtain ⟨s,_,mem,_,addr⟩ := properDecides proper
  obtain ⟨k,small,align⟩ := proper.align
  obtain ⟨whole,most⟩ := downEndBounds (k := k) (cappedSpans proper.capped s mem).2.1
  have up := roundUpOk (n := p.size) (2^k) (Nat.two_pow_pos k)
  rw [addr,align]
  refine ⟨(Nat.dvd_mod_iff (powerDvdTop (by omega))).mpr ?_,Nat.mod_lt _ (by decide)⟩
  exact Nat.dvd_sub (Nat.dvd_add (powerDvdTop (by omega)) whole) up.aligned

theorem properBelow (proper : Proper limit p) (fits : p.bytes < 2^32) {s : Span} (mem : s ∈ spans p.amap)
    (addr : p.addr = below p.size p.align s) : p.addr + roundUp p.size p.align = stopOf p.size p.align s := by
  obtain ⟨k,small,align⟩ := proper.align
  have some' := proper.some'
  have size : p.size = p.bytes := by rw [proper.size,Nat.mod_eq_of_lt fits]
  have most := (downEndBounds (k := k) (cappedSpans proper.capped s mem).2.1).2
  have up := roundUpOk (n := p.size) (2^k) (Nat.two_pow_pos k)
  have enough := up.le
  have top := roundUpLe (powerDvdTop (show k < 32 by omega)) (show p.size ≤ 2^32 by omega)
  rw [addr,stopOf,below,align]
  split <;> omega

theorem containedIff (proper : Proper limit p) : Contained p ↔ ZoneHolds p.amap p.size p.align p.bytes := by
  obtain ⟨s,found,mem,pass,addr⟩ := properDecides proper
  obtain ⟨k,small,align⟩ := proper.align
  have nonzero := proper.nonzero
  constructor
  · rintro ⟨t,memT,free,lo,hi⟩
    have top := (cappedSpans proper.capped t memT).2.1
    have fits : p.bytes < 2^32 := by omega
    have stop := properBelow proper fits mem addr
    refine ⟨fits,s,found,?_⟩
    by_cases same : t = s
    · -- the range itself lies between the two
      subst same
      have positive : 0 < p.align := align ▸ Nat.two_pow_pos k
      have first := (roundUpOk (n := t.lo) p.align positive).lowest p.addr (properAligned proper).1 lo
      refine Or.inl (Nat.le_trans first ?_)
      rw [← Nat.div_mul_cancel (properAligned proper).1]
      exact Nat.mul_le_mul_right _ (Nat.div_le_div_right (by omega))
    · exact Or.inr ⟨t,memT,same,free,by omega,by omega⟩
  · rintro ⟨fits,s',found',holds⟩
    cases Option.some.inj (found.symm.trans found')
    have stop := properBelow proper fits mem addr
    rcases holds with order | ⟨t,memT,_,free,lo,hi⟩
    · have size : p.size = p.bytes := by rw [proper.size,Nat.mod_eq_of_lt fits]
      obtain ⟨low,top,_⟩ := cappedSpans proper.capped s mem
      have some' := proper.some'
      rw [align] at pass order addr
      obtain ⟨lo,hi⟩ := spotInside small low top (by omega) pass order
      refine ⟨s,mem,pass.1,?_,?_⟩
      · rw [addr]
        exact lo
      · rw [addr,← size]
        exact hi
    · exact ⟨t,memT,free,by omega,by omega⟩

end

theorem initramfsSizeSmall (chain : List Chunk) : initramfsSize chain < 2^32 := by
  have from' : ∀ (l : List Chunk) (size : Nat), size < 2^32 → sizeFrom size l < 2^32 := by
    intro l
    induction l with
    | nil => exact fun size small => small
    | cons ip rest ih => exact fun size _ => ih _ (Nat.mod_lt _ (by decide))
  exact from' chain 0 (by decide)

theorem initramfsProper {limit : Nat} {chain : List Chunk} {amap last : List Zone} {p : Option Placement}
    (capped : Capped limit amap) (placed : InitramfsPlaced chain amap p last) : Capped limit last ∧
      ∀ q, p = some q → Proper limit q ∧ q.align = initramfsMaxAlign ∧ q.amap = amap := by
  cases placed with
  | none zero => exact ⟨capped,by simp⟩
  | placed some' fits =>
    have proper : Proper limit ⟨amap,bestAddr (initramfsSize chain) initramfsMaxAlign 0 amap,initramfsSize chain,
        initramfsMaxAlign,initramfsSize chain⟩ :=
      ⟨capped,rfl,fits,Nat.pos_of_ne_zero some',(Nat.mod_eq_of_lt (initramfsSizeSmall chain)).symm,12,Nat.le_refl _,rfl⟩
    refine ⟨addCapped (properAligned proper).2 _ capped,?_⟩
    rintro q same
    cases Option.some.inj same
    exact ⟨proper,rfl,rfl⟩

theorem blocksProper {limit : Nat} {amap last : List Zone} {blocks : List SetupData} {ps : List Placement}
    (placed : BlocksPlaced amap blocks ps last) (capped : Capped limit amap) : ∀ p ∈ ps, Proper limit p := by
  induction placed with
  | nil => simp
  | skip _ _ ih => exact ih capped
  | @place amap sdp rest ps last some' fits _ ih =>
    have proper : Proper limit (blockPlacement sdp amap) := by
      refine ⟨capped,rfl,fits,by simp [blockPlacement,sizeofSetupDataHeader],?_,4,by omega,rfl⟩
      show add32 sdp.len.toNat sizeofSetupDataHeader = _
      rw [add32,Nat.add_comm]
      rfl
    intro p mem
    rcases List.mem_cons.mp mem with rfl | mem
    · exact proper
    · exact ih (addCapped (properAligned proper).2 _ capped) p mem

/- Free memory ends at the limit, or where there is none at 2^32. -/
def limitTop (c : Call) : Nat := if (setup c).memlimit = 0 then 2^32 else (setup c).memlimit

theorem kernelCapped {c : Call} {map : List Zone} {k : Kernel} (wf : WellFormed map)
    (placed : KernelPlaced c (setup c) map k) : Capped (limitTop c) k.amap := by
  obtain ⟨available,types⟩ := availableOk (c := c) wf
  have free : ∀ a, a < 2^32 → typeAt (availableMap (setup c) map) a = smtFree → a < limitTop c := by
    intro a bound type
    rw [types a bound] at type
    unfold limitTop
    split at type
    · cases type
    · split <;> omega
  have capped := cappedOf available free
  rw [← placed.available] at capped
  have bases := baseLe (setupSizes c)
  have real : k.realModeBase < 2^32 := by
    rcases realPlace placed with same | low
    · omega
    · omega
  have prot : (setup c).protModeBase < 2^32 := by omega
  have first := addCapped real (add32 k.cmdlineOffset (setup c).cmdlineSize) capped
  rw [placed.amap]
  split
  · exact addCapped prot _ first
  · exact first

def addrMax (c : Call) : Nat := (privateHeader c.hdr).initrdAddrMax.toNat

/- Outside the real-mode area, the kernel and the memory from the limit on. -/
def Outside (c : Call) (k : Kernel) (a : Nat) : Prop :=
  ¬((reservedArea (setup c) k).start ≤ a ∧ a < (reservedArea (setup c) k).start + (reservedArea (setup c) k).len) ∧
  ¬((setup c).protModeBase ≤ a ∧ a < (setup c).protModeBase + (setup c).protModeSize) ∧
  ((setup c).memlimit = 0 ∨ a < (setup c).memlimit)

structure Placed (c : Call) (b : Boot) : Prop where
  initramfs : ∀ p, b.initramfs = some p →
    initramfsMaxAlign ∣ p.addr ∧ Contained p ∧ p.addr + p.bytes - 1 ≤ addrMax c
  outside : (setup c).protModeBase + (setup c).protModeSize ≤ 2^32 → ∀ p, b.initramfs = some p →
    ∀ a, p.addr ≤ a → a < p.addr + p.bytes → Outside c b.kernel a
  setupData : ∀ p ∈ b.setupData, Contained p

def kernelMap (c : Call) (map : List Zone) : List Zone :=
  let s := setup c
  let available := availableMap s map
  let cmdlineOffset := calcCmdlineOffset map s.hdr s.cmdlineSize s.realModeBase (add32 s.realModeBase s.realModeSize)
  addAll available (⟨(findRealMode s available cmdlineOffset).start,add32 cmdlineOffset s.cmdlineSize,smtAlloc⟩::
    if s.protModeSize ≠ 0 then [⟨s.protModeBase,s.protModeSize,smtAlloc⟩] else [])

def takenFrom (size align : Nat) (amap : List Zone) : List Zone := addAll amap [⟨bestAddr size align 0 amap,size,smtAlloc⟩]

def initramfsMap (c : Call) (map : List Zone) : List Zone :=
  if initramfsSize c.initramfs = 0 then kernelMap c map
  else takenFrom (initramfsSize c.initramfs) initramfsMaxAlign (kernelMap c map)

/- Where the argument is above the limit of the header, the zone that decides must end low enough. -/
def LimitHolds (c : Call) (amap : List Zone) (size : Nat) : Prop :=
  addrMax c + 1 < memArgument c.cmdline → ∃ s, deciding size initramfsMaxAlign amap = some s ∧
    stopOf size initramfsMaxAlign s + size ≤ addrMax c + 1 + roundUp size initramfsMaxAlign

def BlocksHold : List Zone → List SetupData → Prop
  | _,[] => True
  | amap,sdp::rest =>
      if sdp.data = 0 ∨ sdp.len = 0 then BlocksHold amap rest
      else ZoneHolds amap (blockSize sdp) 16 (sizeofSetupDataHeader + sdp.len.toNat) ∧
        BlocksHold (takenFrom (blockSize sdp) 16 amap) rest

structure ZonesHold (c : Call) (map : List Zone) : Prop where
  zone : initramfsSize c.initramfs ≠ 0 →
    ZoneHolds (kernelMap c map) (initramfsSize c.initramfs) initramfsMaxAlign (initramfsSize c.initramfs)
  limit : initramfsSize c.initramfs ≠ 0 → LimitHolds c (kernelMap c map) (initramfsSize c.initramfs)
  setupData : BlocksHold (initramfsMap c map) c.setupData

theorem kernelMapEq {c : Call} {map : List Zone} {k : Kernel} (placed : KernelPlaced c (setup c) map k) : k.amap = kernelMap c map := by
  have base : (findRealMode (setup c) k.available k.cmdlineOffset).start = k.realModeBase := by rw [placed.real]
  rw [placed.amap,← base,placed.available,placed.offset]
  rfl

theorem blocksHoldIff {amap last : List Zone} {blocks : List SetupData} {ps : List Placement}
    (placed : BlocksPlaced amap blocks ps last) :
    BlocksHold amap blocks ↔ ∀ p ∈ ps, ZoneHolds p.amap p.size p.align p.bytes := by
  induction placed with
  | nil => simp [BlocksHold]
  | skip empty _ ih =>
    rw [BlocksHold,if_pos empty]
    exact ih
  | place some' _ _ ih =>
    rw [BlocksHold,if_neg some',List.forall_mem_cons]
    exact and_congr Iff.rfl ih

theorem limitTopLe {c : Call} (keeps : memArgument c.cmdline ≤ addrMax c + 1) : limitTop c ≤ addrMax c + 1 := by
  have eq : (setup c).memlimit = limitOf (memArgument c.cmdline) (privateHeader c.hdr) := by simp only [setup]
  have max' : (privateHeader c.hdr).initrdAddrMax.toNat = addrMax c := rfl
  have small : addrMax c < 2^32 := UInt32.toNat_lt _
  unfold limitTop
  rw [eq,limitOf,max']
  by_cases none' : memArgument c.cmdline = 0 ∧ addrMax c < sub32 (memArgument c.cmdline) 1
  · rw [if_pos none']
    have less := none'.2
    rw [none'.1,lastOfEnd] at less
    rw [add32Eq (by omega)]
    split <;> omega
  · rw [if_neg none']
    split
    next zero =>
      rw [zero,lastOfEnd] at none'
      omega
    · exact keeps

theorem containedOutside {c : Call} {map : List Zone} {b : Boot} (wf : WellFormed map) (booted : Booted c map b)
    (whole : (setup c).protModeBase + (setup c).protModeSize ≤ 2^32) {p : Placement} (at' : p.amap = b.kernel.amap)
    (inside : Contained p) {a : Nat} (lo : p.addr ≤ a) (hi : a < p.addr + p.bytes) : Outside c b.kernel a := by
  obtain ⟨s,mem,free,low,high⟩ := inside
  rw [at'] at mem
  obtain ⟨wf',types⟩ := kernelMapOk wf booted.kernel whole
  have span := spanned wf' mem
  have top := span.top
  have type := span.typed a (by omega) (by omega)
  rw [free,types a (by omega)] at type
  split at type
  · cases type
  next other =>
  split at type
  · cases type
  next apart =>
  rw [booted.kernel.available,(availableOk (c := c) wf).2 a (by omega)] at type
  split at type
  · cases type
  next below' => exact ⟨apart,other,by omega⟩

theorem limitIff {c : Call} {p : Placement} (proper : Proper (limitTop c) p) (align : p.align = initramfsMaxAlign)
    (size : p.size = p.bytes) (inside : Contained p) : p.addr + p.bytes - 1 ≤ addrMax c ↔ LimitHolds c p.amap p.bytes := by
  obtain ⟨s,found,mem,_,addr⟩ := properDecides proper
  obtain ⟨t,memT,free,_,hi⟩ := inside
  obtain ⟨_,top,low⟩ := cappedSpans proper.capped t memT
  have some' := proper.some'
  have nonzero := proper.nonzero
  have stop := properBelow proper (by omega) mem addr
  rw [size,align] at found stop
  constructor
  · intro most _
    exact ⟨s,found,by omega⟩
  · intro holds
    by_cases keeps : memArgument c.cmdline ≤ addrMax c + 1
    · have := limitTopLe keeps
      have := low free
      omega
    · obtain ⟨s',found',most⟩ := holds (Nat.lt_of_not_le keeps)
      cases Option.some.inj (found.symm.trans found')
      omega

theorem initramfsContained {c : Call} {map : List Zone} {b : Boot} {mallocs rest : List Bool} (wf : WellFormed map)
    (booted : biosBootLinux c (some map) mallocs = .ok (b,rest)) : Placed c b ↔ ZonesHold c map := by
  have result := bootedResult booted
  obtain ⟨amap,last,first,blocks⟩ := result.placed
  obtain ⟨capped,initramfs⟩ := initramfsProper (kernelCapped wf result.kernel) first
  have setupData := blocksProper blocks capped
  have here : amap = initramfsMap c map := by
    rw [initramfsMap,← kernelMapEq result.kernel]
    generalize b.initramfs = placed at first
    cases first with
    | none zero => rw [if_pos zero]
    | placed some' fits =>
      rw [if_neg some']
      rfl
  have dataIff : (∀ p ∈ b.setupData, Contained p) ↔ BlocksHold (initramfsMap c map) c.setupData := by
    rw [← here,blocksHoldIff blocks]
    exact forall₂_congr fun p mem => containedIff (setupData p mem)
  have zoneIff : (∀ p, b.initramfs = some p → initramfsMaxAlign ∣ p.addr ∧ Contained p ∧ p.addr + p.bytes - 1 ≤ addrMax c) ↔
      (initramfsSize c.initramfs ≠ 0 → ZoneHolds (kernelMap c map) (initramfsSize c.initramfs) initramfsMaxAlign
        (initramfsSize c.initramfs) ∧ LimitHolds c (kernelMap c map) (initramfsSize c.initramfs)) := by
    rw [← kernelMapEq result.kernel]
    generalize b.initramfs = placed at first initramfs
    cases first with
    | none zero => exact iff_of_true (by simp) (fun some' => absurd zero some')
    | placed some' fits =>
      obtain ⟨proper,align,_⟩ := initramfs _ rfl
      rw [← containedIff proper]
      constructor
      · intro all _
        obtain ⟨_,inside,most⟩ := all _ rfl
        exact ⟨inside,(limitIff proper rfl rfl inside).mp most⟩
      · intro holds p same
        cases Option.some.inj same
        obtain ⟨inside,limit⟩ := holds some'
        exact ⟨(properAligned proper).1,inside,(limitIff proper rfl rfl inside).mpr limit⟩
  constructor
  · intro ok
    have zone := zoneIff.mp ok.initramfs
    exact ⟨fun some' => (zone some').1,fun some' => (zone some').2,dataIff.mp ok.setupData⟩
  · intro ok
    have placed := zoneIff.mpr fun some' => ⟨ok.zone some',ok.limit some'⟩
    refine ⟨placed,?_,dataIff.mpr ok.setupData⟩
    intro whole p at' a lo hi
    exact containedOutside wf result whole (initramfs p at').2.2 (placed p at').2.1 lo hi

def wide (amap : List Zone) (size align bytes : Nat) : Bool :=
  bytes < 2^32 && (deciding size align amap).any (fun s => roundUp s.lo align ≤ s.hi / align*align)

theorem zoneHoldsOf {amap : List Zone} {size align bytes : Nat} (ok : wide amap size align bytes = true) :
    ZoneHolds amap size align bytes := by
  simp only [wide,Bool.and_eq_true,decide_eq_true_eq,Option.any_eq_true] at ok
  obtain ⟨fits,s,found,order⟩ := ok
  exact ⟨fits,s,found,Or.inl order⟩

/- An initramfs of 6 KB and a block of setup data. -/
def initrdCall : Call :=
  { relocCall with initramfs := [⟨0x400000,0x1800,0x1800,4⟩], setupData := [⟨0x500000,0x500010,0,0x20⟩] }

theorem initramfsContainedTest : ∃ b rest, biosBootLinux initrdCall (some vmwareMap) [] = .ok (b,rest) ∧
    b.initramfs.isSome = true ∧ Placed initrdCall b := by
  have ran : (biosBootLinux initrdCall (some vmwareMap) []).toOption.any (fun r => r.1.initramfs.isSome) = true := by decide
  obtain ⟨b,rest,booted,some'⟩ := bootedOf ran
  refine ⟨b,rest,booted,some',(initramfsContained (by simp [vmwareMap,WellFormed,Follows]) booted).mpr ⟨?_,?_,?_⟩⟩
  · exact fun _ => zoneHoldsOf (by decide)
  · exact fun _ above => absurd above (by decide)
  · exact ⟨zoneHoldsOf (by decide),trivial⟩

/- Free memory up to 128 MB less 64 KB, and 256 bytes of it just above 128 MB. -/
def ledgeMap : List Zone :=
  [⟨0,smtFree⟩,⟨0x9f000,smtReserved⟩,⟨0x100000,smtFree⟩,⟨0x7ff0000,smtReserved⟩,⟨0x8000100,smtFree⟩,
    ⟨0x8000200,smtReserved⟩,⟨0,smtEnd⟩]

/- "mem=1G" with the limit of the header at 896 MB -/
def gigCall : Call := { initrdCall with cmdline := [0x6d,0x65,0x6d,0x3d,0x31,0x47], short := by decide }

theorem initramfsNotContained :
    (WellFormed ledgeMap ∧ ∃ b rest, biosBootLinux initrdCall (some ledgeMap) [] = .ok (b,rest) ∧ ¬Placed initrdCall b) ∧
    (WellFormed vmwareMap ∧ ∃ b rest, biosBootLinux gigCall (some vmwareMap) [] = .ok (b,rest) ∧ ¬Placed gigCall b) := by
  constructor
  · have ran : (biosBootLinux initrdCall (some ledgeMap) []).toOption.any (fun r =>
        r.1.initramfs.any (fun p => ¬Contained p)) = true := by decide
    obtain ⟨b,rest,booted,bad⟩ := bootedOf ran
    simp only [Option.any_eq_true,decide_eq_true_eq] at bad
    obtain ⟨p,here,bad⟩ := bad
    exact ⟨by simp [ledgeMap,WellFormed,Follows],b,rest,booted,fun ok => bad (ok.initramfs p here).2.1⟩
  · have ran : (biosBootLinux gigCall (some vmwareMap) []).toOption.any (fun r =>
        r.1.initramfs.any (fun p => ¬p.addr + p.bytes - 1 ≤ addrMax gigCall)) = true := by decide
    obtain ⟨b,rest,booted,bad⟩ := bootedOf ran
    simp only [Option.any_eq_true,decide_eq_true_eq] at bad
    obtain ⟨p,here,bad⟩ := bad
    exact ⟨by simp [vmwareMap,WellFormed,Follows],b,rest,booted,fun ok => bad (ok.initramfs p here).2.2⟩

end Syslinux.BootLinux
