import Syslinux.Movebits

/-! What each function of the planner does, once: callers below use these and do not
unfold the functions again. -/
namespace Syslinux.Movebits
open Zonelist Zonelist.MemmapType Relocation

theorem workBind {α β : Type} {x : Work α} {f : α → Work β} {m m' : List Bool} {b : β}
    (ok : (x >>= f) m = .ok (b,m')) : ∃ a n, x m = .ok (a,n) ∧ f a n = .ok (b,m') := by
  simp only [bind,StateT.bind,Except.bind] at ok
  split at ok
  · contradiction
  · rename_i v eq
    obtain ⟨a,n⟩ := v
    exact ⟨a,n,eq,ok⟩

theorem workPure {α : Type} {a b : α} {m m' : List Bool} (ok : (pure a : Work α) m = .ok (b,m')) : b = a ∧ m' = m := by
  have same : (a,m) = (b,m') := Except.ok.inj ok
  cases same
  exact ⟨rfl,rfl⟩

theorem newMovelistOk {dst src len m mv m'} (ok : newMovelist dst src len m = .ok (mv,m')) : mv = ⟨dst,src,len⟩ := by
  unfold newMovelist at ok
  split at ok
  · simp only [Except.ok.injEq,Prod.mk.injEq] at ok; exact ok.1.symm
  · contradiction

theorem lastOf {start len : Nat} (some' : 0 < len) (fits : start + len ≤ 2^32) :
    sub32 (add32 start len) 1 = start + len - 1 := by
  by_cases top : start + len = 2^32
  · have zero : add32 start len = 0 := by unfold add32; omega
    simp only [zero,sub32]; simp; omega
  · rw [add32Eq (by omega),sub32Eq (by omega)]

/- Subtracting from an end that may have wrapped to 0. -/
theorem endMinus {e b : Nat} (top : e ≤ 2^32) (some' : 0 < b) (le : b ≤ e) : sub32 (e % 2^32) b = e - b := by
  by_cases wrapped : e = 2^32
  · subst wrapped; simp only [Nat.mod_self,sub32]; rw [if_neg (by omega)]; omega
  · rw [Nat.mod_eq_of_lt (by omega),sub32Eq le]

def freeIn (mmap : List Zone) (a : Nat) : Prop := a < 2^32 ∧ validTerminalType (typeAt mmap a) = true

def Area.has (r : Area) (a : Nat) : Prop := r.start ≤ a ∧ a < r.start + r.len

def Legal (f : Move) : Prop := 0 < f.len ∧ f.len < 2^32 ∧ f.dst + f.len ≤ 2^32 ∧ f.src + f.len ≤ 2^32
instance (f : Move) : Decidable (Legal f) := by unfold Legal; infer_instance

structure Repainted (mmap mmap' : List Zone) (r : Area) (type : MemmapType) : Prop where
  wf : WellFormed mmap'
  inside : ∀ a, a < 2^32 → r.has a → typeAt mmap' a = type
  outside : ∀ a, a < 2^32 → ¬ r.has a → typeAt mmap' a = typeAt mmap a

theorem repaintedOf {mallocs mmap start len type} (wf : WellFormed mmap) (given : type ≠ smtEnd)
    (fits : start + len ≤ 2^32) (ok : (syslinuxAddMemmap mallocs mmap start len type).rv = 0) :
    Repainted mmap (syslinuxAddMemmap mallocs mmap start len type).list ⟨start,len⟩ type := by
  obtain ⟨wf',types⟩ := addMemmapSpec wf given fits ok
  refine ⟨wf',?_,?_⟩
  · intro a ha inside
    exact (types a ha).trans (if_pos inside)
  · intro a ha outside
    exact (types a ha).trans (if_neg outside)

theorem addFreelistOk {mmap start len type m mmap' m'} (wf : WellFormed mmap) (given : type ≠ smtEnd)
    (fits : start + len ≤ 2^32) (ok : addFreelist mmap start len type m = .ok (mmap',m')) :
    Repainted mmap mmap' ⟨start,len⟩ type := by
  unfold addFreelist at ok
  simp only at ok
  split at ok
  · rename_i zero
    simp only [Except.ok.injEq,Prod.mk.injEq] at ok
    rw [← ok.1]
    exact repaintedOf wf given fits zero
  · contradiction

theorem allocateFromOk {mmap start len m mmap' m'} (wf : WellFormed mmap) (fits : start + len ≤ 2^32)
    (zero : (syslinuxAddMemmap m mmap start len smtAlloc).rv = 0)
    (ok : allocateFrom mmap start len m = .ok (mmap',m')) : Repainted mmap mmap' ⟨start,len⟩ smtAlloc := by
  simp only [allocateFrom,Except.ok.injEq,Prod.mk.injEq] at ok
  rw [← ok.1]
  exact repaintedOf wf (by decide) fits zero

theorem freeAfterAlloc {mmap mmap' r} (h : Repainted mmap mmap' r smtAlloc) {a : Nat} :
    freeIn mmap' a ↔ freeIn mmap a ∧ ¬ r.has a := by
  unfold freeIn
  by_cases inside : r.has a
  · constructor
    · intro ⟨ha,valid⟩
      rw [h.inside a ha inside] at valid
      exact absurd valid (by decide)
    · intro ⟨_,away⟩
      exact absurd inside away
  · constructor
    · intro ⟨ha,valid⟩
      rw [h.outside a ha inside] at valid
      exact ⟨⟨ha,valid⟩,inside⟩
    · intro ⟨⟨ha,valid⟩,_⟩
      refine ⟨ha,?_⟩
      rw [h.outside a ha inside]
      exact valid

theorem freeAfterFree {mmap mmap' r} (h : Repainted mmap mmap' r smtFree) {a : Nat} (isFree : freeIn mmap' a) :
    freeIn mmap a ∨ r.has a := by
  obtain ⟨ha,valid⟩ := isFree
  by_cases inside : r.has a
  · exact Or.inr inside
  · rw [h.outside a ha inside] at valid
    exact Or.inl ⟨ha,valid⟩

def zoneEnd (next : Zone) : Nat := if next.type = smtEnd then 2^32 else next.start

def Suffix (whole : List Zone) : List Zone → Prop
  | [] => False
  | z::rest => (z = ⟨0,smtEnd⟩ ∧ rest = []) ∨
      (z.type ≠ smtEnd ∧ z.start < 2^32 ∧ Follows z.start z.type rest ∧
        ∀ a, z.start ≤ a → typeAt whole a = typeFrom z.type a rest)

theorem suffixWhole {whole} (wf : WellFormed whole) : Suffix whole whole := by
  cases whole with
  | nil => exact wf
  | cons z rest =>
    obtain ⟨zero,proper,follows⟩ := wf
    exact Or.inr ⟨proper,by omega,zero ▸ follows,fun a above => typeFromCons proper above⟩

theorem suffixNext {whole z rest} (h : Suffix whole (z::rest)) (proper : z.type ≠ smtEnd) :
    Suffix whole rest ∧ ∃ next tail, rest = next::tail ∧ z.start < zoneEnd next ∧ zoneEnd next ≤ 2^32 ∧
      (∀ a, z.start ≤ a → a < zoneEnd next → typeAt whole a = z.type) ∧
      (next.type ≠ smtEnd → next.start = zoneEnd next) ∧ (next.type = smtEnd → next.start = 0) := by
  rcases h with ⟨stop,_⟩ | ⟨_,bound,follows,types⟩
  · exact absurd (by rw [stop]) proper
  · cases rest with
    | nil => exact absurd follows (by simp [Follows])
    | cons next tail =>
      rcases follows with ⟨stop,empty⟩ | ⟨ntype,_,above,nbound,next'⟩
      · subst stop empty
        refine ⟨Or.inl ⟨rfl,rfl⟩,_,_,rfl,by simpa [zoneEnd] using bound,by simp [zoneEnd],?_,by simp,by simp⟩
        intro a from' _
        rw [types a from']
        exact typeFromStop (Or.inl rfl)
      · have stop : zoneEnd next = next.start := by simp [zoneEnd,ntype]
        refine ⟨Or.inr ⟨ntype,nbound,next',?_⟩,_,_,rfl,by omega,by omega,?_,fun _ => stop.symm,
          fun h => absurd h ntype⟩
        · intro a from'
          rw [types a (by omega)]
          exact typeFromCons ntype from'
        · intro a from' upto
          rw [types a from']
          exact typeFromStop (Or.inr (by omega))

theorem runEndsOk {whole z next tail last} (h : Suffix whole (z::next::tail)) (proper : z.type ≠ smtEnd)
    (bound : last < 2^32) : runEnds last (next::tail) = true ↔ last < zoneEnd next := by
  obtain ⟨_,y,t,eq,above,_,_,start,stop⟩ := suffixNext h proper
  cases eq
  simp only [runEnds,decide_eq_true_eq]
  by_cases isEnd : next.type = smtEnd
  · simp [zoneEnd,isEnd,stop isEnd,sub32]; omega
  · have pos : 1 ≤ next.start := by rw [start isEnd]; omega
    rw [sub32Eq pos,← start isEnd]; omega

theorem terminalProper {type : MemmapType} (h : validTerminalType type = true) : type ≠ smtEnd := by
  rintro rfl; exact absurd h (by decide)

/- A run of free zones: everything from the start of its first zone up to `limit` is
free, and so is the whole of that first zone. -/
structure RunFrom (whole : List Zone) (start limit : Nat) (z next : Zone) : Prop where
  below : z.start ≤ start
  run : ∀ a, z.start ≤ a → a < limit → validTerminalType (typeAt whole a) = true
  zone : ∀ a, z.start ≤ a → a < zoneEnd next → validTerminalType (typeAt whole a) = true
  nextStart : next.type ≠ smtEnd → next.start = zoneEnd next
  nextEnd : next.type = smtEnd → next.start = 0
  nonempty : z.start < zoneEnd next
  bound : zoneEnd next ≤ 2^32

theorem RunFrom.shorten {whole start limit limit' z next} (h : RunFrom whole start limit z next)
    (le : limit' ≤ limit) : RunFrom whole start limit' z next :=
  ⟨h.below,fun a from' upto => h.run a from' (by omega),h.zone,h.nextStart,h.nextEnd,h.nonempty,h.bound⟩

theorem freeZoneFromOk {whole start last run list ep} (suffix : Suffix whole list) (bound : last < 2^32)
    (running : ∀ i, run = some i → ∃ z next rest, i = z::next::rest ∧
      ∀ y tail, list = y::tail → RunFrom whole start (zoneEnd y) z next)
    (ok : freeZoneFrom start last run list = some ep) :
    ∃ z next rest, ep = z::next::rest ∧ RunFrom whole start (last + 1) z next := by
  induction list generalizing run with
  | nil => cases run <;> simp [freeZoneFrom] at ok
  | cons z rest ih =>
    -- a free zone ends the run at `last` or carries it on to the next zone
    have onward : validTerminalType z.type = true → ∀ y next tail,
        RunFrom whole start z.start y next ∨ (y::next::tail = z::rest ∧ z.start ≤ start) →
        (if runEnds last rest then some (y::next::tail)
          else freeZoneFrom start last (some (y::next::tail)) rest) = some ep →
        ∃ z next rest, ep = z::next::rest ∧ RunFrom whole start (last + 1) z next := by
      intro valid y next tail given ok
      have proper := terminalProper valid
      obtain ⟨suffix',n,t,eq,above,top,types,nstart,nend⟩ := suffixNext suffix proper
      subst eq
      have zone : ∀ a, z.start ≤ a → a < zoneEnd n → validTerminalType (typeAt whole a) = true := by
        intro a from' upto
        rw [types a from' upto]; exact valid
      have longer : RunFrom whole start (zoneEnd n) y next := by
        rcases given with old | ⟨fresh,below⟩
        · refine ⟨old.below,?_,old.zone,old.nextStart,old.nextEnd,old.nonempty,old.bound⟩
          intro a from' upto
          by_cases earlier : a < z.start
          · exact old.run a from' earlier
          · exact zone a (by omega) upto
        · cases fresh
          exact ⟨below,zone,zone,nstart,nend,above,top⟩
      split at ok
      · rename_i ends
        have reached := (runEndsOk suffix proper bound).mp ends
        cases Option.some.inj ok
        exact ⟨y,next,tail,rfl,longer.shorten (by omega)⟩
      · refine ih suffix' ?_ ok
        intro i eq
        cases Option.some.inj eq
        refine ⟨y,next,tail,rfl,?_⟩
        intro y' tail' eq
        cases eq
        exact longer
    have skip : ∀ {r}, z.type ≠ smtEnd → freeZoneFrom start last r rest = some ep → r = none →
        ∃ z next rest, ep = z::next::rest ∧ RunFrom whole start (last + 1) z next := by
      intro r proper ok none'
      exact ih (suffixNext suffix proper).1 (by simp [none']) ok
    cases run with
    | none =>
      simp only [freeZoneFrom] at ok
      split at ok
      · contradiction
      · rename_i proper
        split at ok
        · split at ok
          · rename_i below valid
            obtain ⟨_,n,t,eq,_⟩ := suffixNext suffix proper
            subst eq
            exact onward valid z n t (Or.inr ⟨rfl,below⟩) ok
          · exact skip proper ok rfl
        · exact skip proper ok rfl
    | some i =>
      obtain ⟨y,next,tail,rfl,old⟩ := running i rfl
      simp only [freeZoneFrom] at ok
      split at ok
      · rename_i valid
        have here : zoneEnd z = z.start := by simp [zoneEnd,terminalProper valid]
        exact onward valid y next tail (Or.inl (here ▸ old z rest rfl)) ok
      · split at ok
        · contradiction
        · rename_i invalid _
          by_cases proper : z.type = smtEnd
          · rcases suffix with ⟨_,empty⟩ | ⟨ztype,_⟩
            · subst empty; simp [freeZoneFrom] at ok
            · exact absurd proper ztype
          · exact skip proper ok rfl

theorem isFreeZoneOk {mmap start len ep} (wf : WellFormed mmap) (some' : 0 < len) (fits : start + len ≤ 2^32)
    (ok : isFreeZone mmap start len = some ep) :
    ∃ z next rest, ep = z::next::rest ∧ RunFrom mmap start (start + len) z next := by
  unfold isFreeZone at ok
  rw [lastOf some' fits] at ok
  have out := freeZoneFromOk (suffixWhole wf) (by omega) (by simp) ok
  rwa [show start + len - 1 + 1 = start + len by omega] at out

theorem isFreeZoneFree {mmap start len} (wf : WellFormed mmap) (some' : 0 < len) (fits : start + len ≤ 2^32)
    (ok : (isFreeZone mmap start len).isSome = true) {a : Nat} (inside : (Area.mk start len).has a) :
    freeIn mmap a := by
  obtain ⟨ep,eq⟩ := Option.isSome_iff_exists.mp ok
  obtain ⟨z,next,rest,_,run⟩ := isFreeZoneOk wf some' fits eq
  have below := run.below
  exact ⟨by have := inside.2; simp at this; omega,run.run a (by have := inside.1; simp at this; omega) inside.2⟩

structure FreeArea (mmap : List Zone) (area : Area) : Prop where
  fits : area.start + area.len ≤ 2^32
  free : ∀ a, area.has a → freeIn mmap a

theorem zoneSize {whole z next rest} (suffix : Suffix whole (z::next::rest)) (proper : z.type ≠ smtEnd) :
    z.start + sub32 next.start z.start ≤ zoneEnd next := by
  obtain ⟨_,n,t,eq,above,_,_,nstart,nend⟩ := suffixNext suffix proper
  cases eq
  by_cases isEnd : next.type = smtEnd
  · simp only [zoneEnd,isEnd,if_true] at above ⊢
    rw [nend isEnd]; unfold sub32; split <;> omega
  · rw [nstart isEnd,sub32Eq (by omega)]; omega

theorem freeZoneArea {whole z next rest} (suffix : Suffix whole (z::next::rest)) (isFree : z.type = smtFree) :
    FreeArea whole ⟨z.start,sub32 next.start z.start⟩ := by
  have proper : z.type ≠ smtEnd := by rw [isFree]; decide
  obtain ⟨_,n,t,eq,_,top,types,_⟩ := suffixNext suffix proper
  cases eq
  have size := zoneSize suffix proper
  refine ⟨by simp only; omega,?_⟩
  intro a inside
  simp only [Area.has] at inside
  refine ⟨by omega,?_⟩
  rw [types a inside.1 (by omega),isFree]; decide

section Scan
variable {Q : List Zone → Prop} {P : Area → Prop} {best : Option Area} {list : List Zone} {area : Area}

theorem freeAreaFromFinds {len : Nat}
    (step : ∀ {z next rest}, Q (z::next::rest) → z.type ≠ smtEnd →
      Q (next::rest) ∧ (z.type = smtFree → P ⟨z.start,sub32 next.start z.start⟩))
    (start : Q list) (known : ∀ b, best = some b → P b ∧ len ≤ b.len)
    (ok : freeAreaFrom len best list = some area) : P area ∧ len ≤ area.len := by
  induction list generalizing best with
  | nil => exact known area (by simpa [freeAreaFrom] using ok)
  | cons z rest ih =>
    cases rest with
    | nil => exact known area (by simpa [freeAreaFrom] using ok)
    | cons next rest =>
      simp only [freeAreaFrom] at ok
      split at ok
      · exact known area ok
      · rename_i proper
        obtain ⟨later,zone⟩ := step start proper
        split at ok
        · rename_i better
          refine ih later ?_ ok
          intro b eq
          cases Option.some.inj eq
          exact ⟨zone better.1,better.2.1⟩
        · exact ih later known ok

theorem memmapLargestFromFinds {type : MemmapType}
    (step : ∀ {z next rest}, Q (z::next::rest) → z.type ≠ smtEnd →
      Q (next::rest) ∧ (z.type = type → P ⟨z.start,sub32 next.start z.start⟩))
    (start : Q list) (known : ∀ b, best = some b → P b ∧ 0 < b.len)
    (ok : memmapLargestFrom type best list = some area) : P area ∧ 0 < area.len := by
  induction list generalizing best with
  | nil => exact known area (by simpa [memmapLargestFrom] using ok)
  | cons z rest ih =>
    cases rest with
    | nil => exact known area (by simpa [memmapLargestFrom] using ok)
    | cons next rest =>
      simp only [memmapLargestFrom] at ok
      split at ok
      · exact known area ok
      · rename_i proper
        obtain ⟨later,zone⟩ := step start proper
        split at ok
        · rename_i better
          refine ih later ?_ ok
          intro b eq
          cases Option.some.inj eq
          exact ⟨zone better.1,Nat.lt_of_le_of_lt (Nat.zero_le _) better.2⟩
        · exact ih later known ok

end Scan

theorem freeZoneStep {whole z next rest} (suffix : Suffix whole (z::next::rest)) (proper : z.type ≠ smtEnd) :
    Suffix whole (next::rest) ∧ (z.type = smtFree → FreeArea whole ⟨z.start,sub32 next.start z.start⟩) :=
  ⟨(suffixNext suffix proper).1,freeZoneArea suffix⟩

theorem freeAreaOk {mmap len area} (wf : WellFormed mmap) (ok : freeArea mmap len = some area) :
    FreeArea mmap area ∧ len ≤ area.len :=
  freeAreaFromFinds freeZoneStep (suffixWhole wf) (by simp) ok

theorem memmapLargestOk {mmap area} (wf : WellFormed mmap) (ok : syslinuxMemmapLargest mmap smtFree = some area) :
    FreeArea mmap area ∧ 0 < area.len :=
  memmapLargestFromFinds freeZoneStep (suffixWhole wf) (by simp) ok

/- The middle `len` bytes from offset `k` on, with what is left on either side. -/
structure Cut (f : Move) (k len : Nat) (p : Pieces) : Prop where
  some' : 0 < len
  within : k + len ≤ f.len
  before : p.before = if k = 0 then [] else [f.front k]
  here : p.here = ⟨f.dst + k,f.src + k,len⟩
  after : p.after = if k + len = f.len then [] else [f.back (k + len)]

theorem cutWhole {f : Move} (some' : 0 < f.len) : Cut f 0 f.len ⟨[],f,[]⟩ :=
  ⟨some',by omega,rfl,rfl,by simp⟩

theorem splitMovelistOk {f k len m p m'} (legal : Legal f) (some' : 0 < len) (within : k + len ≤ f.len)
    (ok : splitMovelist (f.src + k) len f m = .ok (p,m')) : Cut f k len p := by
  obtain ⟨_,_,dst,src⟩ := legal
  obtain ⟨⟨before,ml⟩,m1,first,second⟩ := workBind ok
  have head : before = (if k = 0 then [] else [f.front k]) ∧ ml = ⟨f.dst + k,f.src + k,f.len - k⟩ := by
    by_cases zero : k = 0
    · subst zero
      simp only [Nat.add_zero,Nat.lt_irrefl,if_false] at first
      have eq := (workPure first).1
      simp only [Prod.mk.injEq] at eq
      exact ⟨by simp [eq.1],by simp [eq.2]⟩
    · rw [if_pos (by omega)] at first
      obtain ⟨mv,m2,made,out⟩ := workBind first
      have eq := (workPure out).1
      simp only [Prod.mk.injEq] at eq
      have l : f.src + k - f.src = k := by omega
      rw [newMovelistOk made,l,add32Eq (by omega),sub32Eq (by omega)] at eq
      exact ⟨by rw [if_neg zero,eq.1]; rfl,eq.2⟩
  obtain ⟨rfl,rfl⟩ := head
  simp only at second
  by_cases all : k + len = f.len
  · rw [if_neg (by omega)] at second
    have eq := (workPure second).1
    rw [eq]
    exact ⟨some',within,rfl,by simp; omega,by simp [all]⟩
  · rw [if_pos (by omega)] at second
    obtain ⟨mv,m2,made,out⟩ := workBind second
    have eq := (workPure out).1
    rw [newMovelistOk made,add32Eq (by omega),add32Eq (by omega)] at eq
    rw [eq]
    refine ⟨some',within,rfl,rfl,?_⟩
    simp only [all,if_false,Move.back,List.cons.injEq,Move.mk.injEq,and_true]
    omega

theorem Cut.mem {f k len p} (cut : Cut f k len p) {g} (m : g ∈ p.list) :
    (g = p.here ∧ g = ⟨f.dst + k,f.src + k,len⟩) ∨ (k ≠ 0 ∧ g = f.front k) ∨
      (k + len ≠ f.len ∧ g = f.back (k + len)) := by
  simp only [Pieces.list,cut.before,cut.after,List.mem_append,List.mem_cons] at m
  rcases m with m | m | m
  · split at m <;> simp at m
    exact Or.inr (Or.inl ⟨by assumption,m⟩)
  · exact Or.inl ⟨m,m.trans cut.here⟩
  · split at m <;> simp at m
    exact Or.inr (Or.inr ⟨by assumption,m⟩)

theorem Cut.legal {f k len p} (cut : Cut f k len p) (legal : Legal f) : ∀ g ∈ p.list, Legal g := by
  intro g m
  have within := cut.within
  have some' := cut.some'
  unfold Legal at legal ⊢
  rcases cut.mem m with ⟨_,rfl⟩ | ⟨_,rfl⟩ | ⟨_,rfl⟩
  · simp only; omega
  · simp only [Move.front]; omega
  · simp only [Move.back]; omega

theorem Cut.source {f k len p} (cut : Cut f k len p) {g a} (m : g ∈ p.list) (source : g.inSrc a) : f.inSrc a := by
  have within := cut.within
  unfold Move.inSrc at source ⊢
  rcases cut.mem m with ⟨_,rfl⟩ | ⟨_,rfl⟩ | ⟨_,rfl⟩
  · simp only at source; omega
  · simp only [Move.front] at source; omega
  · simp only [Move.back] at source; omega

theorem hereMem (p : Pieces) : p.here ∈ p.list := by simp [Pieces.list]

section
variable {β : Type} {free : Nat → Prop} {want : Nat → Option β} {mem : Nat → β}

theorem pendingCut {f k len p others} (h : Pending free want mem (f::others)) (cut : Cut f k len p) :
    Pending free want mem (p.here::(p.before ++ p.after ++ others)) := by
  have within := cut.within
  have some' := cut.some'
  rw [cut.before,cut.after,cut.here]
  by_cases front : k = 0 <;> by_cases back : k + len = f.len
  · subst front
    have same : (⟨f.dst + 0,f.src + 0,len⟩ : Move) = f := by rw [Nat.zero_add] at back; rw [back]; rfl
    rw [same]; simpa [back] using h
  · subst front
    have out := h.split some' (by omega)
    have back' : len ≠ f.len := by omega
    simpa [back',Move.front] using out
  · have out := h.split (Nat.pos_of_ne_zero front) (by omega)
    have same : f.back k = ⟨f.dst + k,f.src + k,len⟩ := by simp [Move.back]; omega
    rw [same] at out
    simp only [front,back,if_false,if_true,List.append_nil,List.cons_append,List.nil_append]
    exact out.perm (List.Perm.swap _ _ _)
  · have first := h.split (Nat.pos_of_ne_zero front) (by omega)
    have second := (first.perm (List.Perm.swap _ _ _)).split (n := len) some' (by simp [Move.back]; omega)
    have same : (f.back k).back len = f.back (k + len) := by simp [Move.back]; omega
    rw [same] at second
    simp only [front,back,if_false,List.cons_append,List.nil_append]
    exact second.perm ((List.Perm.swap _ _ _).cons _)

end

theorem freedByOk {g : Move} (legal : Legal g) (differ : g.src ≠ g.dst) :
    (freedBy g).start + (freedBy g).len ≤ 2^32 ∧ ∀ a, (freedBy g).has a ↔ g.inSrc a ∧ ¬ g.inDst a := by
  obtain ⟨some',_,dst,src⟩ := legal
  unfold freedBy Area.has Move.inSrc Move.inDst
  by_cases up : g.src < g.dst
  · simp only [up,if_true]
    exact ⟨by omega,by intro a; omega⟩
  · have room : g.dst + g.len < 2^32 := by omega
    simp only [up,if_false,add32Eq room]
    by_cases apart : g.dst + g.len ≤ g.src
    · simp only [apart,if_true]
      exact ⟨by omega,by intro a; omega⟩
    · simp only [apart,if_false]
      exact ⟨by omega,by intro a; omega⟩

structure NeedOk (f : Move) (n : Need) : Prop where
  some' : 0 < n.len
  top : n.base + n.len ≤ 2^32
  exactly : ∀ a, n.base ≤ a ∧ a < n.base + n.len ↔ f.inDst a ∧ ¬ f.inSrc a
  up : n.reverse = true → n.base + n.len = f.dst + f.len ∧ n.cbyte + 1 = n.base + n.len ∧ n.len < f.len
  down : n.reverse = false → n.base = f.dst ∧ n.cbyte = n.base ∧ n.len ≤ f.len

theorem needOk {f : Move} (legal : Legal f) (differ : f.src ≠ f.dst) : NeedOk f (need f) := by
  obtain ⟨some',_,dst,src⟩ := legal
  unfold need
  split
  · rename_i up
    have base : add32 f.dst (f.len - (f.dst - f.src)) = f.dst + (f.len - (f.dst - f.src)) := add32Eq (by omega)
    simp only [base,lastOf some' dst]
    exact ⟨by simp only; omega,by simp only; omega,by intro a; simp only [Move.inDst,Move.inSrc]; omega,
      by intro _; simp only; omega,by simp⟩
  · split
    · exact ⟨by simp only; omega,by simp only; omega,by intro a; simp only [Move.inDst,Move.inSrc]; omega,
        by simp,fun _ => ⟨rfl,rfl,by simp only; omega⟩⟩
    · exact ⟨by simp only; omega,by simp only; omega,by intro a; simp only [Move.inDst,Move.inSrc]; omega,
        by simp,fun _ => ⟨rfl,rfl,by simp only; omega⟩⟩

def Need.claims (n : Need) (copylen a : Nat) : Prop :=
  if n.reverse then n.base + n.len ≤ a + copylen ∧ a < n.base + n.len else n.base ≤ a ∧ a < n.base + copylen

structure ChunkOk (mmap : List Zone) (f : Move) (copylen : Nat) (c : Chunk) : Prop where
  cut : ∃ k len p, Cut f k len p ∧ c.move = p.here ∧ c.left = p.before ++ p.after ∧ c.move.src ≠ c.move.dst ∧
    ∀ a, p.here.inDst a → (need f).claims copylen a ∨ f.inSrc a ∧ c.left = []
  freed : Repainted mmap c.mmap (freedBy c.move) smtFree

/- The part of f that move_chunk moves, and the one change it makes to the map. -/
theorem moveChunkCut {mmap f copylen m c m'} (legal : Legal f) (differ : f.src ≠ f.dst) (some' : 0 < copylen)
    (le : copylen ≤ (need f).len) (ok : moveChunk mmap f copylen m = .ok (c,m')) :
    (∃ k len p, Cut f k len p ∧ c.move = p.here ∧ c.left = p.before ++ p.after ∧ c.move.src ≠ c.move.dst ∧
      ∀ a, p.here.inDst a → (need f).claims copylen a ∨ f.inSrc a ∧ c.left = []) ∧
    ∃ m1, addFreelist mmap (freedBy c.move).start (freedBy c.move).len smtFree m1 = .ok (c.mmap,m') := by
  have n := needOk legal differ
  obtain ⟨p,m1,first,rest⟩ := workBind ok
  obtain ⟨mv,m2,made,rest⟩ := workBind rest
  obtain ⟨mmap',m3,painted,out⟩ := workBind rest
  rw [(workPure out).1]
  have piece : ∃ k len, Cut f k len p ∧ ∀ a, p.here.inDst a →
      (need f).claims copylen a ∨ f.inSrc a ∧ p.before ++ p.after = [] := by
    by_cases part : copylen < (need f).len
    · rw [if_pos part] at first
      cases rev : (need f).reverse with
      | true =>
        obtain ⟨stop,_,less⟩ := n.up rev
        simp only [rev,if_true] at first
        rw [sub32Eq (by omega),add32Eq (by have := legal.2.2.2; omega)] at first
        have cut := splitMovelistOk legal some' (by omega) first
        refine ⟨_,_,cut,?_⟩
        intro a inside
        rw [cut.here] at inside
        simp only [Move.inDst] at inside
        exact Or.inl (by simp only [Need.claims,rev,if_true]; omega)
      | false =>
        obtain ⟨base,_,less⟩ := n.down rev
        simp only [rev,Bool.false_eq_true,if_false] at first
        have cut := splitMovelistOk (k := 0) legal some' (by omega) first
        refine ⟨_,_,cut,?_⟩
        intro a inside
        rw [cut.here] at inside
        simp only [Move.inDst] at inside
        exact Or.inl (by simp only [Need.claims,rev,Bool.false_eq_true,if_false]; omega)
    · rw [if_neg part] at first
      rw [(workPure first).1]
      refine ⟨_,_,cutWhole legal.1,?_⟩
      intro a inside
      by_cases own : f.inSrc a
      · exact Or.inr ⟨own,rfl⟩
      · have within := (n.exactly a).mpr ⟨inside,own⟩
        refine Or.inl ?_
        unfold Need.claims
        split <;> omega
  obtain ⟨k,len,cut,reach⟩ := piece
  have made' := newMovelistOk made
  have same : (⟨p.here.dst,p.here.src,p.here.len⟩ : Move) = p.here := rfl
  rw [same] at made'
  subst made'
  have differ' : p.here.src ≠ p.here.dst := by rw [cut.here]; simp only; omega
  rw [(workPure out).2]
  exact ⟨⟨k,len,p,cut,rfl,rfl,differ',reach⟩,m2,painted⟩

theorem moveChunkOk {mmap f copylen m c m'} (wf : WellFormed mmap) (legal : Legal f) (differ : f.src ≠ f.dst)
    (some' : 0 < copylen) (le : copylen ≤ (need f).len)
    (ok : moveChunk mmap f copylen m = .ok (c,m')) : ChunkOk mmap f copylen c := by
  obtain ⟨moved,m1,painted⟩ := moveChunkCut legal differ some' le ok
  refine ⟨moved,?_⟩
  obtain ⟨k,len,p,cut,move,_,differ',_⟩ := moved
  have legal' : Legal c.move := by rw [move]; exact cut.legal legal p.here (hereMem p)
  exact addFreelistOk wf (by decide) (freedByOk legal' differ').1 painted

end Syslinux.Movebits
