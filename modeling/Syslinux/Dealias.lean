import Syslinux.MovebitsSetup

/-! The rescanning loop of shuffle_dealias returns. A scan puts at most the part behind an
overlap back in front of the fragments still to come, and that part ends no later than the
fragment it was cut from and is shorter where it ends at the same byte. This holds also in
a scan that goes on with the bounds of a piece it has removed. -/
namespace Syslinux.Movebits
open Zonelist Zonelist.MemmapType Relocation

def lastSource (f : Move) : Nat := sub32 (add32 f.src f.len) 1

def Sized (f : Move) : Prop := 0 < f.len ∧ f.len < 2^32 ∧ f.src < 2^32

def rank (f : Move) : Nat := lastSource f * 2^32 + f.len

theorem legalSized {f : Move} (legal : Legal f) : Sized f := by
  obtain ⟨some',small,_,src⟩ := legal
  exact ⟨some',small,by omega⟩

theorem add32Bound (a b : Nat) : add32 a b < 2^32 := Nat.mod_lt _ (by decide)

theorem sub32Bound {a b : Nat} (small : a < 2^32) : sub32 a b < 2^32 := by
  unfold sub32
  split <;> omega

theorem lastSourceBehind {f : Move} {dst delta : Nat} (small : delta < 2^32) :
    lastSource ⟨dst,sub32 (add32 f.src f.len) delta,delta⟩ = lastSource f := by
  have bound := add32Bound f.src f.len
  have same : add32 (sub32 (add32 f.src f.len) delta) delta = add32 f.src f.len := by
    generalize add32 f.src f.len = stop at bound
    unfold add32 sub32
    split <;> omega
  simp only [lastSource,same]

theorem lastSourceBefore {dst ps xs : Nat} (less : ps < xs) (small : xs < 2^32) :
    lastSource ⟨dst,ps,xs - ps⟩ = xs - 1 := by
  simp only [lastSource]
  rw [lastOf (by omega) (by omega)]
  omega

theorem lastSourceShape {f : Move} (sized : Sized f) (above : f.src ≤ lastSource f) : lastSource f + 1 = f.src + f.len := by
  obtain ⟨some',_,_⟩ := sized
  by_cases fits : f.src + f.len ≤ 2^32
  · rw [lastSource,lastOf some' fits]
    omega
  · exfalso
    have stop : add32 f.src f.len = f.src + f.len - 2^32 := by unfold add32; omega
    rw [lastSource,stop,sub32Eq (by omega)] at above
    omega

/- A scan about mp under way, with the piece p in its place and the bounds ps and pe. -/
structure Scanning (mp p : Move) (ps pe : Nat) : Prop where
  sized : Sized p
  start : ps < 2^32
  within : pe ≤ lastSource mp
  piece : lastSource p < lastSource mp ∨ lastSource p = lastSource mp ∧ ps = mp.src

theorem scanningStart {mp : Move} (sized : Sized mp) : Scanning mp mp mp.src (lastSource mp) :=
  ⟨sized,sized.2.2,le_rfl,Or.inr ⟨rfl,rfl⟩⟩

section Hit
variable {mp p mx : Move} {ps pe : Nat} {next : List Move} {advance : Bool}

theorem splitBehindAll : splitBehind p pe (lastSource mx) next [] = .ok (if lastSource mx < pe then
      ({ p with len := sub32 p.len (pe - lastSource mx) },lastSource mx,
        ⟨sub32 (add32 p.dst p.len) (pe - lastSource mx),sub32 (add32 p.src p.len) (pe - lastSource mx),
          pe - lastSource mx⟩::next,true)
    else (p,pe,next,false),[]) := by
  unfold splitBehind
  split <;> rfl

theorem splitBeforeAll : splitBefore p ps mx.src next advance [] = .ok (if ps < mx.src then
      (⟨add32 p.dst (mx.src - ps),add32 p.src (mx.src - ps),sub32 p.len (mx.src - ps)⟩,add32 p.src (mx.src - ps),
        ⟨p.dst,ps,mx.src - ps⟩::next,true)
    else (p,ps,next,advance),[]) := by
  unfold splitBefore
  split <;> rfl

theorem Scanning.behind (h : Scanning mp p ps pe) (dst : Nat) (start : ps < lastSource mx)
    (more : lastSource mx < pe) :
    Scanning mp ⟨dst,sub32 (add32 p.src p.len) (pe - lastSource mx),pe - lastSource mx⟩ ps (lastSource mx) := by
  have within := h.within
  have small : lastSource mp < 2^32 := sub32Bound (add32Bound _ _)
  refine ⟨⟨by simp only; omega,by simp only; omega,sub32Bound (add32Bound _ _)⟩,h.start,by omega,?_⟩
  rw [lastSourceBehind (by omega)]
  exact h.piece

theorem Scanning.spawned (h : Scanning mp p ps pe) (sized : Sized mp) (dst : Nat) (start : ps < lastSource mx)
    (more : lastSource mx < pe) :
    rank ⟨dst,sub32 (add32 p.src p.len) (pe - lastSource mx),pe - lastSource mx⟩ < rank mp := by
  have within := h.within
  have small : lastSource mp < 2^32 := sub32Bound (add32Bound _ _)
  rw [rank,rank,lastSourceBehind (by omega)]
  simp only
  rcases h.piece with less | ⟨same,rfl⟩
  · omega
  · have := lastSourceShape sized (by omega)
    omega

theorem Scanning.before (h : Scanning mp p ps pe) (dst ps' pe' : Nat) (bound : ps' < 2^32)
    (within' : pe' ≤ lastSource mp) (sizedX : Sized mx) (more : ps < mx.src) (reach : mx.src < pe) :
    Scanning mp ⟨dst,ps,mx.src - ps⟩ ps' pe' := by
  have within := h.within
  obtain ⟨_,_,small⟩ := sizedX
  refine ⟨⟨by simp only; omega,by simp only; omega,h.start⟩,bound,within',Or.inl ?_⟩
  rw [lastSourceBefore more small]
  omega

end Hit

theorem dealiasScanAll {mp : Move} (sized : Sized mp) {mxs p ps pe} (next post : List Move)
    (sizedX : ∀ f ∈ mxs, Sized f) (h : Scanning mp p ps pe) : ∃ kept spawned post',
      dealiasScan mxs p ps pe next post [] = .ok ((kept,spawned ++ next,post'),[]) ∧
      (∀ g ∈ kept, Sized g) ∧ ∀ g ∈ spawned, Sized g ∧ rank g < rank mp := by
  induction mxs generalizing p ps pe next post with
  | nil => exact ⟨some p,[],post,rfl,by simpa using h.sized,by simp⟩
  | cons mx mxs ih =>
    have sizedMx := sizedX mx List.mem_cons_self
    have later := fun f mem => sizedX f (List.mem_cons_of_mem mx mem)
    have within := h.within
    have xe : sub32 (add32 mx.src mx.len) 1 = lastSource mx := rfl
    simp only [dealiasScan,xe]
    by_cases clear : pe ≤ mx.src ∨ lastSource mx ≤ ps
    · rw [if_pos clear]
      exact ih next post later h
    · rw [if_neg clear]
      simp only [bind,StateT.bind,Except.bind,splitBehindAll]
      by_cases behind : lastSource mx < pe
      · simp only [if_pos behind,splitBeforeAll]
        by_cases before : ps < mx.src
        · -- cut on both sides: the part behind goes back to the list
          simp only [if_pos before]
          obtain ⟨kept,spawned,post',ok,keptSized,smaller⟩ := ih _ _ later
            (h.before p.dst _ (lastSource mx) (add32Bound p.src (mx.src - ps)) (by omega) sizedMx before (by omega))
          refine ⟨kept,spawned ++ [_],post',by rw [List.append_assoc]; exact ok,keptSized,?_⟩
          intro g mem
          rcases List.mem_append.mp mem with old | new
          · exact smaller g old
          · rw [List.mem_singleton.mp new]
            exact ⟨(h.behind _ (by omega) behind).sized,h.spawned sized _ (by omega) behind⟩
        · simp only [if_neg before]
          exact ih next _ later (h.behind _ (by omega) behind)
      · simp only [if_neg behind,splitBeforeAll]
        by_cases before : ps < mx.src
        · simp only [if_pos before]
          exact ih next _ later (h.before p.dst _ pe (add32Bound p.src (mx.src - ps)) within sizedMx before
            (by omega))
        · simp only [if_neg before]
          exact ⟨none,[],_,rfl,by simp,by simp⟩

def Returns (done list post : List Move) : Prop :=
  ∃ n frags postcopy, ∀ fuel, n ≤ fuel → shuffleDealias fuel done list post [] = .ok ((frags,postcopy),[])

def Drained (next : List Move) : Prop := ∀ done post, (∀ f ∈ done, Sized f) → Returns done next post

theorem drainedNil : Drained [] := by
  intro done post _
  refine ⟨0,done,post,?_⟩
  intro fuel _
  cases fuel <;> rfl

/- By induction on the rank: what the scan about p puts back has a smaller one. -/
theorem drainedCons {n p next} (bound : rank p < n) (sized : Sized p) (rest : Drained next) : Drained (p::next) := by
  induction n generalizing p next with
  | zero => omega
  | succ n ih =>
    intro done post sizedDone
    obtain ⟨kept,spawned,post',scan,keptSized,smaller⟩ :=
      dealiasScanAll sized next post sizedDone (scanningStart sized)
    have list : Drained (spawned ++ next) := by
      clear scan
      induction spawned with
      | nil => exact rest
      | cons g spawned ih' =>
        have head := smaller g List.mem_cons_self
        exact ih (by omega) head.1 (ih' (fun f mem => smaller f (List.mem_cons_of_mem _ mem)))
    have step : ∀ done', (∀ f ∈ done', Sized f) → done' = done ++ kept.toList → Returns done (p::next) post := by
      intro done' sized' eq
      obtain ⟨k,frags,postcopy,later⟩ := list done' post' sized'
      refine ⟨k + 1,frags,postcopy,?_⟩
      intro fuel enough
      obtain ⟨fuel,rfl⟩ : ∃ f, fuel = f + 1 := ⟨fuel - 1,by omega⟩
      have first : dealiasScan done p p.src (sub32 (add32 p.src p.len) 1) next post [] =
        .ok ((kept,spawned ++ next,post'),[]) := scan
      simp only [shuffleDealias,bind,StateT.bind,Except.bind,first]
      have := later fuel (by omega)
      cases kept with
      | none => rwa [eq,Option.toList,List.append_nil] at this
      | some g => rwa [eq] at this
    refine step _ ?_ rfl
    intro f mem
    rcases List.mem_append.mp mem with old | new
    · exact sizedDone f old
    · exact keptSized f (by simpa using new)

theorem shuffleDealiasReturns {list : List Move} (sized : ∀ f ∈ list, Sized f) : Drained list := by
  induction list with
  | nil => exact drainedNil
  | cons f rest ih =>
    exact drainedCons (Nat.lt_succ_self _) (sized f List.mem_cons_self)
      (ih (fun g mem => sized g (List.mem_cons_of_mem _ mem)))

end Syslinux.Movebits
