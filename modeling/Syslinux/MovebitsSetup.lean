import Syslinux.MovebitsSpec

/-! What syslinux_compute_movelist does before its planning loop: the copy of the
fragment list, the removal of aliased sources, and the private memory map. -/
namespace Syslinux.Movebits
open Zonelist Zonelist.MemmapType Relocation

theorem dupMovelistOk {frags m out m'} (ok : dupMovelist frags m = .ok (out,m')) : out = frags := by
  induction frags generalizing m out m' with
  | nil => exact (workPure ok).1
  | cons f rest ih =>
    obtain ⟨ml,m1,made,later⟩ := workBind ok
    obtain ⟨tail,m2,copied,out'⟩ := workBind later
    rw [(workPure out').1,newMovelistOk made,ih copied]

theorem initMemmapOk {m mmap m'} (ok : initMemmap m = .ok (mmap,m')) : mmap = syslinuxInitMemmap := by
  unfold initMemmap at ok
  split at ok
  · contradiction
  · split at ok
    · contradiction
    · simp only [Except.ok.injEq,Prod.mk.injEq] at ok
      exact ok.1.symm

/- The overlap test of shuffle_dealias: ranges that share only one end byte pass it. -/
def Clear (mx : Move) (ps pe : Nat) : Prop := pe ≤ mx.src ∨ sub32 (add32 mx.src mx.len) 1 ≤ ps
instance (mx ps pe) : Decidable (Clear mx ps pe) := by unfold Clear; infer_instance

/- Once mp has been split, the rest of the scan still compares the bounds of the piece
that went to the post-copies. It is harmless while nothing overlaps that piece. -/
def ScanSound : List Move → Nat → Nat → Prop
  | [],_,_ => True
  | mx::mxs,ps,pe =>
      if Clear mx ps pe then ScanSound mxs ps pe
      else
        let xe := sub32 (add32 mx.src mx.len) 1
        xe < pe ∨ ps < mx.src → ∀ my ∈ mxs, Clear my (max ps mx.src) (min pe xe)
instance decidableScanSound : ∀ mxs ps pe, Decidable (ScanSound mxs ps pe)
  | [],_,_ => isTrue trivial
  | mx::mxs,ps,pe => by
      unfold ScanSound
      have := decidableScanSound mxs ps pe
      infer_instance

theorem scanClear {mxs mp ps pe next post} (clear : ∀ mx ∈ mxs, Clear mx ps pe) :
    dealiasScan mxs mp ps pe next post = pure (some mp,next,post) := by
  induction mxs with
  | nil => rfl
  | cons mx mxs ih =>
    have first := clear mx List.mem_cons_self
    unfold Clear at first
    simp only [dealiasScan,first,if_true]
    exact ih (fun my m => clear my (List.mem_cons_of_mem _ m))

theorem splitBehindOk {mp next xe m r m'} (legal : Legal mp) (reach : mp.src ≤ xe)
    (ok : splitBehind mp (mp.src + mp.len - 1) xe next m = .ok (r,m')) :
    r.1 = ⟨mp.dst,mp.src,min (mp.src + mp.len) (xe + 1) - mp.src⟩ ∧ r.2.1 = min (mp.src + mp.len - 1) xe ∧
      r.2.2 = if xe + 1 < mp.src + mp.len then (mp.back (xe + 1 - mp.src)::next,true) else (next,false) := by
  obtain ⟨some',_,dst,src⟩ := legal
  unfold splitBehind at ok
  by_cases behind : xe + 1 < mp.src + mp.len
  · rw [if_pos (by omega)] at ok
    obtain ⟨np,m1,made,out⟩ := workBind ok
    have made := newMovelistOk made
    rw [show add32 mp.dst mp.len = (mp.dst + mp.len) % 2^32 from rfl,
      show add32 mp.src mp.len = (mp.src + mp.len) % 2^32 from rfl,
      endMinus dst (by omega) (by omega),endMinus src (by omega) (by omega)] at made
    rw [(workPure out).1,made,if_pos behind,sub32Eq (by omega)]
    simp only [Move.back,Move.mk.injEq,Prod.mk.injEq,List.cons.injEq,true_and,and_true]
    omega
  · rw [if_neg (by omega)] at ok
    rw [(workPure ok).1,if_neg behind]
    refine ⟨?_,by simp only; omega,rfl⟩
    rw [show min (mp.src + mp.len) (xe + 1) - mp.src = mp.len by omega]

theorem splitBeforeOk {mp next xs advance m r m'} (legal : Legal mp) (reach : xs < mp.src + mp.len)
    (ok : splitBefore mp mp.src xs next advance m = .ok (r,m')) :
    r.1 = mp.back (xs - mp.src) ∧ r.2.1 = max mp.src xs ∧
      r.2.2 = if mp.src < xs then (mp.front (xs - mp.src)::next,true) else (next,advance) := by
  obtain ⟨some',_,dst,src⟩ := legal
  unfold splitBefore at ok
  by_cases before : mp.src < xs
  · rw [if_pos before] at ok
    obtain ⟨np,m1,made,out⟩ := workBind ok
    rw [(workPure out).1,newMovelistOk made,if_pos before,add32Eq (by omega),add32Eq (by omega),sub32Eq (by omega)]
    refine ⟨rfl,by simp only; omega,rfl⟩
  · rw [if_neg before] at ok
    rw [(workPure ok).1,if_neg before]
    refine ⟨?_,by simp only; omega,rfl⟩
    simp [Move.back,show xs - mp.src = 0 by omega]

inductive ScanAt (done : List Move) (mp : Move) (next post : List Move) :
    Option Move × List Move × List Move → Prop where
  | apart (clear : ∀ mx ∈ done, Clear mx mp.src (mp.src + mp.len - 1)) : ScanAt done mp next post (some mp,next,post)
  | split {pre mx rest p} (place : done = pre ++ mx::rest)
      (clear : ∀ my ∈ pre, Clear my mp.src (mp.src + mp.len - 1)) (hit : ¬ Clear mx mp.src (mp.src + mp.len - 1))
      (cut : Cut mp (max mp.src mx.src - mp.src)
        (min (mp.src + mp.len) (mx.src + mx.len) - max mp.src mx.src) p) :
      ScanAt done mp next post ((p.before ++ p.after).head?,(p.before ++ p.after).tail ++ next,
        ⟨p.here.dst,mx.dst + (max mp.src mx.src - mx.src),p.here.len⟩::post)

theorem ScanAt.more {done mp next post r mx} (h : ScanAt done mp next post r)
    (first : Clear mx mp.src (mp.src + mp.len - 1)) : ScanAt (mx::done) mp next post r := by
  cases h with
  | apart clear => exact .apart (List.forall_mem_cons.mpr ⟨first,clear⟩)
  | split place clear hit cut =>
    exact .split (by rw [place]; rfl) (List.forall_mem_cons.mpr ⟨first,clear⟩) hit cut

theorem dealiasScanAt {done mp next post m r m'} (legal : ∀ f ∈ done, Legal f) (legal' : Legal mp)
    (sound : ScanSound done mp.src (mp.src + mp.len - 1))
    (ok : dealiasScan done mp mp.src (mp.src + mp.len - 1) next post m = .ok (r,m')) :
    ScanAt done mp next post r := by
  induction done with
  | nil => rw [(workPure ok).1]; exact .apart (by simp)
  | cons mx mxs ih =>
    obtain ⟨xsome,_,xdst,xtop⟩ := legal mx List.mem_cons_self
    have bounds := legal'
    obtain ⟨some',small,dst,src⟩ := bounds
    simp only [ScanSound,Clear,lastOf xsome xtop] at sound
    simp only [dealiasScan,lastOf xsome xtop] at ok
    by_cases clear : mp.src + mp.len - 1 ≤ mx.src ∨ mx.src + mx.len - 1 ≤ mp.src
    · rw [if_pos clear] at ok sound
      refine (ih (fun f m => legal f (List.mem_cons_of_mem _ m)) sound ok).more ?_
      rw [Clear,lastOf xsome xtop]; exact clear
    · rw [if_neg clear] at ok sound
      obtain ⟨⟨mp1,pe,here1,advance1⟩,m1,first,ok⟩ := workBind ok
      obtain ⟨⟨mp2,ps,here2,advance2⟩,m2,second,ok⟩ := workBind ok
      obtain ⟨eq1,rfl,back⟩ := splitBehindOk legal' (by omega) first
      simp only at eq1 back second ok
      rw [show mx.src + mx.len - 1 + 1 = mx.src + mx.len by omega] at eq1 back
      have src1 : mp.src = mp1.src := by rw [eq1]
      rw [src1] at second
      obtain ⟨eq2,rfl,front⟩ := splitBeforeOk (by rw [eq1]; unfold Legal; simp only; omega)
        (by rw [eq1]; simp only; omega) second
      simp only at eq2 front
      let k := max mp.src mx.src - mp.src
      let len := min (mp.src + mp.len) (mx.src + mx.len) - max mp.src mx.src
      let p : Pieces := ⟨if k = 0 then [] else [mp.front k],mp2,if k + len = mp.len then [] else [mp.back (k + len)]⟩
      have cut : Cut mp k len p := by
        refine ⟨by omega,by omega,rfl,?_,rfl⟩
        show mp2 = _
        rw [eq2,eq1]
        simp only [Move.back,Move.mk.injEq,k,len]
        omega
      have before : p.before = if mp.src < mx.src then [mp.front (mx.src - mp.src)] else [] := by
        simp only [p,k]
        split <;> split <;> first | rfl | omega | skip
        rw [show max mp.src mx.src - mp.src = mx.src - mp.src by omega]
      have after : p.after = if mx.src + mx.len < mp.src + mp.len then [mp.back (mx.src + mx.len - mp.src)] else [] := by
        simp only [p,k,len]
        split <;> split <;> first | rfl | omega | skip
        rw [show max mp.src mx.src - mp.src + (min (mp.src + mp.len) (mx.src + mx.len) - max mp.src mx.src) =
          mx.src + mx.len - mp.src by omega]
      have left : here2 = p.before ++ p.after ++ next ∧
          (advance2 = true ↔ mx.src + mx.len < mp.src + mp.len ∨ mp.src < mx.src) ∧
          (advance2 = true ↔ p.before ++ p.after ≠ []) := by
        have same : mp1.front (mx.src - mp1.src) = mp.front (mx.src - mp.src) := by rw [eq1]; rfl
        rw [same,← src1] at front
        rw [before,after]
        by_cases behind : mx.src + mx.len < mp.src + mp.len
        · simp only [behind,if_true,Prod.mk.injEq] at back
          obtain ⟨rfl,rfl⟩ := back
          by_cases under : mp.src < mx.src
          · simp only [under,if_true,Prod.mk.injEq] at front
            simp [front.1,front.2,behind,under]
          · simp only [under,if_false,Prod.mk.injEq] at front
            simp [front.1,front.2,behind,under]
        · simp only [behind,if_false,Prod.mk.injEq] at back
          obtain ⟨rfl,rfl⟩ := back
          by_cases under : mp.src < mx.src
          · simp only [under,if_true,Prod.mk.injEq] at front
            simp [front.1,front.2,behind,under]
          · simp only [under,if_false,Prod.mk.injEq] at front
            simp [front.1,front.2,behind,under]
      obtain ⟨rest,moved,pieces⟩ := left
      have source : add32 mx.dst (sub32 (max mp1.src mx.src) mx.src) = mx.dst + (max mp.src mx.src - mx.src) := by
        rw [← src1,sub32Eq (by omega),add32Eq (by omega)]
      have hit : ¬ Clear mx mp.src (mp.src + mp.len - 1) := by rw [Clear,lastOf xsome xtop]; exact clear
      have scanned : ScanAt (mx::mxs) mp next post ((p.before ++ p.after).head?,(p.before ++ p.after).tail ++ next,
          ⟨p.here.dst,mx.dst + (max mp.src mx.src - mx.src),p.here.len⟩::post) :=
        .split (List.nil_append _).symm (by simp) hit cut
      rw [source] at ok
      cases adv : advance2 with
      | false =>
        have none' : p.before ++ p.after = [] := by
          by_contra some'
          exact absurd (pieces.mpr some') (by simp [adv])
        rw [adv] at ok
        simp only at ok
        rw [none'] at scanned rest
        rw [(workPure ok).1,rest]
        exact scanned
      | true =>
        obtain ⟨g,more,eq⟩ := List.exists_cons_of_ne_nil (pieces.mp adv)
        rw [eq] at scanned rest
        rw [adv,rest] at ok
        have clear' := sound (by have := moved.mp adv; omega)
        simp only [List.cons_append] at ok
        rw [← src1,scanClear (fun my m => by simpa [Clear] using clear' my m)] at ok
        rw [(workPure ok).1]
        exact scanned

inductive Scanned (done : List Move) (mp : Move) (next post : List Move) :
    Option Move × List Move × List Move → Prop where
  | apart : Scanned done mp next post (some mp,next,post)
  | split {mx k len p mp' next'} (src : Nat) (earlier : mx ∈ done) (cut : Cut mp k len p)
      (aliased : ∀ a, p.here.inSrc a → mx.inSrc a)
      (left : mp'.toList ++ next' = p.before ++ p.after ++ next) :
      Scanned done mp next post (mp',next',⟨p.here.dst,src,p.here.len⟩::post)

theorem ScanAt.scanned {done mp next post r} (h : ScanAt done mp next post r) : Scanned done mp next post r := by
  cases h with
  | apart => exact .apart
  | @split pre mx rest p place _ _ cut =>
    refine .split _ (place ▸ List.mem_append_right _ List.mem_cons_self) cut ?_ ?_
    · intro a inside
      have within := cut.within
      rw [cut.here] at inside
      unfold Move.inSrc at inside ⊢
      simp only at inside; omega
    · cases p.before ++ p.after <;> simp

/- A part of a fragment, at the same place in its source and its destination. -/
def PieceOf (f g : Move) : Prop := ∃ k, g.dst = f.dst + k ∧ g.src = f.src + k ∧ k + g.len ≤ f.len

theorem pieceTrans {f g h} (first : PieceOf f g) (second : PieceOf g h) : PieceOf f h := by
  obtain ⟨k,dst,src,within⟩ := first
  obtain ⟨l,dst',src',within'⟩ := second
  exact ⟨k + l,by omega,by omega,by omega⟩

theorem PieceOf.source {f g a} (h : PieceOf f g) (inside : g.inSrc a) : f.inSrc a := by
  obtain ⟨k,_,src,within⟩ := h
  unfold Move.inSrc at inside ⊢; omega

theorem Cut.rest {f k len p} (cut : Cut f k len p) : ∀ g ∈ p.before ++ p.after, g ∈ p.list ∧ PieceOf f g := by
  intro g m
  have within := cut.within
  have listed : g ∈ p.list := by
    simp only [Pieces.list,List.mem_append,List.mem_cons] at m ⊢
    rcases m with m | m
    · exact Or.inl m
    · exact Or.inr (Or.inr m)
  refine ⟨listed,?_⟩
  rcases cut.mem listed with ⟨_,rfl⟩ | ⟨_,rfl⟩ | ⟨_,rfl⟩
  · exact ⟨k,rfl,rfl,within⟩
  · exact ⟨0,rfl,rfl,by simp only [Move.front]; omega⟩
  · exact ⟨k + len,rfl,rfl,by simp only [Move.back]; omega⟩

theorem Cut.restApart {f k len p} (cut : Cut f k len p) : (p.before ++ p.after).Pairwise SrcApart := by
  rw [cut.before,cut.after]
  split <;> split <;> simp [SrcApart,Move.front,Move.back]

theorem pairwiseReplace {α : Type} {R : α → α → Prop} {pre post xs : List α} {x : α}
    (h : (pre ++ x::post).Pairwise R) (own : xs.Pairwise R)
    (before : ∀ y ∈ xs, ∀ z, R z x → R z y) (after : ∀ y ∈ xs, ∀ z, R x z → R y z) :
    (pre ++ (xs ++ post)).Pairwise R := by
  obtain ⟨front,back,cross⟩ := List.pairwise_append.mp h
  obtain ⟨head,tail⟩ := List.pairwise_cons.mp back
  refine List.pairwise_append.mpr ⟨front,List.pairwise_append.mpr ⟨own,tail,?_⟩,?_⟩
  · intro y m z later
    exact after y m z (head z later)
  · intro z m y later
    rcases List.mem_append.mp later with new | old
    · exact before y new z (cross z m x List.mem_cons_self)
    · exact cross z m y (List.mem_cons_of_mem _ old)

def InOrder (x y : Nat × Move) : Prop := x.1 ≤ y.1 ∧ (x.1 = y.1 → SrcApart x.2 y.2)

def Aliased (ifrags : List Move) (a : Nat) : Prop :=
  ∃ (i j : Nat) (g f : Move), i < j ∧ ifrags[i]? = some g ∧ ifrags[j]? = some f ∧ f.inDst a ∧ g.inSrc (f.src + (a - f.dst))

structure Dealiasing (ifrags done next post : List Move) : Prop where
  legal : ∀ f ∈ done ++ next, Legal f
  labelled : ∃ ls : List (Nat × Move), ls.map Prod.snd = done ++ next ∧ ls.Pairwise InOrder ∧
    ∀ x ∈ ls, ∃ f, ifrags[x.1]? = some f ∧ PieceOf f x.2
  post : ∀ p ∈ post, ∀ a, p.inDst a → Aliased ifrags a

theorem dealiasingStart {ifrags} (legal : ∀ f ∈ ifrags, Legal f) : Dealiasing ifrags [] ifrags [] := by
  refine ⟨legal,⟨ifrags.zipIdx.map Prod.swap,?_,?_,?_⟩,by simp⟩
  · rw [List.map_map,show Prod.snd ∘ Prod.swap = (Prod.fst : Move × Nat → Move) from rfl,List.zipIdx_map_fst]
    rfl
  · rw [List.pairwise_map,List.pairwise_iff_getElem]
    intro i j hi hj less
    simp only [List.getElem_zipIdx,Prod.swap,InOrder]
    omega
  · intro x m
    obtain ⟨⟨f,i⟩,mem,rfl⟩ := List.mem_map.mp m
    have found : ifrags[i]? = some f := List.mem_zipIdx_iff_getElem?.mp mem
    exact ⟨f,found,0,rfl,rfl,by simp⟩

theorem dealiasingScan {ifrags done mp next post mp' next' post'} (h : Dealiasing ifrags done (mp::next) post)
    (scanned : Scanned done mp next post (mp',next',post')) : Dealiasing ifrags (done ++ mp'.toList) next' post' := by
  cases scanned with
  | apart =>
    have same : done ++ mp::next = (done ++ [mp]) ++ next := by simp
    exact ⟨same ▸ h.legal,same ▸ h.labelled,h.post⟩
  | @split mx k len p _ _ src earlier cut aliased left =>
    have same : done ++ mp'.toList ++ next' = done ++ (p.before ++ p.after ++ next) := by
      rw [List.append_assoc,left]
    have legalMp : Legal mp := h.legal mp (by simp)
    obtain ⟨ls,names,order,pieces⟩ := h.labelled
    obtain ⟨pre,tail,rfl,first,second⟩ := List.map_eq_append_iff.mp names
    obtain ⟨⟨i,g⟩,rest,rfl,eq,third⟩ := List.map_eq_cons_iff.mp second
    simp only at eq
    subst eq
    obtain ⟨f,isF,pieceF⟩ := pieces (i,g) (by simp)
    refine ⟨?_,⟨pre ++ ((p.before ++ p.after).map (fun q => (i,q)) ++ rest),?_,?_,?_⟩,?_⟩
    · intro q m
      rw [same] at m
      simp only [List.mem_append] at m
      rcases m with m | m | m
      · exact h.legal q (by simp [m])
      · exact cut.legal legalMp q (cut.rest q (List.mem_append.mpr m)).1
      · exact h.legal q (by simp [m])
    · rw [same]
      simp [first,third,Function.comp_def]
    · refine pairwiseReplace order ?_ ?_ ?_
      · rw [List.pairwise_map]
        exact cut.restApart.imp (fun apart => ⟨Nat.le_refl _,fun _ => apart⟩)
      · intro y m z before
        obtain ⟨q,mq,rfl⟩ := List.mem_map.mp m
        obtain ⟨l,_,srcQ,within⟩ := (cut.rest q mq).2
        refine ⟨before.1,fun eq => ?_⟩
        have apart := before.2 eq
        unfold SrcApart at apart ⊢
        simp only at apart ⊢; omega
      · intro y m z after
        obtain ⟨q,mq,rfl⟩ := List.mem_map.mp m
        obtain ⟨l,_,srcQ,within⟩ := (cut.rest q mq).2
        refine ⟨after.1,fun eq => ?_⟩
        have apart := after.2 eq
        unfold SrcApart at apart ⊢
        simp only at apart ⊢; omega
    · intro x m
      rcases List.mem_append.mp m with old | m
      · exact pieces x (by simp [old])
      · rcases List.mem_append.mp m with new | old
        · obtain ⟨q,mq,rfl⟩ := List.mem_map.mp new
          exact ⟨f,isF,pieceTrans pieceF (cut.rest q mq).2⟩
        · exact pieces x (by simp [old])
    · intro q m a inside
      rcases List.mem_cons.mp m with rfl | old
      · -- mx comes from an earlier fragment: pieces of one fragment never overlap
        have some' := cut.some'
        have within := cut.within
        rw [cut.here] at inside aliased
        simp only [Move.inDst] at inside
        obtain ⟨⟨j,mx'⟩,mem,eq⟩ := List.mem_map.mp (first ▸ earlier)
        simp only at eq
        subst eq
        obtain ⟨e,isE,pieceE⟩ := pieces (j,mx') (by simp [mem])
        have before := (List.pairwise_append.mp order).2.2 (j,mx') mem (i,g) List.mem_cons_self
        have source := aliased (g.src + k + (a - (g.dst + k))) (by simp only [Move.inSrc]; omega)
        have less : j < i := by
          refine Nat.lt_of_le_of_ne before.1 (fun eq => ?_)
          refine notInSrc (before.2 eq) source ?_
          simp only [Move.inSrc]; omega
        obtain ⟨l,dstF,srcF,withinF⟩ := pieceF
        simp only at dstF srcF withinF
        refine ⟨j,i,e,f,less,isE,isF,?_,?_⟩
        · simp only [Move.inDst]; omega
        · have target := pieceE.source source
          rwa [show f.src + (a - f.dst) = g.src + k + (a - (g.dst + k)) by omega]
      · exact h.post q old a inside

/- The fragments a scan of shuffle_dealias compares with, and the one it is about. -/
def scans : Nat → List Move → List Move → List Move → List Bool → List (List Move × Move)
  | fuel+1,done,mp::next,post,m =>
      (done,mp)::match dealiasScan done mp mp.src (sub32 (add32 mp.src mp.len) 1) next post m with
        | .ok ((some mp,next,post),m') => scans fuel (done ++ [mp]) next post m'
        | .ok ((none,next,post),m') => scans fuel done next post m'
        | .error _ => []
  | _,_,_,_,_ => []

def SoundScan (t : List Move × Move) : Prop := ScanSound t.1 t.2.src (sub32 (add32 t.2.src t.2.len) 1)
instance (t : List Move × Move) : Decidable (SoundScan t) := by unfold SoundScan; infer_instance

theorem shuffleStep {fuel done mp next post m r m'}
    (ok : shuffleDealias (fuel+1) done (mp::next) post m = .ok (r,m')) : ∃ kept next' post' m1,
      dealiasScan done mp mp.src (sub32 (add32 mp.src mp.len) 1) next post m = .ok ((kept,next',post'),m1) ∧
      shuffleDealias fuel (done ++ kept.toList) next' post' m1 = .ok (r,m') ∧
      scans (fuel+1) done (mp::next) post m = (done,mp)::scans fuel (done ++ kept.toList) next' post' m1 := by
  obtain ⟨⟨kept,next',post'⟩,m1,scan,later⟩ := workBind ok
  refine ⟨kept,next',post',m1,scan,?_⟩
  simp only [scans,scan]
  cases kept with
  | some g => exact ⟨later,rfl⟩
  | none => simpa using later

theorem shuffleEmpty {fuel done post m r m'} (ok : shuffleDealias fuel done [] post m = .ok (r,m')) : r = (done,post) := by
  cases fuel <;> exact (workPure ok).1

theorem shuffleKeeps {I : List Move → List Move → List Move → Prop} {C : List Move × Move → Prop}
    (step : ∀ done mp next post m r m', I done (mp::next) post → C (done,mp) →
      dealiasScan done mp mp.src (sub32 (add32 mp.src mp.len) 1) next post m = .ok (r,m') →
      I (done ++ r.1.toList) r.2.1 r.2.2)
    {fuel done list post m frags postcopy m'} (start : I done list post)
    (holds : ∀ t ∈ scans fuel done list post m, C t)
    (ok : shuffleDealias fuel done list post m = .ok ((frags,postcopy),m')) : I frags [] postcopy := by
  induction fuel generalizing done list post m with
  | zero =>
    cases list with
    | nil => cases shuffleEmpty ok; exact start
    | cons mp next => cases ok
  | succ fuel ih =>
    cases list with
    | nil => cases shuffleEmpty ok; exact start
    | cons mp next =>
      obtain ⟨kept,next',post',m1,scan,later,visited⟩ := shuffleStep ok
      rw [visited] at holds
      obtain ⟨here,rest⟩ := List.forall_mem_cons.mp holds
      exact ih (step done mp next post m _ m1 start here scan) rest later

theorem soundScanAt {done mp next post m r m'} (legal : ∀ f ∈ done ++ mp::next, Legal f) (sound : SoundScan (done,mp))
    (ok : dealiasScan done mp mp.src (sub32 (add32 mp.src mp.len) 1) next post m = .ok (r,m')) :
    ScanAt done mp next post r := by
  have legalMp : Legal mp := legal mp (by simp)
  unfold SoundScan at sound
  rw [lastOf legalMp.1 legalMp.2.2.2] at ok sound
  exact dealiasScanAt (fun f mem => legal f (by simp [mem])) legalMp sound ok

theorem shuffleDealiasOk {ifrags fuel done list post m frags postcopy m'} (h : Dealiasing ifrags done list post)
    (sound : ∀ t ∈ scans fuel done list post m, SoundScan t)
    (ok : shuffleDealias fuel done list post m = .ok ((frags,postcopy),m')) : Dealiasing ifrags frags [] postcopy := by
  refine shuffleKeeps ?_ h sound ok
  intro done mp next post m r m' h sound scan
  exact dealiasingScan h (soundScanAt h.legal sound scan).scanned

theorem shuffleApart {fuel done list post m r m'} (legal : ∀ f ∈ done ++ list, Legal f)
    (apart : (done ++ list).Pairwise SrcApart) (ok : shuffleDealias fuel done list post m = .ok (r,m')) :
    r = (done ++ list,post) := by
  induction fuel generalizing done list m with
  | zero =>
    cases list with
    | nil => rw [(workPure ok).1]; simp
    | cons mp next => simp only [shuffleDealias] at ok; contradiction
  | succ fuel ih =>
    cases list with
    | nil => rw [(workPure ok).1]; simp
    | cons mp next =>
      have bounds := legal mp (by simp)
      have clear : ∀ mx ∈ done, Clear mx mp.src (sub32 (add32 mp.src mp.len) 1) := by
        intro mx m
        have some' := legal mx (by simp [m])
        have apart' := (List.pairwise_append.mp apart).2.2 mx m mp List.mem_cons_self
        unfold SrcApart at apart'
        unfold Clear
        rw [lastOf bounds.1 bounds.2.2.2,lastOf some'.1 some'.2.2.2]
        omega
      simp only [shuffleDealias,scanClear clear,pure_bind] at ok
      have same : done ++ mp::next = (done ++ [mp]) ++ next := by simp
      rw [same] at legal apart ⊢
      exact ih legal apart ok

/- What the planner may take as free: the caller's free, terminal and zero zones. -/
def Usable (memmap : List Zone) (a : Nat) : Prop :=
  typeAt memmap a = smtFree ∨ typeAt memmap a = smtTerminal ∨ typeAt memmap a = smtZero
instance (memmap a) : Decidable (Usable memmap a) := by unfold Usable; infer_instance

theorem importMemmapOk {memmap list mmap m mmap' m'} (suffix : Suffix memmap list) (wf : WellFormed mmap)
    (known : ∀ a, freeIn mmap a → Usable memmap a) (ok : importMemmap mmap list m = .ok (mmap',m')) :
    WellFormed mmap' ∧ ∀ a, freeIn mmap' a → Usable memmap a := by
  induction list generalizing mmap m with
  | nil => rw [(workPure ok).1]; exact ⟨wf,known⟩
  | cons mm rest ih =>
    cases rest with
    | nil => rw [(workPure ok).1]; exact ⟨wf,known⟩
    | cons next rest =>
      simp only [importMemmap] at ok
      split at ok
      · rw [(workPure ok).1]; exact ⟨wf,known⟩
      · rename_i proper
        obtain ⟨mmap1,m1,painted,later⟩ := workBind ok
        obtain ⟨suffix',n,t,eq,_,top,types,_⟩ := suffixNext suffix proper
        cases eq
        have size := zoneSize suffix proper
        have p := addFreelistOk wf (by split <;> [decide; exact proper]) (by omega) painted
        refine ih suffix' p.wf ?_ later
        intro a ⟨small,valid⟩
        by_cases inside : (Area.mk mm.start (sub32 next.start mm.start)).has a
        · rw [p.inside a small inside] at valid
          simp only [Area.has] at inside
          have type := types a inside.1 (by omega)
          unfold Usable
          rw [type]
          by_cases zero : mm.type = smtZero
          · exact Or.inr (Or.inr zero)
          · simp only [zero,if_false,validTerminalType,decide_eq_true_eq] at valid
            exact valid.imp_right Or.inl
        · rw [p.outside a small inside] at valid
          exact known a ⟨small,valid⟩

theorem allocateSourcesOk {frags mmap m mmap' m'} (wf : WellFormed mmap) (legal : ∀ f ∈ frags, Legal f)
    (ok : allocateSources mmap frags m = .ok (mmap',m')) :
    WellFormed mmap' ∧ ∀ a, freeIn mmap' a ↔ freeIn mmap a ∧ ∀ f ∈ frags, ¬ f.inSrc a := by
  induction frags generalizing mmap m with
  | nil => rw [(workPure ok).1]; exact ⟨wf,by simp⟩
  | cons f rest ih =>
    obtain ⟨mmap1,m1,painted,later⟩ := workBind ok
    have p := addFreelistOk wf (by decide) (legal f List.mem_cons_self).2.2.2 painted
    obtain ⟨wf',free⟩ := ih p.wf (fun g m => legal g (List.mem_cons_of_mem _ m)) later
    refine ⟨wf',?_⟩
    intro a
    rw [free a,freeAfterAlloc p,List.forall_mem_cons]
    simp only [Area.has,Move.inSrc]
    tauto

def dealiasScans (fuel : Nat) (ifrags : List Move) (m : List Bool) : List (List Move × Move) :=
  match initMemmap m with
  | .error _ => []
  | .ok (_,m) => match dupMovelist ifrags m with
    | .error _ => []
    | .ok (frags,m) => scans fuel [] frags [] m

theorem planSetupOk {fuel ifrags memmap m s postcopy m'} (wf : WellFormed memmap)
    (ok : planSetup fuel ifrags memmap m = .ok ((s,postcopy),m')) :
    ∃ m1 m2, (∀ t, t ∈ scans fuel [] ifrags [] m1 → t ∈ dealiasScans fuel ifrags m) ∧
      shuffleDealias fuel [] ifrags [] m1 = .ok ((s.frags,postcopy),m2) ∧ s.moves = [] ∧
      ((∀ f ∈ s.frags, Legal f) → WellFormed s.mmap ∧
        ∀ a, freeIn s.mmap a → Usable memmap a ∧ ∀ f ∈ s.frags, ¬ f.inSrc a) := by
  obtain ⟨mmap0,m1,init,ok⟩ := workBind ok
  obtain ⟨frags,m2,copied,ok⟩ := workBind ok
  obtain ⟨⟨frags',postcopy'⟩,m3,shuffled,ok⟩ := workBind ok
  obtain ⟨mmap1,m4,imported,ok⟩ := workBind ok
  obtain ⟨mmap2,m5,allocated,ok⟩ := workBind ok
  have eq := (workPure ok).1
  simp only [Prod.mk.injEq] at eq
  obtain ⟨rfl,rfl⟩ := eq
  have same := dupMovelistOk copied
  subst same
  refine ⟨m2,m3,?_,shuffled,rfl,?_⟩
  · intro t mem
    simpa only [dealiasScans,init,copied] using mem
  · intro legal
    rw [initMemmapOk init] at imported
    obtain ⟨wf1,usable⟩ := importMemmapOk (suffixWhole wf) initWellFormed
      (by intro a h; exact absurd h.2 (by simp [initTypes,validTerminalType])) imported
    obtain ⟨wf2,free⟩ := allocateSourcesOk wf1 legal allocated
    exact ⟨wf2,fun a h => ⟨usable a ((free a).mp h).1,((free a).mp h).2⟩⟩

end Syslinux.Movebits
