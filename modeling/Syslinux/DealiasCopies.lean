import Syslinux.DealiasSources
import Syslinux.MovebitsPlan

/-! What the fragments and the post-copies of shuffle_dealias deliver together. A piece that
goes to the post-copies reads the destination of the fragment it was found inside; that
fragment stays in the list, and nothing else writes its destination. A scan that goes on
with the bounds of a removed piece can redirect the wrong one. -/
namespace Syslinux.Movebits
open Zonelist Zonelist.MemmapType Relocation

section
variable {β : Type}

def copyAll (frags : List Move) (mem : Nat → β) (a : Nat) : β := (wanted frags mem a).getD (mem a)

def covers (frags : List Move) (a : Nat) : Nat := frags.countP (fun f => f.inDst a)

theorem coversAppend (fs gs : List Move) (a : Nat) : covers (fs ++ gs) a = covers fs a + covers gs a :=
  List.countP_append

theorem coversSingle (f : Move) (a : Nat) : covers [f] a = if f.dst ≤ a ∧ a < f.dst + f.len then 1 else 0 := by
  have same : covers [f] a = if f.inDst a then 1 else 0 := by simp [covers,List.countP_singleton]
  rw [same]
  exact if_congr Iff.rfl rfl rfl

theorem coversCut {f k len p} (cut : Cut f k len p) (a : Nat) :
    covers (p.before ++ p.after) a + covers [p.here] a = covers [f] a := by
  have within := cut.within
  have front : covers p.before a = if f.dst ≤ a ∧ a < f.dst + k then 1 else 0 := by
    rw [cut.before]
    split
    · rw [if_neg (by omega)]; rfl
    · exact coversSingle (f.front k) a
  have back : covers p.after a = if f.dst + (k + len) ≤ a ∧ a < f.dst + f.len then 1 else 0 := by
    rw [cut.after]
    split
    · rw [if_neg (by omega)]; rfl
    · rw [coversSingle,Move.back]
      simp only
      rw [show f.dst + (k + len) + (f.len - (k + len)) = f.dst + f.len by omega]
  rw [coversAppend,front,back,cut.here,coversSingle,coversSingle]
  simp only
  split_ifs <;> omega

theorem coversOnce {frags : List Move} {f a} (apart : frags.Pairwise DstApart) (mem : f ∈ frags) (inside : f.inDst a) :
    covers frags a = 1 := by
  induction frags with
  | nil => simp at mem
  | cons g rest ih =>
    obtain ⟨head,tail⟩ := List.pairwise_cons.mp apart
    by_cases own : g.inDst a
    · have away : covers rest a = 0 := by
        rw [covers,List.countP_eq_zero]
        intro h inRest
        simpa using notInDst (head h inRest) own
      simp only [covers] at away ⊢
      simp [own,away]
    · rcases List.mem_cons.mp mem with rfl | later
      · exact absurd inside own
      · have := ih tail later
        simp only [covers] at this ⊢
        simp [own,this]

/- A byte of a post-copy: it reads the destination byte of a fragment left in the list, and
that fragment reads the same source byte as the input fragment the copy comes from. -/
def ReadsThrough (ifrags done : List Move) (q : Move) : Prop :=
  ∀ i, i < q.len → ∃ mx ∈ done, ∃ j, j < mx.len ∧ q.src + i = mx.dst + j ∧
    ∃ f ∈ ifrags, ∃ k, k < f.len ∧ q.dst + i = f.dst + k ∧ mx.src + j = f.src + k

structure Redirecting (ifrags done next post : List Move) : Prop where
  legal : ∀ f ∈ done ++ next, Legal f
  pieces : ∀ g ∈ done ++ next, ∃ f ∈ ifrags, PieceOf f g
  copies : ∀ q ∈ post, ReadsThrough ifrags done q
  once : ∀ a, covers (done ++ next ++ post) a = covers ifrags a

theorem redirectingStart {ifrags} (legal : ∀ f ∈ ifrags, Legal f) : Redirecting ifrags [] ifrags [] :=
  ⟨legal,fun g mem => ⟨g,mem,0,rfl,rfl,by simp⟩,by simp,by simp⟩

theorem redirectingScan {ifrags done mp next post r} (h : Redirecting ifrags done (mp::next) post)
    (scanned : ScanAt done mp next post r) : Redirecting ifrags (done ++ r.1.toList) r.2.1 r.2.2 := by
  have legal' := scanLegal h.legal scanned
  cases scanned with
  | apart =>
    have same : done ++ mp::next = done ++ [mp] ++ next := by simp
    refine ⟨legal',same ▸ h.pieces,?_,same ▸ h.once⟩
    intro q mem i small
    obtain ⟨mx,earlier,rest⟩ := h.copies q mem i small
    exact ⟨mx,List.mem_append_left _ earlier,rest⟩
  | @split pre mx rest p place clear hit cut =>
    have left : done ++ (p.before ++ p.after).head?.toList ++ ((p.before ++ p.after).tail ++ next) =
        done ++ (p.before ++ p.after ++ next) := by
      cases p.before ++ p.after <;> simp
    obtain ⟨f,memF,pieceF⟩ := h.pieces mp (by simp)
    refine ⟨legal',?_,?_,?_⟩
    · intro g mem
      rw [left] at mem
      simp only [List.mem_append] at mem
      rcases mem with old | new | old
      · exact h.pieces g (by simp [old])
      · exact ⟨f,memF,pieceTrans pieceF (cut.rest g (List.mem_append.mpr new)).2⟩
      · exact h.pieces g (by simp [old])
    · intro q mem i small
      rcases List.mem_cons.mp mem with rfl | old
      · obtain ⟨l,dst,src,within⟩ := pieceF
        have cutWithin := cut.within
        rw [cut.here] at small ⊢
        simp only at small ⊢
        refine ⟨mx,List.mem_append_left _ (place ▸ List.mem_append_right _ List.mem_cons_self),
          max mp.src mx.src - mx.src + i,by omega,by omega,f,memF,l + (max mp.src mx.src - mp.src) + i,?_⟩
        omega
      · obtain ⟨my,earlier,rest'⟩ := h.copies q old i small
        exact ⟨my,List.mem_append_left _ earlier,rest'⟩
    · intro a
      have counted := coversCut cut a
      have moved : covers [⟨p.here.dst,mx.dst + (max mp.src mx.src - mx.src),p.here.len⟩] a = covers [p.here] a := by
        rw [coversSingle,coversSingle]
      have before := h.once a
      rw [left]
      rw [show done ++ mp::next = done ++ ([mp] ++ next) by simp] at before
      rw [show ∀ q : Move, q::post = [q] ++ post from fun _ => rfl]
      simp only [coversAppend] at before counted ⊢
      omega

theorem shuffleRedirects {ifrags fuel done list post m frags postcopy m'} (h : Redirecting ifrags done list post)
    (sound : ∀ t ∈ scans fuel done list post m, SoundScan t)
    (ok : shuffleDealias fuel done list post m = .ok ((frags,postcopy),m')) : Redirecting ifrags frags [] postcopy := by
  refine shuffleKeeps ?_ h sound ok
  intro done mp next post m r m' h sound scan
  exact redirectingScan h (soundScanAt h.legal sound scan)

variable (mem : Nat → β) in
theorem copyAllPiece {ifrags frags : List Move} {a : Nat} (dsts : ifrags.Pairwise DstApart)
    (pieces : ∀ g ∈ frags, ∃ f ∈ ifrags, PieceOf f g) (inside : ∃ g ∈ frags, g.inDst a) :
    wanted ifrags mem a = some (copyAll frags mem a) := by
  unfold copyAll
  rw [wanted.eq_def frags]
  cases found : frags.find? (fun f => f.inDst a) with
  | none =>
    obtain ⟨g,memG,own⟩ := inside
    exact absurd own (by simpa using List.find?_eq_none.mp found g memG)
  | some g =>
    have own : g.inDst a := by simpa using List.find?_some found
    obtain ⟨f,memF,k,dst,src,within⟩ := pieces g (List.mem_of_find?_eq_some found)
    unfold Move.inDst at own
    have value := @wantedAt β mem ifrags f (k + (a - g.dst)) dsts memF (by omega)
    rw [show f.dst + (k + (a - g.dst)) = a by omega] at value
    rw [value,show f.src + (k + (a - g.dst)) = g.src + (a - g.dst) by omega]
    rfl

theorem redirectedDelivers {ifrags frags postcopy : List Move} (dsts : ifrags.Pairwise DstApart)
    (h : Redirecting ifrags frags [] postcopy) (mem : Nat → β) {f a} (memF : f ∈ ifrags) (inside : f.inDst a) :
    execAll postcopy (copyAll frags mem) a = copyAll ifrags mem a ∧ covers (frags ++ postcopy) a = 1 := by
  have pieces : ∀ g ∈ frags, ∃ f ∈ ifrags, PieceOf f g := by simpa using h.pieces
  have once : ∀ f ∈ ifrags, ∀ a, f.inDst a → covers frags a + covers postcopy a = 1 := by
    intro f memF a inside
    have counted := h.once a
    rwa [List.append_nil,coversAppend,coversOnce dsts memF inside] at counted
  have count : ∀ {fs : List Move} {a}, (∃ g ∈ fs, g.inDst a) ↔ 0 < covers fs a := by
    intro fs a
    simp [covers,List.countP_pos_iff]
  -- a byte some fragment writes is written by no post-copy
  have kept : ∀ a, (∃ g ∈ frags, g.inDst a) → ∀ q ∈ postcopy, ¬ q.inDst a := by
    rintro a ⟨g,memG,own⟩ q memQ other
    obtain ⟨f,memF,k,dst,_,within⟩ := pieces g memG
    have total := once f memF a (by unfold Move.inDst at own ⊢; omega)
    have first := count.mp ⟨g,memG,own⟩
    have second := count.mp ⟨q,memQ,other⟩
    omega
  refine ⟨?_,by rw [coversAppend]; exact once f memF a inside⟩
  by_cases direct : ∃ g ∈ frags, g.inDst a
  · rw [execAllOutside (kept a direct),copyAll.eq_def ifrags,copyAllPiece mem dsts pieces direct]
    rfl
  · have copied : ∃ q ∈ postcopy, q.inDst a := by
      have total := once f memF a inside
      have none' : ¬ 0 < covers frags a := fun some' => direct (count.mpr some')
      exact count.mpr (by omega)
    refine execAllReads ?_ copied
    intro q memQ i small
    obtain ⟨mx,memX,j,smallJ,at',g,memG,k,smallK,dst,src⟩ := h.copies q memQ i small
    have written : ∃ g ∈ frags, g.inDst (q.src + i) := ⟨mx,memX,by unfold Move.inDst; omega⟩
    refine ⟨?_,kept _ written⟩
    obtain ⟨e,memE,l,dstE,srcE,withinE⟩ := pieces mx memX
    have through : wanted ifrags mem (e.dst + (l + j)) = some (mem (e.src + (l + j))) := wantedAt dsts memE (by omega)
    have direct : wanted ifrags mem (g.dst + k) = some (mem (g.src + k)) := wantedAt dsts memG smallK
    have value := copyAllPiece mem dsts pieces written
    rw [show q.src + i = e.dst + (l + j) by omega,through,Option.some.injEq] at value
    rw [show q.src + i = e.dst + (l + j) by omega,← value,dst,copyAll,direct,Option.getD_some,← src]
    congr 1
    omega

theorem dealiasDelivers {ifrags : List Move} (legal : ∀ f ∈ ifrags, Legal f) (dsts : ifrags.Pairwise DstApart) :
    (∃ n frags postcopy, ∀ fuel, n ≤ fuel → shuffleDealias fuel [] ifrags [] [] = .ok ((frags,postcopy),[])) ∧
    ∀ fuel m frags postcopy m', shuffleDealias fuel [] ifrags [] m = .ok ((frags,postcopy),m') →
      (∀ t ∈ scans fuel [] ifrags [] m, SoundScan t) → ∀ (mem : Nat → β), ∀ f ∈ ifrags, ∀ a, f.inDst a →
      execAll postcopy (copyAll frags mem) a = copyAll ifrags mem a ∧ covers (frags ++ postcopy) a = 1 := by
  refine ⟨shuffleDealiasReturns (fun f mem => legalSized (legal f mem)) [] [] (by simp),?_⟩
  intro fuel m frags postcopy m' ok sound mem f memF a inside
  exact redirectedDelivers dsts (shuffleRedirects (redirectingStart legal) sound ok) mem memF inside

end

/- The middle of the third fragment is read back from the destination of the first. -/
theorem dealiasDeliversCut :
    shuffleDealias 4 [] [⟨100,20,10⟩,⟨200,5,10⟩,⟨300,15,20⟩] [] [] =
      .ok (([⟨100,20,10⟩,⟨200,5,10⟩,⟨300,15,5⟩,⟨315,30,5⟩],[⟨305,100,10⟩]),[]) ∧
    ∀ a, (Move.mk 300 15 20).inDst a →
      execAll [⟨305,100,10⟩] (copyAll [⟨100,20,10⟩,⟨200,5,10⟩,⟨300,15,5⟩,⟨315,30,5⟩] (id : Nat → Nat)) a =
        copyAll [⟨100,20,10⟩,⟨200,5,10⟩,⟨300,15,20⟩] id a ∧
      covers ([⟨100,20,10⟩,⟨200,5,10⟩,⟨300,15,5⟩,⟨315,30,5⟩] ++ [⟨305,100,10⟩]) a = 1 :=
  ⟨rfl,(@dealiasDelivers Nat [⟨100,20,10⟩,⟨200,5,10⟩,⟨300,15,20⟩] (by decide) (by decide)).2 4 [] _ _ [] rfl
    (by decide) id ⟨300,15,20⟩ (by decide)⟩

/- The last fragment is cut at the second. Its part behind, 20..25, is then taken for the
part removed, 12..19, and redirected into the third fragment at 12. -/
theorem dealiasMisdirects :
    ¬ ∀ (fuel : Nat) (ifrags frags postcopy : List Move) (mem : Nat → Nat), (∀ f ∈ ifrags, Legal f) →
      ifrags.Pairwise DstApart → shuffleDealias fuel [] ifrags [] [] = .ok ((frags,postcopy),[]) →
      ∀ f ∈ ifrags, ∀ a, f.inDst a →
        execAll postcopy (copyAll frags mem) a = copyAll ifrags mem a ∧ covers (frags ++ postcopy) a = 1 := by
  intro claim
  have wrong := claim 5 [⟨1000,30,10⟩,⟨1100,10,10⟩,⟨1200,5,40⟩,⟨1300,12,14⟩]
    [⟨1000,30,10⟩,⟨1100,10,10⟩,⟨1200,5,25⟩,⟨1235,40,5⟩] [⟨1308,1207,6⟩,⟨1300,1102,8⟩,⟨1225,1000,10⟩] id
    (by decide) (by decide) rfl ⟨1300,12,14⟩ (by decide) 1308 (by decide)
  exact absurd wrong.1 (by decide)

end Syslinux.Movebits
