import Syslinux.Dealias

/-! When the sources shuffle_dealias leaves are pairwise disjoint. The overlap test takes
inclusive ends with `<=`, so fragments that share one end byte pass it; and a fragment that
was cut is kept without being compared with the fragments behind the one it was cut at. -/
namespace Syslinux.Movebits
open Zonelist Zonelist.MemmapType Relocation

def firstAliased (done : List Move) (mp : Move) : Option Move :=
  done.find? (fun mx => ¬ Clear mx mp.src (sub32 (add32 mp.src mp.len) 1))

def keptPart (mp : Move) : Option Move → Option Move
  | none => some mp
  | some mx =>
      if mp.src < mx.src then some (mp.front (mx.src - mp.src))
      else if mx.src + mx.len < mp.src + mp.len then some (mp.back (mx.src + mx.len - mp.src))
      else none

def KeptApart (t : List Move × Move) : Prop :=
  ∀ mx ∈ t.1, ∀ g ∈ keptPart t.2 (firstAliased t.1 t.2), SrcApart mx g
instance (t : List Move × Move) : Decidable (KeptApart t) := by unfold KeptApart; infer_instance

theorem scanKept {done mp next post r} (legal : Legal mp) (h : ScanAt done mp next post r) :
    r.1 = keptPart mp (firstAliased done mp) := by
  have last : sub32 (add32 mp.src mp.len) 1 = mp.src + mp.len - 1 := lastOf legal.1 legal.2.2.2
  unfold firstAliased
  rw [last]
  cases h with
  | apart clear =>
    have none' : done.find? (fun mx => ¬ Clear mx mp.src (mp.src + mp.len - 1)) = none := by
      rw [List.find?_eq_none]
      intro mx mem
      simpa using clear mx mem
    rw [none']
    rfl
  | @split pre mx rest p place clear hit cut =>
    have found : done.find? (fun mx => ¬ Clear mx mp.src (mp.src + mp.len - 1)) = some mx := by
      rw [place,List.find?_append,List.find?_eq_none.mpr (by simpa using clear)]
      simp [hit]
    have within := cut.within
    have some' := cut.some'
    rw [found,cut.before,cut.after]
    simp only [keptPart]
    by_cases front : mp.src < mx.src
    · rw [if_pos front,if_neg (by omega),show max mp.src mx.src - mp.src = mx.src - mp.src by omega]
      rfl
    · rw [if_neg front,if_pos (by omega),List.nil_append]
      by_cases back : mx.src + mx.len < mp.src + mp.len
      · rw [if_pos back,if_neg (by omega)]
        rw [show max mp.src mx.src - mp.src + (min (mp.src + mp.len) (mx.src + mx.len) - max mp.src mx.src) =
          mx.src + mx.len - mp.src by omega]
        rfl
      · rw [if_neg back,if_pos (by omega)]
        rfl

theorem apartSound {done : List Move} (ps pe : Nat) (legal : ∀ f ∈ done, Legal f) (apart : done.Pairwise SrcApart) :
    ScanSound done ps pe := by
  induction done with
  | nil => trivial
  | cons mx mxs ih =>
    obtain ⟨head,tail⟩ := List.pairwise_cons.mp apart
    obtain ⟨some',_,_,top⟩ := legal mx List.mem_cons_self
    simp only [ScanSound,lastOf some' top]
    split
    · exact ih (fun f mem => legal f (List.mem_cons_of_mem _ mem)) tail
    · intro _ my mem
      obtain ⟨some1,_,_,top1⟩ := legal my (List.mem_cons_of_mem _ mem)
      have away := head my mem
      unfold SrcApart at away
      unfold Clear
      rw [lastOf some1 top1]
      omega

theorem scanLegal {done mp next post r} (legal : ∀ f ∈ done ++ mp::next, Legal f) (h : ScanAt done mp next post r) :
    ∀ f ∈ done ++ r.1.toList ++ r.2.1, Legal f := by
  cases h with
  | apart => simpa using legal
  | @split pre mx rest p place clear hit cut =>
    intro f mem
    have pieces : f ∈ p.before ++ p.after → Legal f :=
      fun piece => cut.legal (legal mp (by simp)) f (cut.rest f piece).1
    cases left : p.before ++ p.after with
    | nil =>
      simp only [left,List.head?_nil,List.tail_nil,Option.toList,List.append_nil,List.nil_append] at mem
      exact legal f (by simp only [List.mem_append,List.mem_cons] at mem ⊢; tauto)
    | cons g more =>
      rw [left] at pieces
      simp only [left,List.head?_cons,List.tail_cons,Option.toList,List.mem_append,List.mem_cons,List.not_mem_nil,
        or_false] at mem
      rcases mem with (old | rfl) | new | old
      · exact legal f (by simp [old])
      · exact pieces List.mem_cons_self
      · exact pieces (List.mem_cons_of_mem _ new)
      · exact legal f (by simp [old])

theorem shuffleGrows {fuel done list post m frags postcopy m'}
    (ok : shuffleDealias fuel done list post m = .ok ((frags,postcopy),m')) : ∃ more, frags = done ++ more := by
  refine shuffleKeeps (I := fun all _ _ => ∃ more, all = done ++ more) (C := fun _ => True) ?_ ⟨[],by simp⟩ (by simp) ok
  rintro all mp next post m ⟨kept,next',post'⟩ m' ⟨more,rfl⟩ _ _
  exact ⟨more ++ kept.toList,by simp⟩

theorem shuffleSources {fuel done list post m frags postcopy m'} (legal : ∀ f ∈ done ++ list, Legal f)
    (apart : done.Pairwise SrcApart) (ok : shuffleDealias fuel done list post m = .ok ((frags,postcopy),m')) :
    frags.Pairwise SrcApart ↔ ∀ t ∈ scans fuel done list post m, KeptApart t := by
  induction fuel generalizing done list post m with
  | zero =>
    cases list with
    | nil => cases shuffleEmpty ok; simpa [scans] using apart
    | cons mp next => cases ok
  | succ fuel ih =>
    cases list with
    | nil => cases shuffleEmpty ok; simpa [scans] using apart
    | cons mp next =>
      obtain ⟨kept,next',post',m1,scan,later,visited⟩ := shuffleStep ok
      have legalMp : Legal mp := legal mp (by simp)
      have legalDone : ∀ f ∈ done, Legal f := fun f mem => legal f (by simp [mem])
      rw [lastOf legalMp.1 legalMp.2.2.2] at scan
      have scanned := dealiasScanAt legalDone legalMp (apartSound _ _ legalDone apart) scan
      have part : kept = keptPart mp (firstAliased done mp) := scanKept legalMp scanned
      have legal' := scanLegal legal scanned
      have grown : (done ++ kept.toList).Pairwise SrcApart ↔ KeptApart (done,mp) := by
        rw [List.pairwise_append]
        simp only [KeptApart,← part]
        constructor
        · intro h mx mem g found
          exact h.2.2 mx mem g (by simpa using found)
        · intro h
          refine ⟨apart,?_,?_⟩
          · cases kept <;> simp
          · intro mx mem g found
            exact h mx mem g (by simpa using found)
      rw [visited,List.forall_mem_cons]
      by_cases here : KeptApart (done,mp)
      · rw [ih legal' (grown.mpr here) later]
        exact (and_iff_right here).symm
      · -- what the scan kept stays in the list
        obtain ⟨more,eq⟩ := shuffleGrows later
        constructor
        · intro final
          rw [eq] at final
          exact absurd (grown.mp (List.pairwise_append.mp final).1) here
        · exact fun h => absurd h.1 here

theorem dealiasSourcesApart {ifrags : List Move} (legal : ∀ f ∈ ifrags, Legal f) :
    (∃ n frags postcopy, ∀ fuel, n ≤ fuel → shuffleDealias fuel [] ifrags [] [] = .ok ((frags,postcopy),[])) ∧
    ∀ fuel m frags postcopy m', shuffleDealias fuel [] ifrags [] m = .ok ((frags,postcopy),m') →
      (frags.Pairwise SrcApart ↔ ∀ t ∈ scans fuel [] ifrags [] m, KeptApart t) := by
  refine ⟨shuffleDealiasReturns (fun f mem => legalSized (legal f mem)) [] [] (by simp),?_⟩
  intro fuel m frags postcopy m' ok
  exact shuffleSources (by simpa using legal) .nil ok

/- The third fragment is cut at the first; both its ends stay. -/
theorem dealiasSourcesApartCut :
    shuffleDealias 4 [] [⟨100,20,10⟩,⟨200,5,10⟩,⟨300,15,20⟩] [] [] =
      .ok (([⟨100,20,10⟩,⟨200,5,10⟩,⟨300,15,5⟩,⟨315,30,5⟩],[⟨305,100,10⟩]),[]) ∧
    ([⟨100,20,10⟩,⟨200,5,10⟩,⟨300,15,5⟩,⟨315,30,5⟩] : List Move).Pairwise SrcApart :=
  ⟨rfl,((@dealiasSourcesApart [⟨100,20,10⟩,⟨200,5,10⟩,⟨300,15,20⟩] (by decide)).2 4 [] _ _ [] rfl).mpr (by decide)⟩

/- Bytes 0..9 and 9..18: the test takes 9 <= 9 for no overlap. -/
theorem dealiasLeavesSharedByte :
    ¬ ∀ (fuel : Nat) (ifrags frags postcopy : List Move), (∀ f ∈ ifrags, Legal f) →
      shuffleDealias fuel [] ifrags [] [] = .ok ((frags,postcopy),[]) → frags.Pairwise SrcApart := by
  intro claim
  have wrong := claim 2 [⟨100,0,10⟩,⟨200,9,10⟩] [⟨100,0,10⟩,⟨200,9,10⟩] [] (by decide) rfl
  exact absurd wrong (by decide)

end Syslinux.Movebits
