import Mathlib.Tactic

/-! Doubly linked circular chains with a head node, over any type of nodes. A chain reads
the links forwards from its head: they pass through the nodes listed and come back to the
head, and every step has its way back. -/
namespace Syslinux.Chain

structure Links (Node : Type) where
  next : Node → Node
  prev : Node → Node

section
variable {Node : Type}

def lastOf : Node → List Node → Node
  | a,[] => a
  | _,x::xs => lastOf x xs

def Path (l : Links Node) : Node → List Node → Prop
  | _,[] => True
  | a,x::xs => l.next a = x ∧ l.prev x = a ∧ Path l x xs

def Circular (l : Links Node) (head : Node) (xs : List Node) : Prop := Path l head (xs ++ [head]) ∧ (head::xs).Nodup

variable {l l' : Links Node} {a head c n : Node} {xs ys zs : List Node}

theorem pathAppend : Path l a (xs ++ ys) ↔ Path l a xs ∧ Path l (lastOf a xs) ys := by
  induction xs generalizing a with
  | nil => simp [Path,lastOf]
  | cons x xs ih => simp [Path,lastOf,ih,and_assoc]

theorem pathCongr (next : ∀ p ∈ (a::xs).dropLast, l'.next p = l.next p) (prev : ∀ p ∈ xs, l'.prev p = l.prev p)
    (path : Path l a xs) : Path l' a xs := by
  induction xs generalizing a with
  | nil => trivial
  | cons x xs ih =>
    obtain ⟨forth,back,rest⟩ := path
    refine ⟨?_,?_,ih ?_ ?_ rest⟩
    · rw [next a (by simp),forth]
    · rw [prev x (by simp),back]
    · intro p m
      exact next p (by rw [List.dropLast_cons_cons]; exact List.mem_cons_of_mem a m)
    · intro p m
      exact prev p (List.mem_cons_of_mem x m)

theorem lastSplit (a : Node) (xs : List Node) : (a::xs).dropLast ++ [lastOf a xs] = a::xs := by
  induction xs generalizing a with
  | nil => rfl
  | cons x xs ih =>
    rw [List.dropLast_cons_cons,List.cons_append,lastOf,ih]

theorem lastMem (a : Node) (xs : List Node) : lastOf a xs ∈ a::xs := by
  rw [← lastSplit a xs]
  simp

theorem lastNotBefore (nodup : (a::xs).Nodup) : lastOf a xs ∉ (a::xs).dropLast := by
  rw [← lastSplit a xs,List.nodup_append] at nodup
  intro m
  exact nodup.2.2 _ m _ (by simp) rfl

theorem lastAppend : lastOf a (xs ++ c::ys) = lastOf c ys := by
  induction xs generalizing a with
  | nil => rfl
  | cons x xs ih => exact ih

theorem freshOf (nodup : (head::(xs ++ c::ys)).Nodup) : c ∉ head::(xs ++ ys) := by
  have perm : (head::(xs ++ c::ys)).Perm (c::head::(xs ++ ys)) :=
    (List.perm_middle.cons head).trans (List.Perm.swap c head _)
  exact (List.nodup_cons.mp (perm.nodup_iff.mp nodup)).1

theorem behind (ys : List Node) (head : Node) : ∃ n zs, ys ++ [head] = n::zs := List.exists_cons_of_ne_nil (by simp)

theorem circularCongr (next : ∀ p ∈ head::xs, l'.next p = l.next p) (prev : ∀ p ∈ head::xs, l'.prev p = l.prev p)
    (ring : Circular l head xs) : Circular l' head xs := by
  refine ⟨pathCongr ?_ ?_ ring.1,ring.2⟩
  · intro p m
    rw [← List.cons_append,List.dropLast_concat] at m
    exact next p m
  · intro p m
    exact prev p (by simpa [or_comm] using m)

theorem circularNext (ring : Circular l head (xs ++ c::ys)) : l.next c = (ys ++ [head]).head (by simp) := by
  have path := ring.1
  obtain ⟨n,zs,eq⟩ := behind ys head
  rw [List.append_assoc,pathAppend,List.cons_append,eq] at path
  simp only [eq,List.head_cons]
  exact path.2.2.2.1

theorem circularPrev (ring : Circular l head (xs ++ c::ys)) : l.prev c = lastOf head xs := by
  have path := ring.1
  rw [List.append_assoc,pathAppend] at path
  exact path.2.2.1

theorem circularPrevNe (ring : Circular l head (xs ++ c::ys)) : l.prev c ≠ c := by
  rw [circularPrev ring]
  intro same
  have m := lastMem head xs
  rw [same] at m
  exact freshOf ring.2 (by simpa [or_assoc] using Or.inl (List.mem_cons.mp m))

theorem circularNextNe (ring : Circular l head (xs ++ c::ys)) : l.next c ≠ c := by
  rw [circularNext ring]
  intro same
  have m := List.head_mem (l := ys ++ [head]) (by simp)
  rw [same] at m
  refine freshOf ring.2 ?_
  simp only [List.mem_append,List.mem_cons] at m ⊢
  tauto

theorem circularHeadNext (ring : Circular l head xs) : l.next head = (xs ++ [head]).head (by simp) := by
  have path := ring.1
  obtain ⟨n,zs,eq⟩ := behind xs head
  rw [eq] at path
  simp only [eq,List.head_cons]
  exact path.1

theorem circularHeadPrev (ring : Circular l head xs) : l.prev head = lastOf head xs := by
  have path := ring.1
  rw [pathAppend] at path
  exact path.2.2.1

theorem circularNil (ring : Circular l head xs) (alone : l.next head = head) : xs = [] := by
  cases xs with
  | nil => rfl
  | cons x xs =>
    have first : l.next head = x := ring.1.1
    exact absurd (first.symm.trans alone) (fun same => (List.nodup_cons.mp ring.2).1 (by simp [same]))

theorem circularNextMem (ring : Circular l head xs) (m : c ∈ head::xs) : l.next c ∈ head::xs := by
  rcases List.mem_cons.mp m with rfl | m
  · rw [circularHeadNext ring]
    have first := List.head_mem (l := xs ++ [c]) (by simp)
    simp only [List.mem_append,List.mem_cons,List.not_mem_nil,or_false] at first ⊢
    tauto
  · obtain ⟨us,vs,eq⟩ := List.append_of_mem m
    subst eq
    rw [circularNext ring]
    have first := List.head_mem (l := vs ++ [head]) (by simp)
    simp only [List.mem_append,List.mem_cons,List.not_mem_nil,or_false] at first ⊢
    tauto

theorem circularPrevMem (ring : Circular l head xs) (m : c ∈ head::xs) : l.prev c ∈ head::xs := by
  rcases List.mem_cons.mp m with rfl | m
  · rw [circularHeadPrev ring]
    exact lastMem _ _
  · obtain ⟨us,vs,eq⟩ := List.append_of_mem m
    subst eq
    rw [circularPrev ring]
    have last := lastMem head us
    simp only [List.mem_append,List.mem_cons] at last ⊢
    tauto

end

section
variable {Node : Type} [DecidableEq Node]

def Links.setNext (l : Links Node) (p q : Node) : Links Node := { l with next := Function.update l.next p q }
def Links.setPrev (l : Links Node) (p q : Node) : Links Node := { l with prev := Function.update l.prev p q }

@[simp] theorem setNextNext (l : Links Node) (p q : Node) : (l.setNext p q).next = Function.update l.next p q := rfl
@[simp] theorem setNextPrev (l : Links Node) (p q : Node) : (l.setNext p q).prev = l.prev := rfl
@[simp] theorem setPrevNext (l : Links Node) (p q : Node) : (l.setPrev p q).next = l.next := rfl
@[simp] theorem setPrevPrev (l : Links Node) (p q : Node) : (l.setPrev p q).prev = Function.update l.prev p q := rfl

variable {l : Links Node} {head c d p n : Node} {xs ys : List Node}

def Links.join (l : Links Node) (p n : Node) : Links Node := (l.setNext p n).setPrev n p

theorem unlinkWrites (h : l.prev c ≠ c) : (l.setNext (l.prev c) (l.next c)).setPrev
    ((l.setNext (l.prev c) (l.next c)).next c) (l.prev c) = l.join (l.prev c) (l.next c) := by
  rw [setNextNext,Function.update_of_ne h.symm,Links.join]

theorem insertWrites (hp : p ≠ c) (hn : n ≠ c) :
    (((l.setPrev c p).setNext p c).setNext c n).setPrev n c = (l.join c n).join p c := by
  simp only [Links.join,Links.setNext,Links.setPrev,Function.update_comm hp,Function.update_comm hn]

/- Joining the neighbours of a gap keeps the path before it and the path behind it. -/
theorem circularJoin {zs : List Node} (eq : ys ++ [head] = n::zs) (nodup : (head::(xs ++ ys)).Nodup)
    (front : Path l head xs) (tail : Path l n zs) : Circular (l.join (lastOf head xs) n) head (xs ++ ys) := by
  refine ⟨?_,nodup⟩
  rw [← List.cons_append,List.nodup_append] at nodup
  obtain ⟨nodupFront,nodupTail,apart⟩ := nodup
  have here : n ∈ ys ++ [head] := by simp [eq]
  have shifted : (n::zs).Nodup := by
    rw [← eq,List.nodup_append]
    refine ⟨nodupTail,by simp,?_⟩
    intro q m r mr
    rw [List.mem_singleton.mp mr]
    exact (apart head (by simp) q m).symm
  rw [List.append_assoc,pathAppend,eq]
  refine ⟨pathCongr ?_ ?_ front,?_,?_,pathCongr ?_ ?_ tail⟩
  · intro q m
    refine Function.update_of_ne ?_ _ _
    intro same
    exact lastNotBefore nodupFront (same ▸ m)
  · intro q m
    refine Function.update_of_ne ?_ _ _
    intro same
    subst same
    rcases List.mem_append.mp here with inside | atHead
    · exact apart q (by simp [m]) q inside rfl
    · rw [List.mem_singleton.mp atHead] at m
      exact (List.nodup_cons.mp nodupFront).1 m
  · simp [Links.join,Links.setNext,Links.setPrev]
  · simp [Links.join,Links.setPrev]
  · intro q m
    refine Function.update_of_ne ?_ _ _
    intro same
    rw [← eq,List.dropLast_concat] at m
    exact apart _ (lastMem _ _) q m same.symm
  · intro q m
    refine Function.update_of_ne ?_ _ _
    intro same
    exact (List.nodup_cons.mp shifted).1 (same ▸ m)

theorem circularUnlink (ring : Circular l head (xs ++ c::ys)) : Circular (l.join (l.prev c) (l.next c)) head (xs ++ ys) := by
  obtain ⟨n,zs,eq⟩ := behind ys head
  have path := ring.1
  rw [circularPrev ring,circularNext ring]
  rw [List.append_assoc,pathAppend,List.cons_append,eq] at path
  simp only [eq,List.head_cons]
  refine circularJoin eq ?_ path.1 path.2.2.2.2.2
  have nodup := ring.2
  rw [← List.cons_append] at nodup ⊢
  exact nodup.sublist ((List.sublist_cons_self c ys).append_left _)

theorem circularPut {zs : List Node} (eq : ys ++ [head] = n::zs) (nodup : (head::(xs ++ d::ys)).Nodup)
    (front : Path l head xs) (tail : Path l n zs) :
    Circular ((l.join d n).join (lastOf head xs) d) head (xs ++ d::ys) := by
  have apart := nodup
  simp only [List.nodup_cons,List.nodup_append,List.mem_append,List.mem_cons] at apart
  obtain ⟨outside,_,⟨fresh,nodupTail⟩,cross⟩ := apart
  have shifted : (n::zs).Nodup := by
    rw [← eq,List.nodup_append]
    refine ⟨nodupTail,by simp,?_⟩
    intro q m r mr same
    exact outside (Or.inr (Or.inr (List.mem_singleton.mp mr ▸ same ▸ m)))
  have here : n ∈ ys ++ [head] := by simp [eq]
  have behind : d::ys ++ [head] = d::n::zs := by simp [eq]
  refine circularJoin behind nodup (pathCongr ?_ ?_ front) ⟨?_,?_,pathCongr ?_ ?_ tail⟩
  · intro q m
    refine Function.update_of_ne ?_ _ _
    intro same
    subst same
    rcases List.mem_cons.mp (List.mem_of_mem_dropLast m) with atHead | inside
    · exact outside (Or.inr (Or.inl atHead.symm))
    · exact cross q inside q (Or.inl rfl) rfl
  · intro q m
    refine Function.update_of_ne ?_ _ _
    intro same
    subst same
    rcases List.mem_append.mp here with inside | atHead
    · exact cross q m q (Or.inr inside) rfl
    · exact outside (Or.inl (List.mem_singleton.mp atHead ▸ m))
  · simp [Links.join,Links.setNext,Links.setPrev]
  · simp [Links.join,Links.setPrev]
  · intro q m
    refine Function.update_of_ne ?_ _ _
    intro same
    rw [← eq,List.dropLast_concat] at m
    exact fresh (same ▸ m)
  · intro q m
    refine Function.update_of_ne ?_ _ _
    intro same
    exact (List.nodup_cons.mp shifted).1 (same ▸ m)

theorem circularInsert (xs ys : List Node) (ring : Circular l head (xs ++ ys)) (fresh : d ∉ head::(xs ++ ys)) :
    Circular ((l.join d ((ys ++ [head]).head (by simp))).join (lastOf head xs) d) head (xs ++ d::ys) := by
  obtain ⟨n,zs,eq⟩ := behind ys head
  have path := ring.1
  rw [List.append_assoc,pathAppend,eq] at path
  simp only [eq,List.head_cons]
  refine circularPut eq ?_ path.1 path.2.2.2
  have perm : (head::(xs ++ d::ys)).Perm (d::head::(xs ++ ys)) :=
    (List.perm_middle.cons head).trans (List.Perm.swap d head _)
  exact perm.nodup_iff.mpr (List.nodup_cons.mpr ⟨fresh,ring.2⟩)

theorem circularPush (ring : Circular l head xs) (fresh : d ∉ head::xs) :
    Circular ((l.join d (l.next head)).join head d) head (d::xs) := by
  rw [circularHeadNext ring]
  exact circularInsert [] xs ring fresh

theorem circularSnoc (ring : Circular l head xs) (fresh : d ∉ head::xs) :
    Circular ((l.join d head).join (l.prev head) d) head (xs ++ [d]) := by
  rw [circularHeadPrev ring]
  exact circularInsert xs [] (by simpa using ring) (by simpa using fresh)

theorem circularReplace (ring : Circular l head (xs ++ c::ys)) (fresh : d ∉ head::(xs ++ c::ys)) :
    Circular ((l.join d (l.next c)).join (l.prev c) d) head (xs ++ d::ys) := by
  obtain ⟨n,zs,eq⟩ := behind ys head
  have path := ring.1
  rw [circularPrev ring,circularNext ring]
  rw [List.append_assoc,pathAppend,List.cons_append,eq] at path
  simp only [eq,List.head_cons]
  refine circularPut eq ?_ path.1 path.2.2.2.2.2
  have perm : (head::(xs ++ d::ys)).Perm (d::head::(xs ++ ys)) :=
    (List.perm_middle.cons head).trans (List.Perm.swap d head _)
  have shorter : (head::(xs ++ ys)).Sublist (head::(xs ++ c::ys)) :=
    ((List.sublist_cons_self c ys).append_left xs).cons_cons head
  exact perm.nodup_iff.mpr (List.nodup_cons.mpr ⟨fun m => fresh (shorter.subset m),ring.2.sublist shorter⟩)

end

end Syslinux.Chain
