import Mathlib.Data.List.TakeWhile
import Syslinux.SearchdirRuns

/-! core/fs/chdir.c: realpath prints the chain of names that the lookup left behind. Where a name in a directory
always means the same object, the printed path leads back to what was found, and prints itself. -/
namespace Syslinux.Searchdir
open Refcount (Node Heap find acquire release attach addrs children pending bare Balanced Grown At Linked)

def copyString (bufsize : Nat) : Bytes → Nat → Bytes → Bytes × Nat
  | buf,ix,[] => (if ix < bufsize then buf.set ix 0 else buf,ix)
  | buf,ix,c::src => copyString bufsize (if ix + 1 < bufsize then buf.set ix c else buf) (ix + 1) src

section
variable {Obj : Type}

/- The length, or none for (size_t)-1. A chain of parents meets each inode once at most. -/
def genericInodeToPath (h : Heap Nat (Inode Obj)) (bufsize : Nat) :
    Nat → Nat → Bytes → Option (Bytes × Option Nat)
  | 0,_,_ => none
  | turns+1,inode,dst => do
      let node ← find h inode
      match node.parent with
      | none => some (dst,some 0)
      | some parent =>
          -- Only the root should have no name
          match node.data.name with
          | none => some (dst,none)
          | some name => do
              match ← genericInodeToPath h bufsize turns parent dst with
              | (dst,none) => some (dst,none)
              | (dst,some s) =>
                  let slashed := copyString bufsize dst s [slash]
                  let copied := copyString bufsize slashed.1 slashed.2 name
                  some (copied.1,some copied.2)

def realpath (fs : Fs Obj) (s : State Obj) (dst src : Bytes) (bufsize : Nat) :
    Option (State Obj × Bytes × Option Nat) := do
  let (s,rv) ← searchdir fs s src
  match rv with
  | none => some (s,dst,none)
  | some handle => do
      let file ← handleToFile s handle
      let inode ← file.inode
      let (dst,n) ← genericInodeToPath s.inodes bufsize s.inodes.length inode dst
      let rooted := copyString bufsize dst 0 [slash]
      let s ← closeFile s handle
      some (if n = some 0 then (s,rooted.1,some rooted.2) else (s,dst,n))

def objOf (s : State Obj) (handle : Nat) : Option Obj := do
  let file ← handleToFile s handle
  let inode ← file.inode
  let node ← find s.inodes inode
  some node.data.obj

inductive Spine (h : Heap Nat (Inode Obj)) : Nat → List Bytes → Prop where
  | root {n : Node Nat (Inode Obj)} (mem : n ∈ h) (top : n.parent = none) : Spine h n.addr []
  | child {n : Node Nat (Inode Obj)} {parent : Nat} {name : Bytes} {names : List Bytes} (mem : n ∈ h)
      (up : n.parent = some parent) (named : n.data.name = some name) (above : Spine h parent names) :
      Spine h n.addr (names ++ [name])

def text (names : List Bytes) : Bytes :=
  names.flatMap (fun name => slash::name)

def printed (names : List Bytes) : Bytes :=
  if names = [] then [slash] else text names

theorem copyStringLength (bufsize : Nat) (buf : Bytes) (ix : Nat) (src : Bytes) :
    (copyString bufsize buf ix src).2 = ix + src.length ∧
      (copyString bufsize buf ix src).1.length = buf.length := by
  induction src generalizing buf ix with
  | nil =>
    unfold copyString
    split <;> simp
  | cons c src ih =>
    obtain ⟨len,size⟩ := ih (if ix + 1 < bufsize then buf.set ix c else buf) (ix + 1)
    refine ⟨by simp only [copyString,len,List.length_cons]; omega,?_⟩
    simp only [copyString,size]
    split <;> simp

/- Bytes written one behind the other, and the NUL after them. -/
def Holds (buf : Bytes) (ix : Nat) (written : Bytes) : Prop :=
  ix = written.length ∧ buf.take ix = written

theorem copyStringHolds {bufsize : Nat} {buf : Bytes} {ix : Nat} {written : Bytes} (src : Bytes) (room : bufsize ≤ buf.length)
    (fits : ix + src.length < bufsize) (before : Holds buf ix written) :
    Holds (copyString bufsize buf ix src).1 (copyString bufsize buf ix src).2 (written ++ src) ∧
      (copyString bufsize buf ix src).1[(copyString bufsize buf ix src).2]? = some 0 := by
  induction src generalizing buf ix written with
  | nil =>
    simp only [List.length_nil,Nat.add_zero] at fits
    have small : ix < buf.length := by omega
    simp only [copyString,if_pos fits,List.append_nil]
    refine ⟨⟨before.1,?_⟩,by rw [List.getElem?_set_self small]⟩
    rw [List.take_set_of_le (Nat.le_refl ix)]
    exact before.2
  | cons c src ih =>
    simp only [List.length_cons] at fits
    have more : ix + 1 < bufsize := by omega
    have small : ix < buf.length := by omega
    have next : Holds (buf.set ix c) (ix + 1) (written ++ [c]) := by
      refine ⟨by simp [before.1],?_⟩
      rw [List.take_add_one,List.take_set_of_le (Nat.le_refl ix),before.2,List.getElem?_set_self small]
      rfl
    have room' : bufsize ≤ (buf.set ix c).length := by simpa using room
    have rest := ih room' (by omega) next
    simp only [copyString,if_pos more]
    simpa only [List.append_assoc,List.singleton_append] using rest

theorem findSelf {R : Option (Inode Obj) → Inode Obj → Prop} {h : Heap Nat (Inode Obj)} (linked : Linked R h)
    {n : Node Nat (Inode Obj)} (mem : n ∈ h) : find h n.addr = some n := by
  obtain ⟨m,found⟩ := Refcount.findLive (Refcount.memAddrs mem)
  obtain ⟨inside,same⟩ := Refcount.findSome found
  rw [found,Refcount.sameNode linked inside mem same]

theorem spineTail {R : Option (Inode Obj) → Inode Obj → Prop} {h : Heap Nat (Inode Obj)} {n : Node Nat (Inode Obj)}
    {inode : Nat} {names : List Bytes} (linked : Linked R (n::h)) (spine : Spine (n::h) inode names)
    (inside : inode ∈ addrs h) : Spine h inode names := by
  have older {m : Node Nat (Inode Obj)} (mem : m ∈ n::h) (live : m.addr ∈ addrs h) : m ∈ h := by
    rcases List.mem_cons.mp mem with rfl | rest
    · exact absurd live linked.1
    · exact rest
  induction spine with
  | root mem top => exact .root (older mem inside) top
  | child mem up named above ih =>
    have here := older mem inside
    obtain ⟨q,qm,qa,_⟩ := Refcount.parentLive linked.2.2 here up
    exact .child here up named (ih (qa ▸ Refcount.memAddrs qm))

theorem spineShort {R : Option (Inode Obj) → Inode Obj → Prop} {h : Heap Nat (Inode Obj)} {inode : Nat}
    {names : List Bytes} (linked : Linked R h) (spine : Spine h inode names) : names.length < h.length := by
  have live {h : Heap Nat (Inode Obj)} {inode : Nat} {names : List Bytes} (spine : Spine h inode names) :
      inode ∈ addrs h := by
    cases spine with
    | root mem _ => exact Refcount.memAddrs mem
    | child mem _ _ _ => exact Refcount.memAddrs mem
  induction h generalizing inode names with
  | nil => simpa [addrs] using live spine
  | cons n t ih =>
    cases spine with
    | root mem top => simp
    | @child m parent name names mem up named above =>
      have below : parent ∈ addrs t := by
        rcases List.mem_cons.mp mem with rfl | rest
        · have anchored := linked.2.1
          simp only [Refcount.Anchored,up] at anchored
          obtain ⟨q,qm,qa,_⟩ := anchored
          exact qa ▸ Refcount.memAddrs qm
        · obtain ⟨q,qm,qa,_⟩ := Refcount.parentLive linked.2.2 rest up
          exact qa ▸ Refcount.memAddrs qm
      have shorter := ih linked.2.2 (spineTail linked above below)
      simp only [List.length_append,List.length_cons,List.length_nil]
      omega

theorem textSnoc (names : List Bytes) (name : Bytes) : text (names ++ [name]) = text names ++ [slash] ++ name := by
  simp [text]

/- The chain is printed in order, each name behind the slash that follows the one before. -/
theorem pathOfSpine {R : Option (Inode Obj) → Inode Obj → Prop} {h : Heap Nat (Inode Obj)} {inode : Nat}
    {names : List Bytes} {turns : Nat} (bufsize : Nat) (dst : Bytes) (linked : Linked R h)
    (spine : Spine h inode names) (enough : names.length < turns) :
    ∃ dst',genericInodeToPath h bufsize turns inode dst = some (dst',some (text names).length) ∧
      dst'.length = dst.length ∧
      (bufsize ≤ dst.length → (text names).length < bufsize →
        Holds dst' (text names).length (text names) ∧ (names ≠ [] → dst'[(text names).length]? = some 0)) := by
  induction spine generalizing turns with
  | @root n mem top =>
    obtain ⟨turns,rfl⟩ := Nat.exists_eq_add_of_lt enough
    refine ⟨dst,by simp [genericInodeToPath,findSelf linked mem,top,text],rfl,?_⟩
    intro _ _
    exact ⟨⟨rfl,by simp [text]⟩,fun some' => absurd rfl some'⟩
  | @child n parent name names mem up named above ih =>
    simp only [List.length_append,List.length_cons,List.length_nil,Nat.zero_add] at enough
    cases turns with
    | zero => omega
    | succ turns =>
      have fewer : names.length < turns := by omega
      obtain ⟨dst1,result,size,held⟩ := ih fewer
      let slashed := copyString bufsize dst1 (text names).length [slash]
      let copied := copyString bufsize slashed.1 slashed.2 name
      obtain ⟨len1,size1⟩ := copyStringLength bufsize dst1 (text names).length [slash]
      obtain ⟨len2,size2⟩ := copyStringLength bufsize slashed.1 slashed.2 name
      have length : copied.2 = (text (names ++ [name])).length := by
        rw [textSnoc,List.length_append,List.length_append]
        exact len2.trans (by rw [len1])
      refine ⟨copied.1,?_,?_,?_⟩
      · rw [← length]
        simp [genericInodeToPath,findSelf linked mem,up,named,result,copied,slashed]
      · exact size2.trans (size1.trans size)
      · intro room fits
        rw [textSnoc,List.length_append,List.length_append] at fits
        simp only [List.length_cons,List.length_nil] at fits len1
        obtain ⟨before,_⟩ := held room (by omega)
        obtain ⟨middle,_⟩ := copyStringHolds [slash] (size ▸ room) (by simp; omega) before
        have room1 : bufsize ≤ slashed.1.length := by rw [size1,size]; exact room
        obtain ⟨last,nul⟩ := copyStringHolds name room1 (by rw [len1]; omega) middle
        rw [← length,textSnoc]
        exact ⟨last,fun _ => nul⟩

/- Only a chain with every name in place gets printed. -/
theorem spineOfPath {h : Heap Nat (Inode Obj)} {inode bufsize turns n : Nat} {dst dst' : Bytes}
    (result : genericInodeToPath h bufsize turns inode dst = some (dst',some n)) : ∃ names,Spine h inode names := by
  induction turns generalizing inode dst dst' n with
  | zero => simp [genericInodeToPath] at result
  | succ turns ih =>
    simp only [genericInodeToPath,bind,Option.bind_eq_some_iff] at result
    obtain ⟨node,found,rest⟩ := result
    obtain ⟨mem,rfl⟩ := Refcount.findSome found
    cases up : node.parent with
    | none => exact ⟨[],.root mem up⟩
    | some parent =>
      simp only [up] at rest
      cases named : node.data.name with
      | none => simp [named] at rest
      | some name =>
        simp only [named,Option.bind_eq_some_iff] at rest
        obtain ⟨⟨dst1,m⟩,above,last⟩ := rest
        cases m with
        | none => simp at last
        | some m =>
          obtain ⟨names,spine⟩ := ih above
          exact ⟨names ++ [name],.child mem up named spine⟩

theorem cstrHolds {buf written : Bytes} {n : Nat} (held : Holds buf n written) (nul : buf[n]? = some 0)
    (plain : ∀ c ∈ written,c ≠ 0) : cstr buf = written := by
  obtain ⟨small,here⟩ := List.getElem?_eq_some_iff.mp nul
  have whole : buf = written ++ 0 :: buf.drop (n + 1) := by
    rw [← held.2,← here,← List.drop_eq_getElem_cons small,List.take_append_drop]
  rw [whole,cstr,List.takeWhile_append_of_pos (by simpa using plain)]
  simp

/- Looking a name up depends on the directory and the name alone, and no directory has an entry without a name. -/
structure Functional (fs : Fs Obj) (lookup : Bytes → Obj → Option (Obj × Mode × Nat)) : Prop where
  answers : ∀ tick name obj,fs.iget tick name obj = lookup name obj
  named : ∀ obj,lookup [] obj = none

inductive Descends (lookup : Bytes → Obj → Option (Obj × Mode × Nat)) : Obj → List Bytes → Obj → Prop where
  | nil (obj : Obj) : Descends lookup obj [] obj
  | cons {obj below last : Obj} {name : Bytes} {names : List Bytes} {size : Nat}
      (entry : lookup name obj = some (below,.dir,size)) (rest : Descends lookup below names last) :
      Descends lookup obj (name::names) last

theorem descendsSnoc {lookup : Bytes → Obj → Option (Obj × Mode × Nat)} {obj middle last : Obj} {names : List Bytes}
    {name : Bytes} {size : Nat} (down : Descends lookup obj names middle)
    (entry : lookup name middle = some (last,.dir,size)) : Descends lookup obj (names ++ [name]) last := by
  induction down with
  | nil obj => exact .cons entry (.nil last)
  | cons first rest ih => exact .cons first (ih entry)

def Named (name : Bytes) : Prop :=
  name ≠ [] ∧ Component name

theorem entryOfChild {fs : Fs Obj} {lookup : Bytes → Obj → Option (Obj × Mode × Nat)}
    {h : Heap Nat (Inode Obj)} {n : Node Nat (Inode Obj)} {parent : Nat} {name : Bytes} (functional : Functional fs lookup)
    (linked : Linked (Edge fs) h) (mem : n ∈ h) (up : n.parent = some parent) (named : n.data.name = some name) :
    ∃ q ∈ h,q.addr = parent ∧ Walkable fs q.data ∧ Named name ∧
      lookup name q.data.obj = some (n.data.obj,n.data.mode,n.data.size) := by
  obtain ⟨q,inside,same,edge⟩ := Refcount.parentLive linked mem up
  have entered : Entered fs q.data n.data := edge
  obtain ⟨cut,tick',plain,got,copied⟩ := entered.named
  have eq := copied name named
  subst eq
  rw [functional.answers] at got
  refine ⟨q,inside,same,entered.through,⟨?_,plain⟩,got⟩
  rintro rfl
  rw [functional.named] at got
  cases got

theorem dirOfNamed {fs : Fs Obj} {d : Inode Obj} {name : Bytes} (walkable : Walkable fs d)
    (named : d.name = some name) : d.mode = .dir := by
  rcases walkable with dir | root
  · exact dir
  · rw [root.2.2.2] at named
    cases named

theorem descendsOfSpine {fs : Fs Obj} {lookup : Bytes → Obj → Option (Obj × Mode × Nat)}
    {h : Heap Nat (Inode Obj)} {inode : Nat} {names : List Bytes} (functional : Functional fs lookup)
    (linked : Linked (Edge fs) h) (spine : Spine h inode names) :
    ∀ n ∈ h,n.addr = inode → Walkable fs n.data →
      Descends lookup fs.rootObj names n.data.obj ∧ ∀ name ∈ names,Named name := by
  induction spine with
  | @root m mem top =>
    intro n inside same _
    have unique := Refcount.sameNode linked inside mem same
    subst unique
    have kind : Rootlike fs n.data := Refcount.rootRelated linked mem top
    rw [kind.1]
    exact ⟨.nil _,by simp⟩
  | @child m parent name names mem up named above ih =>
    intro n inside same walkable
    have unique := Refcount.sameNode linked inside mem same
    subst unique
    obtain ⟨q,qm,qa,through,good,entry⟩ := entryOfChild functional linked mem up named
    obtain ⟨down,all⟩ := ih q qm qa through
    rw [dirOfNamed walkable named] at entry
    refine ⟨descendsSnoc down entry,?_⟩
    intro other mem'
    rcases List.mem_append.mp mem' with old | new
    · exact all other old
    · rw [List.mem_singleton.mp new]
      exact good

theorem strchrNul {word : Bytes} (more : Bytes) (plain : ∀ c ∈ word,c ≠ 0 ∧ c ≠ slash) :
    strchr (word ++ 0::more) = (word,none) := by
  induction word with
  | nil => rfl
  | cons c word ih =>
    obtain ⟨notNul,notSlash⟩ := plain c List.mem_cons_self
    have rest := ih (fun d mem => plain d (List.mem_cons_of_mem _ mem))
    simp [strchr,notNul,notSlash,rest]

theorem strchrSlash {word : Bytes} (more : Bytes) (plain : ∀ c ∈ word,c ≠ 0 ∧ c ≠ slash) :
    strchr (word ++ slash::more) = (word,some more) := by
  induction word with
  | nil => rfl
  | cons c word ih =>
    obtain ⟨notNul,notSlash⟩ := plain c List.mem_cons_self
    have rest := ih (fun d mem => plain d (List.mem_cons_of_mem _ mem))
    simp [strchr,notNul,notSlash,rest]

theorem skipNamed {name : Bytes} (more : Bytes) (named : Named name) :
    skipSlashes (name ++ more) = some (name ++ more) := by
  cases name with
  | nil => exact absurd rfl named.1
  | cons c word =>
    obtain ⟨notNul,notSlash⟩ := named.2.plain c List.mem_cons_self
    simp [skipSlashes,notNul,notSlash]

/- What is left of a printed path below some inode: the names, the NUL and what lies behind it. -/
@[grind =] def remaining : List Bytes → Bytes → Bytes
  | [],slack => 0::slack
  | [name],slack => name ++ 0::slack
  | name::names,slack => name ++ slash :: remaining names slack

theorem remainingEq (name : Bytes) (names : List Bytes) (slack : Bytes) :
    remaining (name::names) slack = name ++ text names ++ 0::slack := by
  induction names generalizing name with
  | nil => simp [remaining,text]
  | cons next names ih => simp [remaining,ih next,text]

theorem componentLast {name : Bytes} (slack : Bytes) (named : Named name) :
    component (remaining [name] slack) = (name,none) := by
  cases name with
  | nil => exact absurd rfl named.1
  | cons c word =>
    obtain ⟨notNul,notSlash⟩ := named.2.plain c List.mem_cons_self
    have cut := strchrNul slack (fun d mem => named.2.plain d (List.mem_cons_of_mem c mem))
    rw [remaining,List.cons_append,componentName _ notSlash,cut]
    simp [notNul]

theorem componentNext {name next : Bytes} {names : List Bytes} (slack : Bytes) (named : Named name)
    (follows : Named next) : component (remaining (name::next::names) slack) =
      (name,some (remaining (next::names) slack)) := by
  have kept : skipSlashes (remaining (next::names) slack) = some (remaining (next::names) slack) := by
    rw [remainingEq,List.append_assoc]
    exact skipNamed _ follows
  cases name with
  | nil => exact absurd rfl named.1
  | cons c word =>
    obtain ⟨notNul,notSlash⟩ := named.2.plain c List.mem_cons_self
    have cut := strchrSlash (remaining (next::names) slack)
      (fun d mem => named.2.plain d (List.mem_cons_of_mem c mem))
    rw [remaining,List.cons_append,componentName _ notSlash,cut]
    · simp [notNul,kept]
    · simp

theorem spineCons {h : Heap Nat (Inode Obj)} {inode : Nat} {names : List Bytes} (n : Node Nat (Inode Obj))
    (spine : Spine h inode names) : Spine (n::h) inode names := by
  induction spine with
  | root mem top => exact .root (List.mem_cons_of_mem _ mem) top
  | child mem up named above ih => exact .child (List.mem_cons_of_mem _ mem) up named ih

/- The lookup stands at an object, with the names that led there on record. -/
structure Standing (fs : Fs Obj) (P : Inode Obj → Prop) (s₀ s : State Obj) (inode : Nat) (obj : Obj)
    (names : List Bytes) : Prop where
  carried : Carried fs (fun d => d.obj = obj ∧ P d) s₀ s inode
  spine : Spine s.inodes inode names
  memory : ∀ tick size,s.clock ≤ tick → fs.memory tick size = true

theorem turnNamed {fs : Fs Obj} {s₀ s : State Obj} {inode : Nat} {obj : Obj} {names : List Bytes}
    {buf name : Bytes} {next : Option Bytes} {found : Obj × Mode × Nat} (count : Nat)
    (standing : Standing fs (Walkable fs) s₀ s inode obj names) (cut : component buf = (name,next))
    (named : Named name) (got : fs.iget s.clock name obj = some found) (notLink : found.2.1 ≠ .lnk)
    (dir : next ≠ none → found.2.1 = .dir) :
    ∃ s' inode',turn fs count s inode buf = some (.on s' inode' next) ∧
      Standing fs (fun d => d.mode = found.2.1) s₀ s' inode' found.1 (names ++ [name]) := by
  obtain ⟨n,mem,rfl,objs,_⟩ := standing.carried.here
  have walking := carriedAs standing.carried (fun _ both => both.2)
  have node := findSelf standing.carried.lent.grown.balanced.linked mem
  have plain := named.2
  have at' : fs.iget s.clock name n.data.obj = some found := by rw [objs,got]
  obtain ⟨kept,_⟩ := carriedEnter (s := tick s) (carriedTick walking) node plain at'
  have copied : fs.memory (s.clock + 1) (int32 (name.length + 1)) = true := standing.memory _ _ (Nat.le_succ _)
  have notRoot : name.head? ≠ some slash := by
    intro head
    have first := List.mem_of_head? head
    exact (plain.plain slash first).2 rfl
  have notFile : ¬(next ≠ none ∧ found.2.1 ≠ .dir) := fun both => both.2 (dir both.1)
  refine ⟨(enter fs (tick s) n.addr name found).1,(enter fs (tick s) n.addr name found).2,?_,?_,?_,?_⟩
  · simp only [turn,cut,if_neg notRoot,if_neg plain.notDot,if_neg plain.notDotdot,node,bind,Option.bind,at',
      if_neg notLink,if_neg notFile]
  · refine ⟨kept.lent,?_⟩
    exact ⟨_,List.mem_cons_self,rfl,rfl,rfl⟩
  · have copy : (enter fs (tick s) n.addr name found).1.inodes =
        attach s.inodes (enter fs (tick s) n.addr name found).2 n.addr ⟨found.1,found.2.1,found.2.2,some name⟩ := by
      simp [enter,tick,copied]
    rw [copy]
    exact Spine.child List.mem_cons_self rfl rfl (spineCons _ standing.spine)
  · intro later size le
    exact standing.memory later size (Nat.le_trans (by simp [enter,tick]; omega) le)

/- Down the names of a printed path, directory by directory, to the last one. -/
theorem passNames {fs : Fs Obj} {lookup : Bytes → Obj → Option (Obj × Mode × Nat)} {s₀ s : State Obj}
    {inode turns size : Nat} {obj middle last : Obj} {before names : List Bytes} {name : Bytes} {mode : Mode}
    (restart : State Obj → Nat → Bytes → Option (State Obj × Option Nat)) (count : Nat) (slack : Bytes)
    (functional : Functional fs lookup) (down : Descends lookup obj names middle)
    (standing : Standing fs (Walkable fs) s₀ s inode obj before)
    (entry : lookup name middle = some (last,mode,size)) (notLink : mode ≠ .lnk)
    (named : ∀ n ∈ names ++ [name],Named n) (enough : names.length < turns) :
    ∃ s' inode',pass fs count restart turns s inode (remaining (names ++ [name]) slack) = some (s',some inode') ∧
      Standing fs (fun d => d.mode = mode) s₀ s' inode' last (before ++ names ++ [name]) := by
  induction down generalizing s inode before turns with
  | nil obj =>
    obtain ⟨turns,rfl⟩ := Nat.exists_eq_add_of_lt enough
    have good := named name (by simp)
    obtain ⟨s',inode',result,stands⟩ := turnNamed count standing (componentLast slack good) good
      ((functional.answers _ _ _).trans entry) notLink (fun some' => absurd rfl some')
    refine ⟨s',inode',?_,by simpa using stands⟩
    simp [pass,result]
  | @cons obj below middle first names size' here rest ih =>
    cases turns with
    | zero => simp at enough
    | succ turns =>
      obtain ⟨next,names',split⟩ : ∃ next names',names ++ [name] = next::names' := by
        cases names with
        | nil => exact ⟨name,[],rfl⟩
        | cons a names => exact ⟨a,names ++ [name],rfl⟩
      have later : ∀ n ∈ names ++ [name],Named n := fun n mem => named n (List.mem_cons_of_mem _ mem)
      have cut : component (remaining (first::names ++ [name]) slack) =
          (first,some (remaining (names ++ [name]) slack)) := by
        rw [List.cons_append,split]
        exact componentNext slack (named first (by simp)) (later next (by simp [split]))
      obtain ⟨s1,inode1,result,stands⟩ := turnNamed count standing cut (named first (by simp))
        ((functional.answers _ _ _).trans here) (by simp) (fun _ => rfl)
      have walking : Standing fs (Walkable fs) s₀ s1 inode1 below (before ++ [first]) :=
        ⟨carriedAs stands.carried (fun _ both => ⟨both.1,.inl both.2⟩),stands.spine,stands.memory⟩
      have fewer : names.length < turns := by
        simp only [List.length_cons] at enough
        omega
      obtain ⟨s2,inode2,passed,stands2⟩ := ih walking entry later fewer
      refine ⟨s2,inode2,?_,by simpa using stands2⟩
      rw [pass,result]
      exact passed

inductive Leads (fs : Fs Obj) (lookup : Bytes → Obj → Option (Obj × Mode × Nat)) : List Bytes → Obj → Prop where
  | root : Leads fs lookup [] fs.rootObj
  | below {middle obj : Obj} {names : List Bytes} {name : Bytes} {mode : Mode} {size : Nat}
      (down : Descends lookup fs.rootObj names middle) (entry : lookup name middle = some (obj,mode,size))
      (notLink : mode ≠ .lnk) (named : ∀ n ∈ names ++ [name],Named n) : Leads fs lookup (names ++ [name]) obj

theorem leadsNamed {fs : Fs Obj} {lookup : Bytes → Obj → Option (Obj × Mode × Nat)} {names : List Bytes} {obj : Obj}
    (leads : Leads fs lookup names obj) : ∀ n ∈ names,Named n := by
  cases leads with
  | root => simp
  | below _ _ _ named => exact named

theorem leadsOfSpine {fs : Fs Obj} {lookup : Bytes → Obj → Option (Obj × Mode × Nat)}
    {h : Heap Nat (Inode Obj)} {inode : Nat} {names : List Bytes} {obj : Obj} (functional : Functional fs lookup)
    (linked : Linked (Edge fs) h) (spine : Spine h inode names)
    (here : At (fun _ d => d.obj = obj ∧ Settled fs d) h inode) : Leads fs lookup names obj := by
  obtain ⟨n,inside,same,rfl,settled⟩ := here
  cases spine with
  | root mem top =>
    have unique := Refcount.sameNode linked inside mem same
    subst unique
    have kind : Rootlike fs n.data := Refcount.rootRelated linked mem top
    rw [kind.1]
    exact .root
  | child mem up named above =>
    have unique := Refcount.sameNode linked inside mem same
    subst unique
    obtain ⟨q,qm,qa,through,good,entry⟩ := entryOfChild functional linked mem up named
    obtain ⟨down,all⟩ := descendsOfSpine functional linked above q qm qa through
    refine .below down entry ?_ ?_
    · rcases settled with notLink | root
      · exact notLink
      · rw [root.2.2.2] at named
        cases named
    · intro other mem'
      rcases List.mem_append.mp mem' with old | new
      · exact all other old
      · rw [List.mem_singleton.mp new]
        exact good

theorem printedPlain {names : List Bytes} (named : ∀ n ∈ names,Named n) : ∀ c ∈ printed names,c ≠ 0 := by
  intro c mem
  unfold printed at mem
  split at mem
  · rw [List.mem_singleton.mp mem]
    decide
  · obtain ⟨name,inside,at'⟩ := List.mem_flatMap.mp mem
    rcases List.mem_cons.mp at' with rfl | rest
    · decide
    · exact ((named name inside).2.plain c rest).1

theorem printedBuffer (names : List Bytes) (slack : Bytes) :
    printed names ++ 0::slack = slash :: remaining names slack := by
  cases names with
  | nil => rfl
  | cons name names =>
    rw [remainingEq]
    simp [printed,text]

theorem remainingLong (names : List Bytes) (slack : Bytes) : names.length ≤ (remaining names slack).length := by
  cases names with
  | nil => simp
  | cons name names =>
    have texts : names.length ≤ (text names).length := by
      induction names with
      | nil => simp
      | cons first names ih =>
        simp only [text,List.flatMap_cons,List.length_append,List.length_cons] at ih ⊢
        omega
    rw [remainingEq]
    simp only [List.length_append,List.length_cons]
    omega

theorem getInodeClock {s s' : State Obj} {inode : Nat} (got : getInode s inode = some s') : s'.clock = s.clock := by
  simp only [getInode,bind,Option.bind_eq_some_iff] at got
  obtain ⟨h,_,eq⟩ := got
  cases Option.some.inj eq
  rfl

theorem putInodeClock {s s' : State Obj} {o : Option Nat} (put : putInode s o = some s') : s'.clock = s.clock := by
  simp only [putInode,bind,Option.bind_eq_some_iff] at put
  obtain ⟨h,_,eq⟩ := put
  cases Option.some.inj eq
  rfl

theorem skipRemaining {names : List Bytes} (slack : Bytes) (named : ∀ n ∈ names,Named n) :
    skipSlashes (remaining names slack) = if names = [] then none else some (remaining names slack) := by
  cases names with
  | nil => rfl
  | cons name names =>
    rw [remainingEq,List.append_assoc,skipNamed _ (named name List.mem_cons_self)]
    simp

theorem turnRoot {fs : Fs Obj} {P : Inode Obj → Prop} {s₀ s : State Obj} {inode : Nat} {names : List Bytes}
    (count : Nat) (slack : Bytes) (inv : Inv fs s₀) (carried : Carried fs P s₀ s inode)
    (memory : ∀ tick size,s.clock ≤ tick → fs.memory tick size = true) (named : ∀ n ∈ names,Named n) :
    ∃ s',turn fs count s inode (slash :: remaining names slack) =
        some (.on s' s'.root (if names = [] then none else some (remaining names slack))) ∧
      Standing fs (Rootlike fs) s₀ s' s'.root fs.rootObj [] := by
  obtain ⟨s1,s2,put,got,_,kept⟩ := carriedRoot inv carried
  refine ⟨s2,?_,?_,?_,?_⟩
  · simp [turn,componentRoot,skipRemaining slack named,put,got]
  · exact carriedAs kept (fun _ r => ⟨r.1,r⟩)
  · have top := Refcount.atUp kept.lent.grown.kept.sublist inv.root
    rw [← kept.lent.root] at top
    obtain ⟨n,mem,same,none'⟩ := top
    exact same ▸ Spine.root mem none'
  · rw [getInodeClock got,putInodeClock put]
    exact memory

theorem walkPrinted {fs : Fs Obj} {lookup : Bytes → Obj → Option (Obj × Mode × Nat)} {s₀ s : State Obj}
    {inode : Nat} {names : List Bytes} {obj : Obj} (count : Nat) (slack : Bytes) (inv : Inv fs s₀)
    (functional : Functional fs lookup) (leads : Leads fs lookup names obj)
    (carried : Carried fs (Walkable fs) s₀ s inode)
    (memory : ∀ tick size,s.clock ≤ tick → fs.memory tick size = true) :
    ∃ s' inode',walk fs (count + 1) s inode (printed names ++ 0::slack) = some (s',some inode') ∧
      Standing fs (Settled fs) s₀ s' inode' obj names := by
  have named := leadsNamed leads
  obtain ⟨s1,first,stands⟩ := turnRoot (count + 1) slack inv carried memory named
  rw [printedBuffer,walk,pass,first]
  cases leads with
  | root =>
    refine ⟨s1,s1.root,rfl,?_⟩
    exact ⟨carriedAs stands.carried (fun _ both => ⟨both.1,.inr both.2⟩),stands.spine,stands.memory⟩
  | @below middle obj names name mode size down entry notLink named =>
    have walking : Standing fs (Walkable fs) s₀ s1 s1.root fs.rootObj [] :=
      ⟨carriedAs stands.carried (fun _ both => ⟨both.1,.inr both.2⟩),stands.spine,stands.memory⟩
    have long := remainingLong (names ++ [name]) slack
    have enough : names.length < (slash :: remaining (names ++ [name]) slack).length := by
      simp only [List.length_append,List.length_cons,List.length_nil] at long ⊢
      omega
    obtain ⟨s2,inode2,passed,stands2⟩ := passNames (walk fs count) (count + 1) slack functional down walking entry
      notLink named enough
    refine ⟨s2,inode2,?_,?_⟩
    · simpa using passed
    · exact ⟨carriedAs stands2.carried (fun d both => ⟨both.1,.inl (by rw [both.2]; exact notLink)⟩),stands2.spine,
        stands2.memory⟩

theorem searchPrinted {fs : Fs Obj} {lookup : Bytes → Obj → Option (Obj × Mode × Nat)} {s : State Obj}
    {names : List Bytes} {obj : Obj} (inv : Inv fs s) (functional : Functional fs lookup)
    (leads : Leads fs lookup names obj) (free : allocFile s.files ≠ none)
    (memory : ∀ tick size,s.clock ≤ tick → fs.memory tick size = true) :
    ∃ s' slot inode,searchdir fs s (printed names) = some (s',some (slot + 1)) ∧ Searched fs s s' slot inode ∧
      Spine s'.inodes inode names ∧ At (fun _ d => d.obj = obj) s'.inodes inode := by
  obtain ⟨slot,slots⟩ := Option.ne_none_iff_exists'.mp free
  have empty := allocFileFree slots
  have reserved := reserveInv inv empty
  have copy := cstrPlain (printedPlain (leadsNamed leads))
  obtain ⟨s1,got,carried⟩ := carriedCwd reserved
  have clock : s1.clock = s.clock + 1 := getInodeClock got
  obtain ⟨s2,inode,walked,stands⟩ := walkPrinted 19 (fs.slack s.clock) reserved functional leads carried
    (fun tick' size le => memory tick' size (by omega))
  have got' : getInode (tick { s with files := s.files.set slot (some ⟨none,0⟩) }) s.cwd = some s1 := got
  have walked' : walk fs maxSymlinkCnt s1 s.cwd (printed names ++ 0 :: fs.slack s.clock) = some (s2,some inode) :=
    walked
  have enough : fs.memory s.clock (int32 ((printed names).length + 1)) = true := memory _ _ (Nat.le_refl _)
  refine ⟨{ s2 with files := s2.files.set slot (some ⟨some inode,0⟩) },slot,inode,?_,?_,stands.spine,?_⟩
  · simp only [searchdir,slots,copy,enough,Bool.true_eq_false,if_false,bind,Option.bind,got',walked']
  · exact searchedOpen inv empty (carriedAs stands.carried (fun _ both => both.2))
  · obtain ⟨n,mem,same,objs,_⟩ := stands.carried.here
    exact ⟨n,mem,same,objs⟩

theorem objOfSearched {fs : Fs Obj} {s s' : State Obj} {slot inode : Nat} {obj : Obj}
    (searched : Searched fs s s' slot inode) :
    objOf s' (slot + 1) = some obj ↔ At (fun _ d => d.obj = obj) s'.inodes inode := by
  have file : handleToFile s' (slot + 1) = some ⟨some inode,0⟩ := by simp [handleToFile,searchedFile searched]
  simp only [objOf,file,bind,Option.bind]
  constructor
  · intro eq
    cases found : find s'.inodes inode with
    | none => simp [found] at eq
    | some n =>
      obtain ⟨mem,same⟩ := Refcount.findSome found
      simp only [found] at eq
      exact ⟨n,mem,same,Option.some.inj eq⟩
  · rintro ⟨n,mem,rfl,objs⟩
    simp [findSelf searched.inv.balanced.linked mem,objs]

/- realpath of a path whose lookup ended at the foot of a chain. -/
theorem realpathPrints {fs : Fs Obj} {s s' : State Obj} {slot inode : Nat} {names : List Bytes}
    {src : Bytes} (bufsize : Nat) (dst : Bytes) (result : searchdir fs s src = some (s',some (slot + 1)))
    (searched : Searched fs s s' slot inode) (spine : Spine s'.inodes inode names) :
    ∃ s'' dst',realpath fs s dst src bufsize = some (s'',dst',some (printed names).length) ∧ Closed fs s' s'' slot ∧
      (bufsize ≤ dst.length → (printed names).length < bufsize → (∀ n ∈ names,Named n) → cstr dst' = printed names) := by
  have linked := searched.inv.balanced.linked
  have file : handleToFile s' (slot + 1) = some ⟨some inode,0⟩ := by simp [handleToFile,searchedFile searched]
  obtain ⟨dst1,path,size,held⟩ := pathOfSpine bufsize dst linked spine (spineShort linked spine)
  obtain ⟨s2,closed,after⟩ := closeClosed searched.inv slot
  have close : closeFile s' (slot + 1) = some s2 := by simp [closeFile,closed]
  by_cases top : names = []
  · subst top
    obtain ⟨len,_⟩ := copyStringLength bufsize dst1 0 [slash]
    refine ⟨s2,(copyString bufsize dst1 0 [slash]).1,?_,after,?_⟩
    · have n : (text []).length = 0 := rfl
      simp only [realpath,result,bind,Option.bind,file,path,n,close,if_pos,len]
      rfl
    · intro room fits named
      have start : Holds dst1 0 [] := ⟨rfl,by simp⟩
      obtain ⟨copied,nul⟩ := copyStringHolds [slash] (size ▸ room) (by simpa [printed] using fits) start
      exact cstrHolds copied nul (printedPlain named)
  · have printed' : printed names = text names := by simp [printed,top]
    have long : (text names).length ≠ 0 := by
      cases names with
      | nil => exact absurd rfl top
      | cons name names => simp [text]
    refine ⟨s2,dst1,?_,after,?_⟩
    · simp [realpath,result,file,path,close,printed',long]
    · intro room fits named
      rw [printed'] at fits ⊢
      obtain ⟨copied,nul⟩ := held room fits
      exact cstrHolds copied (nul top) (printed' ▸ printedPlain named)

structure Resolves (fs : Fs Obj) (s : State Obj) (path : Bytes) (obj : Obj) : Prop where
  found : ∃ s' handle,searchdir fs s path = some (s',some handle) ∧ objOf s' handle = some obj
  fixed : ∀ dst bufsize,path.length < bufsize → bufsize ≤ dst.length →
    ∃ s' dst',realpath fs s dst path bufsize = some (s',dst',some path.length) ∧ cstr dst' = path

theorem resolvesPrinted {fs : Fs Obj} {lookup : Bytes → Obj → Option (Obj × Mode × Nat)} {s : State Obj}
    {names : List Bytes} {obj : Obj} (inv : Inv fs s) (functional : Functional fs lookup)
    (leads : Leads fs lookup names obj) (free : allocFile s.files ≠ none)
    (memory : ∀ tick size,s.clock ≤ tick → fs.memory tick size = true) : Resolves fs s (printed names) obj := by
  obtain ⟨s',slot,inode,result,searched,spine,here⟩ := searchPrinted inv functional leads free memory
  refine ⟨⟨s',slot + 1,result,(objOfSearched searched).mpr here⟩,?_⟩
  intro dst bufsize fits room
  obtain ⟨s'',dst',printed',_,text'⟩ := realpathPrints bufsize dst result searched spine
  exact ⟨s'',dst',printed',text' room fits (leadsNamed leads)⟩

theorem spineOfRealpath {fs : Fs Obj} {s s' s'' : State Obj} {slot inode bufsize n : Nat} {dst dst' src : Bytes}
    (result : searchdir fs s src = some (s',some (slot + 1))) (searched : Searched fs s s' slot inode)
    (wrote : realpath fs s dst src bufsize = some (s'',dst',some n)) : ∃ names,Spine s'.inodes inode names := by
  have file : handleToFile s' (slot + 1) = some ⟨some inode,0⟩ := by simp [handleToFile,searchedFile searched]
  simp only [realpath,result,bind,Option.bind,file] at wrote
  cases path : genericInodeToPath s'.inodes bufsize s'.inodes.length inode dst with
  | none => simp [path] at wrote
  | some pair =>
    obtain ⟨dst1,m⟩ := pair
    cases m with
    | some m => exact spineOfPath path
    | none =>
      obtain ⟨s2,closed,_⟩ := closeClosed searched.inv slot
      have close : closeFile s' (slot + 1) = some s2 := by simp [closeFile,closed]
      simp [path,close] at wrote

theorem realpathResolves {fs : Fs Obj} {lookup : Bytes → Obj → Option (Obj × Mode × Nat)} {ops : List Op}
    {s s₁ s₂ : State Obj} {path dst dst' : Bytes} {handle bufsize n : Nat} {obj : Obj}
    (functional : Functional fs lookup) (reached : runOps fs ops = some s)
    (found : searchdir fs s path = some (s₁,some handle)) (object : objOf s₁ handle = some obj)
    (wrote : realpath fs s dst path bufsize = some (s₂,dst',some n)) (fits : n < bufsize)
    (room : bufsize ≤ dst.length) : allocFile s₂.files ≠ none ∧
      ∀ more s₃,Runs.run (step fs) s₂ more = some s₃ → allocFile s₃.files ≠ none →
        (∀ tick size,s₃.clock ≤ tick → fs.memory tick size = true) → Resolves fs s₃ (cstr dst') obj := by
  obtain ⟨s',ran,inv⟩ := runOpsInv fs ops
  cases Option.some.inj (reached.symm.trans ran)
  obtain ⟨t,r,result,outcome⟩ := searchdirOutcome inv path
  cases Option.some.inj (found.symm.trans result)
  obtain ⟨slot,inode,rfl,searched⟩ := outcome
  obtain ⟨names,spine⟩ := spineOfRealpath found searched wrote
  obtain ⟨s2,dst2,prints,closed,text'⟩ := realpathPrints bufsize dst found searched spine
  cases Option.some.inj (wrote.symm.trans prints)
  have here : At (fun _ d => d.obj = obj ∧ Settled fs d) s₁.inodes inode := by
    obtain ⟨m,mem,same,objs⟩ := (objOfSearched searched).mp object
    have file : some ⟨some inode,0⟩ ∈ s₁.files := List.mem_of_getElem? (searchedFile searched)
    obtain ⟨k,inside,same',settled⟩ := searched.inv.opened _ inode file rfl
    have unique := Refcount.sameNode searched.inv.balanced.linked inside mem (same'.trans same.symm)
    subst unique
    exact ⟨k,inside,same,objs,settled⟩
  have leads := leadsOfSpine functional searched.inv.balanced.linked spine here
  have text'' := text' room fits (leadsNamed leads)
  refine ⟨?_,?_⟩
  · have slots : none ∈ s₂.files := by
      obtain ⟨small,_⟩ := List.getElem?_eq_some_iff.mp searched.free
      rw [closed.files,searched.files,List.set_set]
      exact List.mem_set small none
    intro full
    have taken := List.findIdx?_eq_none_iff.mp full none slots
    cases taken
  · intro more s3 later free memory
    have steps (s s' : State Obj) (op : Op) (inv : Inv fs s) (one : step fs s op = some s') : Inv fs s' := by
      obtain ⟨t,same,inv',_⟩ := stepInv inv op
      cases Option.some.inj (one.symm.trans same)
      exact inv'
    have inv3 := Runs.runInvariant (fun s op s' inv one => steps s s' op inv one) closed.inv later
    rw [text'']
    exact resolvesPrinted inv3 functional leads free memory

end

/- Directory 1 is called a and holds file 2, called b; l is a link that says "a/../a". -/
def sampleFs : Fs Nat where
  rootObj := 0
  rootMode := .dir
  rootSize := 0
  iget := fun _ name obj =>
    if name = [97] ∧ obj = 0 then some (1,.dir,0)
    else if name = [98] ∧ obj = 1 then some (2,.reg,0)
    else if name = [108] ∧ obj = 0 then some (3,.lnk,6)
    else none
  readlink := some (fun _ _ => [97,47,46,46,47,97])
  memory := fun _ _ => true
  place := fun _ live => live.foldr max 0 + 1
  slack := fun _ => []
  fresh := by
    intro _ live mem
    have small (l : List Nat) (a : Nat) (inside : a ∈ l) : a ≤ l.foldr max 0 := by
      induction l with
      | nil => cases inside
      | cons b l ih =>
        rcases List.mem_cons.mp inside with rfl | rest
        · exact Nat.le_max_left _ _
        · exact Nat.le_trans (ih rest) (Nat.le_max_right _ _)
    have le := small live _ mem
    omega

theorem sampleFunctional : Functional sampleFs (sampleFs.iget 0) :=
  ⟨fun _ _ _ => rfl,fun _ => by simp [sampleFs]⟩

/- From directory a, the path "..//l/b" is "/a/b". -/
theorem realpathResolvesSample : ∃ s s₂ dst',runOps sampleFs [.chdir [97]] = some s ∧
    realpath sampleFs s (List.replicate 8 0) [46,46,47,47,108,47,98] 8 = some (s₂,dst',some 4) ∧
    cstr dst' = [47,97,47,98] ∧ Resolves sampleFs s₂ [47,97,47,98] 2 := by
  refine ⟨_,_,_,rfl,rfl,rfl,?_⟩
  have both := @realpathResolves Nat sampleFs _ [.chdir [97]] _ _ _ [46,46,47,47,108,47,98] (List.replicate 8 0) _ 1 8 4 2
    sampleFunctional rfl rfl rfl rfl (by decide) (by decide)
  exact both.2 [] _ rfl both.1 (fun _ _ _ => rfl)

end Syslinux.Searchdir
