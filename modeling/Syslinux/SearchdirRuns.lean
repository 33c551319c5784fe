import Syslinux.Searchdir
import Syslinux.Runs

/-! Every reference that a lookup takes is dropped again or handed to the open file, on each of its ways out. -/
namespace Syslinux.Searchdir
open Refcount (Node Heap find acquire release attach addrs children pending bare Balanced Grown At Moved)

section
variable {Obj : Type}

def fileHolders (files : List (Option File)) : Multiset Nat :=
  (files.map (fun file => pending (file.bind File.inode))).sum

def holders (s : State Obj) : Multiset Nat :=
  s.root ::ₘ s.cwd ::ₘ fileHolders s.files

structure Component (name : Bytes) : Prop where
  plain : ∀ c ∈ name,c ≠ 0 ∧ c ≠ slash
  notDot : name ≠ [dot]
  notDotdot : name ≠ [dot,dot]

def Rootlike (fs : Fs Obj) (d : Inode Obj) : Prop :=
  d.obj = fs.rootObj ∧ d.mode = fs.rootMode ∧ d.size = fs.rootSize ∧ d.name = none

def Walkable (fs : Fs Obj) (d : Inode Obj) : Prop :=
  d.mode = .dir ∨ Rootlike fs d

def Settled (fs : Fs Obj) (d : Inode Obj) : Prop :=
  d.mode ≠ .lnk ∨ Rootlike fs d

structure Entered (fs : Fs Obj) (parent d : Inode Obj) : Prop where
  through : Walkable fs parent
  named : ∃ name tick,Component name ∧ fs.iget tick name parent.obj = some (d.obj,d.mode,d.size) ∧
    ∀ copy,d.name = some copy → copy = name

def Edge (fs : Fs Obj) : Option (Inode Obj) → Inode Obj → Prop
  | none,d => Rootlike fs d
  | some parent,d => Entered fs parent d

/- A lookup has borrowed the state: it may hold references of its own, and only the inodes change. -/
structure Lent (fs : Fs Obj) (s₀ s : State Obj) (H : Multiset Nat) : Prop where
  grown : Grown (Edge fs) s₀.inodes s.inodes H
  root : s.root = s₀.root
  cwd : s.cwd = s₀.cwd
  files : s.files = s₀.files

structure Inv (fs : Fs Obj) (s : State Obj) : Prop where
  balanced : Balanced (Edge fs) s.inodes (holders s)
  root : At (fun parent _ => parent = none) s.inodes s.root
  cwd : At (fun _ d => Walkable fs d) s.inodes s.cwd
  opened : ∀ file inode,some file ∈ s.files → file.inode = some inode →
    At (fun _ d => Settled fs d) s.inodes inode

theorem walkableSettled {fs : Fs Obj} {d : Inode Obj} (walkable : Walkable fs d) : Settled fs d := by
  rcases walkable with dir | root
  · exact .inl (by rw [dir]; decide)
  · exact .inr root

theorem getLent {fs : Fs Obj} {s₀ s : State Obj} {H : Multiset Nat} {inode : Nat} (lent : Lent fs s₀ s H)
    (live : inode ∈ addrs s.inodes) :
    ∃ s',getInode s inode = some s' ∧ bare s'.inodes = bare s.inodes ∧ Lent fs s₀ s' (inode ::ₘ H) := by
  obtain ⟨h,taken,same,grown⟩ := Refcount.acquireGrown lent.grown live
  refine ⟨{ s with inodes := h },?_,same,⟨grown,lent.root,lent.cwd,lent.files⟩⟩
  simp [getInode,taken]

theorem putLent {fs : Fs Obj} {s₀ s : State Obj} {H : Multiset Nat} {o : Option Nat}
    (base : Balanced (Edge fs) s₀.inodes (holders s₀)) (le : holders s₀ ≤ H) (lent : Lent fs s₀ s (pending o + H)) :
    ∃ s',putInode s o = some s' ∧ (bare s'.inodes).Sublist (bare s.inodes) ∧ Lent fs s₀ s' H := by
  obtain ⟨h,dropped,sub,grown⟩ := Refcount.releaseGrown base le (Nat.le_refl _) lent.grown
  refine ⟨{ s with inodes := h },?_,sub,⟨grown,lent.root,lent.cwd,lent.files⟩⟩
  simp [putInode,dropped]

theorem lentBack {fs : Fs Obj} {s₀ s : State Obj} (base : Balanced (Edge fs) s₀.inodes (holders s₀))
    (lent : Lent fs s₀ s (holders s₀)) : s = { s₀ with clock := s.clock } := by
  have inodes := Refcount.grownBack base lent.grown
  have root := lent.root
  have cwd := lent.cwd
  have files := lent.files
  cases s
  cases s₀
  simp_all

theorem strchrPlain (buf : Bytes) : ∀ c ∈ (strchr buf).1,c ≠ 0 ∧ c ≠ slash := by
  induction buf with
  | nil => simp [strchr]
  | cons b buf ih =>
    unfold strchr
    split
    · simp
    · rename_i notNul
      split
      · simp
      · rename_i notSlash
        intro c mem
        rcases List.mem_cons.mp mem with rfl | rest
        · exact ⟨notNul,notSlash⟩
        · exact ih c rest

theorem strchrShort (buf rest : Bytes) (found : (strchr buf).2 = some rest) : rest.length < buf.length := by
  induction buf with
  | nil => simp [strchr] at found
  | cons b buf ih =>
    unfold strchr at found
    split at found
    · simp at found
    · split at found
      · cases Option.some.inj found
        simp
      · have shorter := ih found
        simp only [List.length_cons]
        omega

theorem skipShort {buf next : Bytes} (found : skipSlashes buf = some next) : next.length ≤ buf.length := by
  unfold skipSlashes at found
  have fewer := (List.dropWhile_sublist (fun c => decide (c = slash)) (l := buf)).length_le
  split at found
  · cases found
  · rename_i c rest eq
    split at found
    · cases found
    · cases Option.some.inj found
      rwa [eq] at fewer

theorem componentRoot (buf : Bytes) : component (slash::buf) = ([slash],skipSlashes buf) := by
  simp [component]

theorem componentName {c : UInt8} (buf : Bytes) (notSlash : c ≠ slash) :
    component (c::buf) = (if c = 0 then [] else c::(strchr buf).1,(strchr buf).2.bind skipSlashes) := by
  simp [component,notSlash]

theorem componentShort {buf next : Bytes} (found : (component buf).2 = some next) : next.length < buf.length := by
  cases buf with
  | nil => simp [component] at found
  | cons c buf =>
    simp only [List.length_cons]
    by_cases root : c = slash
    · rw [root,componentRoot] at found
      have fewer := skipShort found
      omega
    · rw [componentName buf root] at found
      obtain ⟨rest,behind,skipped⟩ := Option.bind_eq_some_iff.mp found
      have shorter := strchrShort buf rest behind
      have fewer := skipShort skipped
      omega

theorem componentPlain {buf : Bytes} (notRoot : (component buf).1.head? ≠ some slash) :
    ∀ c ∈ (component buf).1,c ≠ 0 ∧ c ≠ slash := by
  cases buf with
  | nil => simp [component]
  | cons b buf =>
    by_cases root : b = slash
    · rw [root,componentRoot] at notRoot
      simp at notRoot
    · rw [componentName buf root]
      by_cases nul : b = 0
      · simp [nul]
      · intro c mem
        simp only [if_neg nul] at mem
        rcases List.mem_cons.mp mem with rfl | rest
        · exact ⟨nul,root⟩
        · exact strchrPlain buf c rest

/- The lookup holds one inode, of the given kind, over what it has borrowed. -/
structure Carried (fs : Fs Obj) (P : Inode Obj → Prop) (s₀ s : State Obj) (inode : Nat) : Prop where
  lent : Lent fs s₀ s (inode ::ₘ holders s₀)
  here : At (fun _ d => P d) s.inodes inode

theorem carriedPut {fs : Fs Obj} {P : Inode Obj → Prop} {s₀ s : State Obj} {inode : Nat}
    (base : Balanced (Edge fs) s₀.inodes (holders s₀)) (carried : Carried fs P s₀ s inode) :
    ∃ s',putInode s (some inode) = some s' ∧ Lent fs s₀ s' (holders s₀) := by
  have owned : Lent fs s₀ s (pending (some inode) + holders s₀) := by
    simpa only [pending,Multiset.singleton_add] using carried.lent
  obtain ⟨s',put,_,lent⟩ := putLent base (le_refl _) owned
  exact ⟨s',put,lent⟩

theorem carriedTick {fs : Fs Obj} {P : Inode Obj → Prop} {s₀ s : State Obj} {inode : Nat}
    (carried : Carried fs P s₀ s inode) : Carried fs P s₀ (tick s) inode :=
  ⟨⟨carried.lent.grown,carried.lent.root,carried.lent.cwd,carried.lent.files⟩,carried.here⟩

theorem carriedClimb {fs : Fs Obj} {P Q : Inode Obj → Prop} {s₀ s : State Obj} {inode parent : Nat}
    (base : Balanced (Edge fs) s₀.inodes (holders s₀)) (carried : Carried fs P s₀ s inode)
    (up : At (fun _ d => Q d) s.inodes parent) :
    ∃ s',climb s inode parent = some s' ∧ Carried fs Q s₀ s' parent := by
  have live : parent ∈ addrs s.inodes := by
    obtain ⟨q,mem,rfl,_⟩ := up
    exact Refcount.memAddrs mem
  obtain ⟨s1,got,same,lent⟩ := getLent carried.lent live
  have owned : Lent fs s₀ s1 (pending (some inode) + parent ::ₘ holders s₀) := by
    rw [pending,Multiset.singleton_add,Multiset.cons_swap]
    exact lent
  obtain ⟨s2,put,sub,rest⟩ := putLent base (Multiset.le_cons_self _ _) owned
  refine ⟨s2,by simp [climb,got,put],rest,?_⟩
  have alive := rest.grown.balanced.held parent (Multiset.mem_cons_self _ _)
  have before : At (fun _ d => Q d) s1.inodes parent := Refcount.atUp (by rw [same]) up
  exact Refcount.atDown owned.grown.balanced.linked sub alive before

theorem carriedRoot {fs : Fs Obj} {P : Inode Obj → Prop} {s₀ s : State Obj} {inode : Nat} (inv : Inv fs s₀)
    (carried : Carried fs P s₀ s inode) :
    ∃ s1 s2,putInode s (some inode) = some s1 ∧ getInode s1 s1.root = some s2 ∧ s1.root = s2.root ∧
      Carried fs (Rootlike fs) s₀ s2 s2.root := by
  obtain ⟨s1,put,lent⟩ := carriedPut inv.balanced carried
  have top : At (fun parent _ => parent = none) s1.inodes s1.root := by
    rw [lent.root]
    exact Refcount.atUp lent.grown.kept.sublist inv.root
  obtain ⟨n,mem,same,none'⟩ := top
  obtain ⟨s2,got,bares,lent2⟩ := getLent lent (same ▸ Refcount.memAddrs mem)
  have roots : s1.root = s2.root := by rw [lent.root,lent2.root]
  refine ⟨s1,s2,put,got,roots,roots ▸ lent2,?_⟩
  have kind := Refcount.rootRelated lent.grown.balanced.linked mem none'
  rw [← roots]
  exact Refcount.atUp (by rw [bares]) ⟨n,mem,same,kind⟩

theorem carriedEnter {fs : Fs Obj} {s₀ s : State Obj} {parent : Nat} {q : Node Nat (Inode Obj)} {name : Bytes}
    {found : Obj × Mode × Nat} {tick' : Nat} (carried : Carried fs (Walkable fs) s₀ s parent)
    (node : find s.inodes parent = some q) (plain : Component name)
    (got : fs.iget tick' name q.data.obj = some found) :
    Carried fs (fun d => d.mode = found.2.1) s₀ (enter fs s parent name found).1 (enter fs s parent name found).2 ∧
      At (fun _ d => Walkable fs d) (enter fs s parent name found).1.inodes parent := by
  obtain ⟨mem,here⟩ := Refcount.findSome node
  subst here
  have walkable : Walkable fs q.data := by
    obtain ⟨n,inside,same,kind⟩ := carried.here
    have unique := Refcount.sameNode carried.lent.grown.balanced.linked inside mem same
    subst unique
    exact kind
  have entered : Entered fs q.data ⟨found.1,found.2.1,found.2.2,
      if fs.memory s.clock (int32 (name.length + 1)) then some name else none⟩ := by
    refine ⟨walkable,name,tick',plain,got,?_⟩
    intro copy eq
    by_cases enough : fs.memory s.clock (int32 (name.length + 1))
    · simpa [enough] using eq.symm
    · simp [enough] at eq
  have grown := Refcount.attachGrown carried.lent.grown (fs.fresh s.clock (addrs s.inodes)) mem
    (R := Edge fs) entered
  refine ⟨⟨⟨grown,carried.lent.root,carried.lent.cwd,carried.lent.files⟩,?_⟩,?_⟩
  · exact ⟨_,List.mem_cons_self,rfl,rfl⟩
  · exact ⟨q,List.mem_cons_of_mem _ mem,rfl,walkable⟩

/- What a turn leaves behind: nothing when it fails, else one inode; the path gets shorter or a symlink is used up. -/
def Turned (fs : Fs Obj) (s₀ : State Obj) (count : Nat) (buf : Bytes) : Turn Obj → Prop
  | .fail s => Lent fs s₀ s (holders s₀)
  | .on s inode none => Carried fs (Settled fs) s₀ s inode
  | .on s inode (some next) => Carried fs (Walkable fs) s₀ s inode ∧ next.length < buf.length
  | .follow s inode _ => Carried fs (Walkable fs) s₀ s inode ∧ count - 1 ≠ 0

theorem carriedAs {fs : Fs Obj} {P Q : Inode Obj → Prop} {s₀ s : State Obj} {inode : Nat}
    (carried : Carried fs P s₀ s inode) (imp : ∀ d,P d → Q d) : Carried fs Q s₀ s inode := by
  obtain ⟨n,mem,same,holds⟩ := carried.here
  exact ⟨carried.lent,n,mem,same,imp _ holds⟩

theorem turnedOn {fs : Fs Obj} {s₀ s : State Obj} {count : Nat} {buf : Bytes} {inode : Nat}
    (carried : Carried fs (Walkable fs) s₀ s inode) :
    Turned fs s₀ count buf (.on s inode (component buf).2) := by
  cases next : (component buf).2 with
  | none => exact carriedAs carried (fun _ => walkableSettled)
  | some rest => exact ⟨carried,componentShort next⟩

theorem putFails {fs : Fs Obj} {P : Inode Obj → Prop} {s₀ s : State Obj} {count : Nat} {buf : Bytes} {inode : Nat}
    (base : Balanced (Edge fs) s₀.inodes (holders s₀)) (carried : Carried fs P s₀ s inode) :
    ∃ t,(do
      let s ← putInode s (some inode)
      some (Turn.fail s)) = some t ∧ Turned fs s₀ count buf t := by
  obtain ⟨s',put,lent⟩ := carriedPut base carried
  exact ⟨.fail s',by simp [put],lent⟩

theorem symlinkTurned {fs : Fs Obj} {P : Inode Obj → Prop} {s₀ s : State Obj} {count : Nat} {buf : Bytes}
    {inode parent : Nat} {obj : Obj} {size : Nat} {next : Option Bytes}
    (base : Balanced (Edge fs) s₀.inodes (holders s₀)) (carried : Carried fs P s₀ s inode)
    (up : At (fun _ d => Walkable fs d) s.inodes parent) :
    ∃ t,symlink fs count s inode parent obj size next = some t ∧ Turned fs s₀ count buf t := by
  unfold symlink
  cases fs.readlink with
  | none => exact putFails base carried
  | some readlink =>
    by_cases limits : count - 1 = 0 ∨ maxSymlinkBuf < newLen size next
    · simp only [if_pos limits]
      exact putFails base carried
    · by_cases memory : fs.memory s.clock (newLen size next) = false
      · simp only [if_neg limits,if_pos memory]
        exact putFails base (carriedTick carried)
      · by_cases empty : readlink s.clock obj = []
        · simp only [if_neg limits,if_neg memory,if_pos empty]
          exact putFails base (carriedTick carried)
        · simp only [if_neg limits,if_neg memory,if_neg empty]
          obtain ⟨s',climbed,kept⟩ := carriedClimb base (carriedTick carried) up
          refine ⟨.follow s' parent (newPath fs s.clock (readlink s.clock obj) next),by simp [climbed],kept,?_⟩
          exact fun last => limits (.inl last)

theorem turnTurned {fs : Fs Obj} {s₀ s : State Obj} {inode : Nat} (count : Nat) (buf : Bytes) (inv : Inv fs s₀)
    (carried : Carried fs (Walkable fs) s₀ s inode) :
    ∃ t,turn fs count s inode buf = some t ∧ Turned fs s₀ count buf t := by
  have live := carried.lent.grown.balanced.held inode (Multiset.mem_cons_self _ _)
  obtain ⟨node,found⟩ := Refcount.findLive live
  obtain ⟨mem,same⟩ := Refcount.findSome found
  unfold turn
  by_cases root : (component buf).1.head? = some slash
  · simp only [if_pos root]
    obtain ⟨s1,s2,put,got,roots,kept⟩ := carriedRoot inv carried
    have up := carriedAs kept (fun _ r => (Or.inr r : Walkable fs _))
    exact ⟨.on s2 s2.root (component buf).2,by simp [put,got],turnedOn up⟩
  · by_cases isDot : (component buf).1 = [dot]
    · simp only [if_neg root,if_pos isDot]
      exact ⟨_,rfl,turnedOn carried⟩
    · by_cases isDotdot : (component buf).1 = [dot,dot]
      · simp only [if_neg root,if_neg isDot,if_pos isDotdot,found,bind,Option.bind]
        cases up : node.parent with
        | none => exact ⟨_,rfl,turnedOn carried⟩
        | some parent =>
          obtain ⟨q,inside,here,edge⟩ := Refcount.parentLive carried.lent.grown.balanced.linked mem up
          have entered : Entered fs q.data node.data := edge
          have above : At (fun _ d => Walkable fs d) s.inodes parent := ⟨q,inside,here,entered.through⟩
          obtain ⟨s',climbed,kept⟩ := carriedClimb inv.balanced carried above
          exact ⟨.on s' parent (component buf).2,by simp only [climbed],turnedOn kept⟩
      · simp only [if_neg root,if_neg isDot,if_neg isDotdot,found,bind,Option.bind]
        cases got : fs.iget s.clock (component buf).1 node.data.obj with
        | none => exact putFails inv.balanced (carriedTick carried)
        | some entry =>
          have plain : Component (component buf).1 := ⟨componentPlain root,isDot,isDotdot⟩
          obtain ⟨kept,above⟩ := carriedEnter (s := tick s) (carriedTick carried) found plain got
          by_cases link : entry.2.1 = .lnk
          · simp only [if_pos link]
            exact symlinkTurned inv.balanced kept above
          · by_cases file : (component buf).2 ≠ none ∧ entry.2.1 ≠ .dir
            · simp only [if_neg link,if_pos file]
              exact putFails inv.balanced kept
            · simp only [if_neg link,if_neg file]
              refine ⟨_,rfl,?_⟩
              cases next : (component buf).2 with
              | none =>
                exact carriedAs kept (fun d eq => .inl (by rwa [eq]))
              | some rest =>
                have dir : entry.2.1 = .dir := by
                  by_contra other
                  exact file ⟨by simp [next],other⟩
                exact ⟨carriedAs kept (fun d eq => .inl (eq.trans dir)),componentShort next⟩

def Walked (fs : Fs Obj) (s₀ s : State Obj) : Option Nat → Prop
  | none => Lent fs s₀ s (holders s₀)
  | some inode => Carried fs (Settled fs) s₀ s inode

theorem passWalked {fs : Fs Obj} {s₀ s : State Obj} {count inode turns : Nat} {buf : Bytes}
    {restart : State Obj → Nat → Bytes → Option (State Obj × Option Nat)} (inv : Inv fs s₀)
    (again : count - 1 ≠ 0 → ∀ s inode path,Carried fs (Walkable fs) s₀ s inode →
      ∃ s' r,restart s inode path = some (s',r) ∧ Walked fs s₀ s' r)
    (carried : Carried fs (Walkable fs) s₀ s inode) (enough : buf.length < turns) :
    ∃ s' r,pass fs count restart turns s inode buf = some (s',r) ∧ Walked fs s₀ s' r := by
  induction turns generalizing s inode buf with
  | zero => omega
  | succ turns ih =>
    obtain ⟨t,taken,left⟩ := turnTurned count buf inv carried
    unfold pass
    rw [taken]
    cases t with
    | fail s' => exact ⟨s',none,rfl,left⟩
    | on s' inode' next =>
      cases next with
      | none => exact ⟨s',some inode',rfl,left⟩
      | some rest => exact ih left.1 (by have := left.2; omega)
    | follow s' inode' path => exact again left.2 s' inode' path left.1

theorem walkWalked {fs : Fs Obj} {s₀ s : State Obj} {count inode : Nat} (buf : Bytes) (inv : Inv fs s₀)
    (some' : count ≠ 0) (carried : Carried fs (Walkable fs) s₀ s inode) :
    ∃ s' r,walk fs count s inode buf = some (s',r) ∧ Walked fs s₀ s' r := by
  induction count generalizing s inode buf with
  | zero => exact absurd rfl some'
  | succ count ih =>
    unfold walk
    refine passWalked inv ?_ carried (Nat.lt_succ_self _)
    intro more s inode path kept
    exact ih path (by omega) kept

theorem fileHoldersSet {files : List (Option File)} {slot : Nat} {old : Option File} (new : Option File)
    (here : files[slot]? = some old) : fileHolders (files.set slot new) + pending (old.bind File.inode) =
      fileHolders files + pending (new.bind File.inode) := by
  induction files generalizing slot with
  | nil => simp at here
  | cons file files ih =>
    cases slot with
    | zero =>
      cases Option.some.inj here
      simp only [fileHolders,List.set_cons_zero,List.map_cons,List.sum_cons]
      abel
    | succ slot =>
      have tail := ih here
      simp only [fileHolders,List.set_cons_succ,List.map_cons,List.sum_cons] at tail ⊢
      rw [add_assoc,tail,add_assoc]

theorem allocFileFree {files : List (Option File)} {slot : Nat} (free : allocFile files = some slot) :
    files[slot]? = some none := by
  obtain ⟨small,isNone,_⟩ := List.findIdx?_eq_some_iff_getElem.mp free
  rw [List.getElem?_eq_getElem small,Option.isNone_iff_eq_none.mp isNone]

theorem memSet {files : List (Option File)} {slot : Nat} {new file : Option File} (mem : file ∈ files.set slot new) :
    file = new ∨ file ∈ files := by
  rcases List.mem_or_eq_of_mem_set mem with old | eq
  · exact .inr old
  · exact .inl eq

theorem invFiles {fs : Fs Obj} {s : State Obj} {files : List (Option File)} (inv : Inv fs s)
    (same : fileHolders files = fileHolders s.files)
    (old : ∀ file inode,some file ∈ files → file.inode = some inode → some file ∈ s.files) :
    Inv fs { s with files := files } := by
  refine ⟨?_,inv.root,inv.cwd,fun file inode mem held => inv.opened file inode (old file inode mem held) held⟩
  have holdersSame : holders { s with files := files } = holders s := by simp only [holders,same]
  rw [holdersSame]
  exact inv.balanced

/- searchdir either leaves everything but the clock alone or opens one file on what was found. -/
structure Searched (fs : Fs Obj) (s s' : State Obj) (slot inode : Nat) : Prop where
  inv : Inv fs s'
  kept : bare s.inodes <:+ bare s'.inodes
  root : s'.root = s.root
  cwd : s'.cwd = s.cwd
  free : s.files[slot]? = some none
  files : s'.files = s.files.set slot (some ⟨some inode,0⟩)

def Outcome (fs : Fs Obj) (s s' : State Obj) : Option Nat → Prop
  | none => s' = { s with clock := s'.clock }
  | some handle => ∃ slot inode,handle = slot + 1 ∧ Searched fs s s' slot inode

theorem reserveInv {fs : Fs Obj} {s : State Obj} {slot : Nat} (inv : Inv fs s) (free : s.files[slot]? = some none) :
    Inv fs { s with files := s.files.set slot (some ⟨none,0⟩) } := by
  refine invFiles inv ?_ ?_
  · have moved := fileHoldersSet (some ⟨none,0⟩) free
    simpa [pending] using moved
  · intro file inode mem held
    rcases memSet mem with eq | old
    · cases Option.some.inj eq
      cases held
    · exact old

theorem closeReserved {s : State Obj} {slot : Nat} {files : List (Option File)} (free : files[slot]? = some none)
    (reserved : s.files = files.set slot (some ⟨none,0⟩)) :
    closeSlot s slot = some { s with files := files } := by
  obtain ⟨small,here⟩ := List.getElem?_eq_some_iff.mp free
  have now : s.files[slot]? = some (some ⟨none,0⟩) := by
    rw [reserved,List.getElem?_set_self small]
  have back : s.files.set slot none = files := by
    rw [reserved,List.set_set,← here,List.set_getElem_self]
  simp [closeSlot,now,back,putInode,release]

theorem carriedCwd {fs : Fs Obj} {s : State Obj} (inv : Inv fs s) :
    ∃ s',getInode (tick s) s.cwd = some s' ∧ Carried fs (Walkable fs) s s' s.cwd := by
  have lent : Lent fs s (tick s) (holders s) := ⟨⟨inv.balanced,List.suffix_rfl⟩,rfl,rfl,rfl⟩
  have live : s.cwd ∈ addrs s.inodes :=
    inv.balanced.held s.cwd (Multiset.mem_cons_of_mem (Multiset.mem_cons_self _ _))
  obtain ⟨s',got,same,lent'⟩ := getLent lent live
  exact ⟨s',got,lent',Refcount.atUp (by rw [same]; rfl) inv.cwd⟩

theorem searchedOpen {fs : Fs Obj} {s s₂ : State Obj} {slot inode : Nat} (inv : Inv fs s)
    (free : s.files[slot]? = some none)
    (carried : Carried fs (Settled fs) { s with files := s.files.set slot (some ⟨none,0⟩) } s₂ inode) :
    Searched fs s { s₂ with files := s₂.files.set slot (some ⟨some inode,0⟩) } slot inode := by
  have files : s₂.files.set slot (some ⟨some inode,0⟩) = s.files.set slot (some ⟨some inode,0⟩) := by
    rw [carried.lent.files,List.set_set]
  have up := carried.lent.grown.kept.sublist
  have held := fileHoldersSet (some ⟨some inode,0⟩) free
  have reserved := fileHoldersSet (some ⟨none,0⟩) free
  refine ⟨⟨?_,?_,?_,?_⟩,carried.lent.grown.kept,carried.lent.root,carried.lent.cwd,free,files⟩
  · have now : holders { s₂ with files := s₂.files.set slot (some ⟨some inode,0⟩) } =
        inode ::ₘ holders { s with files := s.files.set slot (some ⟨none,0⟩) } := by
      simp only [Option.bind_none,Option.bind_some,pending,add_zero] at held reserved
      simp only [holders,files,carried.lent.root,carried.lent.cwd,held,reserved]
      rw [add_comm,Multiset.singleton_add,Multiset.cons_swap s.cwd,Multiset.cons_swap s.root]
    rw [now]
    exact carried.lent.grown.balanced
  · have roots := carried.lent.root
    simp only [roots]
    exact Refcount.atUp up inv.root
  · have cwds := carried.lent.cwd
    simp only [cwds]
    exact Refcount.atUp up inv.cwd
  · intro file i mem eq
    simp only [files] at mem
    rcases memSet mem with new | old
    · cases Option.some.inj new
      cases Option.some.inj eq
      exact carried.here
    · exact Refcount.atUp up (inv.opened file i old eq)

theorem searchdirOutcome {fs : Fs Obj} {s : State Obj} (inv : Inv fs s) (name : Bytes) :
    ∃ s' r,searchdir fs s name = some (s',r) ∧ Outcome fs s s' r := by
  unfold searchdir
  cases slots : allocFile s.files with
  | none => exact ⟨s,none,rfl,rfl⟩
  | some slot =>
    have free := allocFileFree slots
    have reserved := reserveInv inv free
    by_cases memory : fs.memory s.clock (int32 ((cstr name).length + 1)) = false
    · simp only [if_pos memory]
      rw [closeReserved free rfl]
      exact ⟨_,none,rfl,rfl⟩
    · simp only [if_neg memory]
      obtain ⟨s1,got,carried⟩ := carriedCwd reserved
      have some' : maxSymlinkCnt ≠ 0 := by decide
      obtain ⟨s2,r,walked,left⟩ := walkWalked (cstr name ++ 0 :: fs.slack s.clock) reserved some' carried
      have got' : getInode (tick { s with files := s.files.set slot (some ⟨none,0⟩) }) s.cwd = some s1 := got
      have walked' : walk fs maxSymlinkCnt s1 s.cwd (cstr name ++ 0 :: fs.slack s.clock) = some (s2,r) := walked
      rw [got']
      simp only [bind,Option.bind,walked']
      cases r with
      | none =>
        have back := lentBack reserved.balanced left
        have files : s2.files = s.files.set slot (some ⟨none,0⟩) := by rw [back]
        have closed := closeReserved free files
        refine ⟨{ s2 with files := s.files },none,by simp only [closed],?_⟩
        rw [back]
        rfl
      | some inode =>
        exact ⟨_,_,rfl,slot,inode,rfl,searchedOpen inv free left⟩

theorem memFileHolders {files : List (Option File)} {file : File} {inode : Nat} (mem : some file ∈ files)
    (held : file.inode = some inode) : inode ∈ fileHolders files := by
  induction files with
  | nil => cases mem
  | cons first files ih =>
    simp only [fileHolders,List.map_cons,List.sum_cons,Multiset.mem_add]
    rcases List.mem_cons.mp mem with rfl | rest
    · exact .inl (by simp [held,pending])
    · exact .inr (ih rest)

theorem invDown {fs : Fs Obj} {s s' : State Obj} (inv : Inv fs s)
    (balanced : Balanced (Edge fs) s'.inodes (holders s')) (sub : (bare s'.inodes).Sublist (bare s.inodes))
    (root : s'.root = s.root) (cwd : At (fun _ d => Walkable fs d) s.inodes s'.cwd)
    (files : ∀ file,some file ∈ s'.files → some file ∈ s.files) : Inv fs s' := by
  have linked := inv.balanced.linked
  refine ⟨balanced,?_,?_,?_⟩
  · have live := balanced.held s'.root (Multiset.mem_cons_self _ _)
    exact Refcount.atDown linked sub live (root ▸ inv.root)
  · have live := balanced.held s'.cwd (Multiset.mem_cons_of_mem (Multiset.mem_cons_self _ _))
    exact Refcount.atDown linked sub live cwd
  · intro file inode mem held
    have among := memFileHolders mem held
    have live := balanced.held inode (Multiset.mem_cons_of_mem (Multiset.mem_cons_of_mem among))
    exact Refcount.atDown linked sub live (inv.opened file inode (files file mem) held)

structure Closed (fs : Fs Obj) (s s' : State Obj) (slot : Nat) : Prop where
  inv : Inv fs s'
  sub : (bare s'.inodes).Sublist (bare s.inodes)
  root : s'.root = s.root
  cwd : s'.cwd = s.cwd
  files : s'.files = s.files.set slot none

theorem closeClosed {fs : Fs Obj} {s : State Obj} (inv : Inv fs s) (slot : Nat) :
    ∃ s',closeSlot s slot = some s' ∧ Closed fs s s' slot := by
  have older (file : File) (mem : some file ∈ s.files.set slot none) : some file ∈ s.files := by
    rcases memSet mem with new | old
    · cases new
    · exact old
  cases here : s.files[slot]? with
  | none =>
    have same : s.files.set slot none = s.files := by
      rw [List.set_eq_of_length_le (List.getElem?_eq_none_iff.mp here)]
    exact ⟨s,by simp [closeSlot,here,same],inv,List.Sublist.refl _,rfl,rfl,same.symm⟩
  | some old =>
    have moved := fileHoldersSet none here
    have held : holders s = pending (old.bind File.inode) + holders { s with files := s.files.set slot none } := by
      simp only [Option.bind_none,pending,add_zero] at moved
      simp only [holders,← moved]
      rw [← Multiset.singleton_add,← Multiset.singleton_add,← Multiset.singleton_add s.root,
        ← Multiset.singleton_add s.cwd (fileHolders _)]
      abel
    have balanced := inv.balanced
    rw [held] at balanced
    obtain ⟨h,dropped,sub,rest⟩ := Refcount.releaseBalanced balanced
    refine ⟨{ s with inodes := h,files := s.files.set slot none },?_,?_⟩
    · cases old with
      | none =>
        have same : h = s.inodes := by simpa [release] using dropped.symm
        simp [closeSlot,here,same]
      | some file =>
        have put : putInode s file.inode = some { s with inodes := h } := by
          simp only [Option.bind_some] at dropped
          simp [putInode,dropped]
        simp [closeSlot,here,put]
    · have inv' : Inv fs { s with inodes := h,files := s.files.set slot none } :=
        invDown inv rest sub rfl inv.cwd older
      exact ⟨inv',sub,rfl,rfl,rfl⟩

theorem invClock {fs : Fs Obj} {s : State Obj} (inv : Inv fs s) (clock : Nat) : Inv fs { s with clock := clock } :=
  ⟨inv.balanced,inv.root,inv.cwd,inv.opened⟩

theorem movedClosed {fs : Fs Obj} {s s₁ s₂ : State Obj} (kept : bare s.inodes <:+ bare s₁.inodes) (inv : Inv fs s₁)
    (sub : (bare s₂.inodes).Sublist (bare s₁.inodes)) : Moved (Edge fs) s.inodes s₂.inodes :=
  ⟨s₁.inodes,inv.balanced.linked,kept,sub⟩

theorem searchdirInv {fs : Fs Obj} {s : State Obj} (inv : Inv fs s) (name : Bytes) :
    ∃ s' r,searchdir fs s name = some (s',r) ∧ Outcome fs s s' r ∧ Inv fs s' ∧ Moved (Edge fs) s.inodes s'.inodes := by
  obtain ⟨s',r,result,outcome⟩ := searchdirOutcome inv name
  refine ⟨s',r,result,outcome,?_⟩
  cases r with
  | none =>
    have same : s' = { s with clock := s'.clock } := outcome
    rw [same]
    exact ⟨invClock inv _,movedClosed List.suffix_rfl inv (List.Sublist.refl _)⟩
  | some handle =>
    obtain ⟨slot,inode,_,searched⟩ := outcome
    exact ⟨searched.inv,movedClosed searched.kept searched.inv (List.Sublist.refl _)⟩

theorem cwdInv {fs : Fs Obj} {s : State Obj} {file : File} {inode : Nat} (inv : Inv fs s) (mem : some file ∈ s.files)
    (held : file.inode = some inode) (dir : At (fun _ d => Walkable fs d) s.inodes inode) :
    ∃ s₁ s₂,putInode s (some s.cwd) = some s₁ ∧ getInode s₁ inode = some s₂ ∧ Inv fs { s₂ with cwd := inode } ∧
      s₂.files = s.files ∧ (bare s₂.inodes).Sublist (bare s.inodes) := by
  have balanced := inv.balanced
  have split : holders s = pending (some s.cwd) + (s.root ::ₘ fileHolders s.files) := by
    simp only [holders,pending,Multiset.singleton_add]
    exact Multiset.cons_swap _ _ _
  rw [split] at balanced
  obtain ⟨h1,dropped,sub,rest⟩ := Refcount.releaseBalanced balanced
  have live := rest.held inode (Multiset.mem_cons_of_mem (memFileHolders mem held))
  obtain ⟨h2,taken,same,last⟩ := Refcount.acquireBalanced rest live
  have put : putInode s (some s.cwd) = some { s with inodes := h1 } := by simp [putInode,dropped]
  have got : getInode { s with inodes := h1 } inode = some { s with inodes := h2 } := by simp [getInode,taken]
  have sub' : (bare h2).Sublist (bare s.inodes) := same ▸ sub
  have now : holders { s with inodes := h2,cwd := inode } = inode ::ₘ s.root ::ₘ fileHolders s.files :=
    Multiset.cons_swap _ _ _
  have inv' : Inv fs { s with inodes := h2,cwd := inode } :=
    invDown inv (now ▸ last) sub' rfl dir (fun _ mem => mem)
  exact ⟨_,_,put,got,inv',rfl,sub'⟩

theorem searchedFile {fs : Fs Obj} {s s' : State Obj} {slot inode : Nat} (searched : Searched fs s s' slot inode) :
    s'.files[slot]? = some (some ⟨some inode,0⟩) := by
  obtain ⟨small,_⟩ := List.getElem?_eq_some_iff.mp searched.free
  rw [searched.files,List.getElem?_set_self small]

theorem chdirInv {fs : Fs Obj} {s : State Obj} (inv : Inv fs s) (src : Bytes) :
    ∃ s' r,chdir fs s src = some (s',r) ∧ Inv fs s' ∧ Moved (Edge fs) s.inodes s'.inodes := by
  obtain ⟨s1,r,result,outcome,inv1,moved⟩ := searchdirInv inv src
  unfold chdir
  rw [result]
  cases r with
  | none => exact ⟨s1,-1,rfl,inv1,moved⟩
  | some handle =>
    obtain ⟨slot,inode,rfl,searched⟩ := outcome
    have here := searchedFile searched
    have file : handleToFile s1 (slot + 1) = some ⟨some inode,0⟩ := by simp [handleToFile,here]
    have mem : some ⟨some inode,0⟩ ∈ s1.files := List.mem_of_getElem? here
    have live : inode ∈ addrs s1.inodes := by
      have among := memFileHolders mem rfl
      exact inv1.balanced.held inode (Multiset.mem_cons_of_mem (Multiset.mem_cons_of_mem among))
    obtain ⟨node,found⟩ := Refcount.findLive live
    obtain ⟨inside,same⟩ := Refcount.findSome found
    simp only [bind,Option.bind,file,found]
    by_cases dir : node.data.mode = .dir
    · obtain ⟨s2,s3,put,got,inv3,_,sub⟩ := cwdInv inv1 mem rfl ⟨node,inside,same,.inl dir⟩
      obtain ⟨s4,closed,after⟩ := closeClosed inv3 slot
      refine ⟨s4,0,?_,after.inv,movedClosed searched.kept inv1 (after.sub.trans sub)⟩
      simp only [ne_eq,dir,not_true_eq_false,if_false,put,got]
      simp [closeFile,closed]
    · obtain ⟨s2,closed,after⟩ := closeClosed inv1 slot
      refine ⟨s2,-1,?_,after.inv,movedClosed searched.kept inv1 after.sub⟩
      simp only [ne_eq,dir,not_false_eq_true,if_true]
      simp [closeFile,closed]

inductive Op where
  | searchdir (name : Bytes)
  | chdir (src : Bytes)
  | close (handle : Nat)

def step (fs : Fs Obj) (s : State Obj) : Op → Option (State Obj)
  | .searchdir name => (searchdir fs s name).map Prod.fst
  | .chdir src => (chdir fs s src).map Prod.fst
  | .close handle => closeFile s handle

theorem stepInv {fs : Fs Obj} {s : State Obj} (inv : Inv fs s) (op : Op) :
    ∃ s',step fs s op = some s' ∧ Inv fs s' ∧ Moved (Edge fs) s.inodes s'.inodes := by
  cases op with
  | searchdir name =>
    obtain ⟨s',r,result,_,inv',moved⟩ := searchdirInv inv name
    exact ⟨s',by simp [step,result],inv',moved⟩
  | chdir src =>
    obtain ⟨s',r,result,inv',moved⟩ := chdirInv inv src
    exact ⟨s',by simp [step,result],inv',moved⟩
  | close handle =>
    by_cases nul : handle = 0
    · exact ⟨s,by simp [step,closeFile,nul],inv,movedClosed List.suffix_rfl inv (List.Sublist.refl _)⟩
    · obtain ⟨s',result,closed⟩ := closeClosed inv (handle - 1)
      exact ⟨s',by simp [step,closeFile,nul,result],closed.inv,movedClosed List.suffix_rfl inv closed.sub⟩

theorem noHolders (n : Nat) : fileHolders (List.replicate n none) = 0 := by
  simp [fileHolders,pending]

theorem initInv (fs : Fs Obj) : ∃ s,fsInit fs = some s ∧ Inv fs s := by
  have top : Rootlike fs ⟨fs.rootObj,fs.rootMode,fs.rootSize,none⟩ := ⟨rfl,rfl,rfl,rfl⟩
  refine ⟨_,by simp [fsInit,getInode,acquire,find,Refcount.adjust]; rfl,?_⟩
  refine ⟨⟨⟨by simp [addrs],top,trivial⟩,?_,?_,?_⟩,?_,?_,?_⟩
  · simp [children,holders,noHolders]
  · simp
  · simp [holders,noHolders,addrs]
  · exact ⟨_,List.mem_cons_self,rfl,rfl⟩
  · exact ⟨_,List.mem_cons_self,rfl,.inr top⟩
  · intro file inode mem
    have none' := List.eq_of_mem_replicate mem
    cases none'

/- From fs_init on, any operations in any order. -/
def runOps (fs : Fs Obj) (ops : List Op) : Option (State Obj) :=
  (fsInit fs).bind (fun s => Runs.run (step fs) s ops)

theorem runOpsInv (fs : Fs Obj) (ops : List Op) : ∃ s,runOps fs ops = some s ∧ Inv fs s := by
  obtain ⟨start,init,inv⟩ := initInv fs
  have steps (s : State Obj) (op : Op) (inv : Inv fs s) : ∃ s',step fs s op = some s' ∧ Inv fs s' := by
    obtain ⟨s',result,inv',_⟩ := stepInv inv op
    exact ⟨s',result,inv'⟩
  obtain ⟨s,ran,last⟩ := Runs.runTotal steps ops inv
  exact ⟨s,by simp [runOps,init,ran],last⟩

/- The number of pointers to an inode: its live children, and who holds it from outside. -/
def references (s : State Obj) (inode : Nat) : Nat :=
  children s.inodes inode + (holders s).count inode

def Survives (s : State Obj) (n : Node Nat (Inode Obj)) : Prop :=
  At (fun parent d => parent = n.parent ∧ d = n.data) s.inodes n.addr

theorem referencesBalanced (fs : Fs Obj) (ops : List Op) : ∃ s,runOps fs ops = some s ∧
    (addrs s.inodes).Nodup ∧
    (∀ n ∈ s.inodes,n.refcnt = references s n.addr) ∧
    (∀ inode,inode ∈ addrs s.inodes ↔ 0 < references s inode) ∧
    (∀ op,∃ s',step fs s op = some s' ∧ ∀ n ∈ s.inodes,Survives s' n ↔ 0 < references s' n.addr) ∧
    (∀ name s',searchdir fs s name = some (s',none) →
      s'.inodes = s.inodes ∧ s'.root = s.root ∧ s'.cwd = s.cwd ∧ s'.files = s.files) := by
  obtain ⟨s,ran,inv⟩ := runOpsInv fs ops
  refine ⟨s,ran,Refcount.linkedNodup inv.balanced.linked,?_,Refcount.liveIff inv.balanced,?_,?_⟩
  · intro n mem
    rw [inv.balanced.counted n mem,references]
    push_cast
    rfl
  · intro op
    obtain ⟨s',result,inv',moved⟩ := stepInv inv op
    refine ⟨s',result,?_⟩
    intro n mem
    exact (Refcount.movedSurvives moved mem).trans (Refcount.liveIff inv'.balanced n.addr)
  · intro name s' failed
    obtain ⟨s1,r,result,outcome⟩ := searchdirOutcome inv name
    rw [result] at failed
    cases Option.some.inj failed
    have same : s' = { s with clock := s'.clock } := outcome
    rw [same]
    exact ⟨rfl,rfl,rfl,rfl⟩

end
end Syslinux.Searchdir
