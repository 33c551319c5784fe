import Syslinux.SearchdirRuns

/-! The turns of searchdir, one after the other: a turn either takes a name off the path or uses up
a symlink, which puts a new path in its place. No filesystem lets this go on for ever. -/
namespace Syslinux.Searchdir
open Refcount (find)
open Relation (ReflTransGen)

section
variable {Obj : Type}

/- Where the loop over the names is: the inode it has come to, the rest of the path and symlink_count. -/
structure Place (Obj : Type) where
  state : State Obj
  inode : Nat
  path : Bytes
  count : Nat

inductive Next (fs : Fs Obj) : Place Obj → Place Obj → Prop where
  | on {c : Place Obj} {s inode next} (taken : turn fs c.count c.state c.inode c.path = some (.on s inode (some next))) :
      Next fs c ⟨s,inode,next,c.count⟩
  | follow {c : Place Obj} {s inode path} (taken : turn fs c.count c.state c.inode c.path = some (.follow s inode path)) :
      Next fs c ⟨s,inode,path,c.count - 1⟩

def Last (fs : Fs Obj) (c : Place Obj) (s : State Obj) : Option Nat → Prop
  | none => turn fs c.count c.state c.inode c.path = some (.fail s)
  | some inode => turn fs c.count c.state c.inode c.path = some (.on s inode none)

variable {fs : Fs Obj} {c d : Place Obj} {count inode : Nat} {s : State Obj} {buf : Bytes}

/- A symlink is followed while there are two left or more, in the path that is made for it. -/
theorem symlinkCases {parent : Nat} {obj : Obj} {size : Nat} {next : Option Bytes} {t : Turn Obj}
    (taken : symlink fs count s inode parent obj size next = some t) :
    (∃ s', t = .fail s') ∨ count - 1 ≠ 0 ∧ newLen size next ≤ maxSymlinkBuf ∧ fs.memory s.clock (newLen size next) ≠ false ∧
      ∃ readlink s', fs.readlink = some readlink ∧ readlink s.clock obj ≠ [] ∧
        t = .follow s' parent (newPath fs s.clock (readlink s.clock obj) next) := by
  have fails : ∀ {s₁ : State Obj} {o : Option Nat}, (putInode s₁ o).bind (fun s => some (Turn.fail s)) = some t →
    ∃ s', t = .fail s' := by
    intro s₁ o ok
    obtain ⟨s',_,same⟩ := Option.bind_eq_some_iff.mp ok
    exact ⟨s',(Option.some.inj same).symm⟩
  unfold symlink at taken
  cases link : fs.readlink with
  | none =>
    rw [link] at taken
    exact Or.inl (fails taken)
  | some readlink =>
    rw [link] at taken
    simp only at taken
    by_cases limits : count - 1 = 0 ∨ maxSymlinkBuf < newLen size next
    · rw [if_pos limits] at taken
      exact Or.inl (fails taken)
    rw [if_neg limits] at taken
    by_cases memory : fs.memory s.clock (newLen size next) = false
    · rw [if_pos memory] at taken
      exact Or.inl (fails taken)
    rw [if_neg memory] at taken
    by_cases empty : readlink s.clock obj = []
    · rw [if_pos empty] at taken
      exact Or.inl (fails taken)
    rw [if_neg empty] at taken
    obtain ⟨s',_,same⟩ := Option.bind_eq_some_iff.mp taken
    push Not at limits
    exact Or.inr ⟨limits.1,limits.2,memory,readlink,s',rfl,empty,(Option.some.inj same).symm⟩

def Special (name : Bytes) : Prop := name.head? = some slash ∨ name = [dot] ∨ name = [dot,dot]

instance (name) : Decidable (Special name) := by unfold Special; infer_instance

/- What a turn can do: fail, go on behind the name, or deal with a symlink that iget has found under it. -/
theorem turnCases {t : Turn Obj} (taken : turn fs count s inode buf = some t) :
    (∃ s', t = .fail s') ∨ (∃ s' inode', t = .on s' inode' (component buf).2) ∨
      ∃ node obj size s₁ link, ¬ Special (component buf).1 ∧ find s.inodes inode = some node ∧
        fs.iget s.clock (component buf).1 node.data.obj = some (obj,.lnk,size) ∧ s₁.clock = s.clock + 2 ∧
        symlink fs count s₁ link inode obj size (component buf).2 = some t := by
  unfold turn at taken
  simp only at taken
  by_cases root : (component buf).1.head? = some slash
  · rw [if_pos root] at taken
    obtain ⟨s₁,_,rest⟩ := Option.bind_eq_some_iff.mp taken
    obtain ⟨s₂,_,same⟩ := Option.bind_eq_some_iff.mp rest
    exact Or.inr (Or.inl ⟨s₂,_,(Option.some.inj same).symm⟩)
  rw [if_neg root] at taken
  by_cases isDot : (component buf).1 = [dot]
  · rw [if_pos isDot] at taken
    exact Or.inr (Or.inl ⟨s,inode,(Option.some.inj taken).symm⟩)
  rw [if_neg isDot] at taken
  by_cases isDotdot : (component buf).1 = [dot,dot]
  · rw [if_pos isDotdot] at taken
    obtain ⟨node,_,rest⟩ := Option.bind_eq_some_iff.mp taken
    cases up : node.parent with
    | none =>
      rw [up] at rest
      exact Or.inr (Or.inl ⟨s,inode,(Option.some.inj rest).symm⟩)
    | some parent =>
      rw [up] at rest
      obtain ⟨s₁,_,same⟩ := Option.bind_eq_some_iff.mp rest
      exact Or.inr (Or.inl ⟨s₁,parent,(Option.some.inj same).symm⟩)
  rw [if_neg isDotdot] at taken
  obtain ⟨node,here,rest⟩ := Option.bind_eq_some_iff.mp taken
  cases got : fs.iget s.clock (component buf).1 node.data.obj with
  | none =>
    rw [got] at rest
    obtain ⟨s₁,_,same⟩ := Option.bind_eq_some_iff.mp rest
    exact Or.inl ⟨s₁,(Option.some.inj same).symm⟩
  | some found =>
    rw [got] at rest
    simp only at rest
    by_cases link : found.2.1 = .lnk
    · rw [if_pos link] at rest
      obtain ⟨obj,mode,size⟩ := found
      cases link
      exact Or.inr (Or.inr ⟨node,obj,size,_,_,by unfold Special; tauto,here,got,rfl,rest⟩)
    rw [if_neg link] at rest
    by_cases file : (component buf).2 ≠ none ∧ found.2.1 ≠ .dir
    · rw [if_pos file] at rest
      obtain ⟨s₁,_,same⟩ := Option.bind_eq_some_iff.mp rest
      exact Or.inl ⟨s₁,(Option.some.inj same).symm⟩
    · rw [if_neg file] at rest
      exact Or.inr (Or.inl ⟨_,_,(Option.some.inj rest).symm⟩)

def measure' (c : Place Obj) : Nat × Nat := (c.count,c.path.length)

theorem nextLess (next : Next fs c d) : Prod.Lex (· < ·) (· < ·) (measure' d) (measure' c) := by
  cases next with
  | on taken =>
    rcases turnCases taken with ⟨s',same⟩ | ⟨s',inode',same⟩ | ⟨_,_,_,_,_,_,_,_,_,taken'⟩
    · cases same
    · injection same with _ _ rest
      exact Prod.Lex.right _ (componentShort rest.symm)
    · rcases symlinkCases taken' with ⟨s',same⟩ | ⟨_,_,_,readlink,s',_,_,same⟩
      · cases same
      · cases same
  | follow taken =>
    rcases turnCases taken with ⟨s',same⟩ | ⟨s',inode',same⟩ | ⟨_,_,_,_,_,_,_,_,_,taken'⟩
    · cases same
    · cases same
    · rcases symlinkCases taken' with ⟨s',same⟩ | ⟨more,_⟩
      · cases same
      · exact Prod.Lex.left _ _ (show c.count - 1 < c.count by omega)

theorem nextFounded (fs : Fs Obj) : WellFounded fun d c => Next fs c d :=
  Subrelation.wf (fun next => nextLess next) (InvImage.wf measure' (WellFounded.prod_lex Nat.lt_wfRel.wf Nat.lt_wfRel.wf))

theorem passReaches {restart : State Obj → Nat → Bytes → Option (State Obj × Option Nat)} {turns : Nat} {s' : State Obj}
    {r : Option Nat} (again : ∀ s₁ inode path, restart s₁ inode path = some (s',r) →
      ∃ last, ReflTransGen (Next fs) ⟨s₁,inode,path,count - 1⟩ last ∧ Last fs last s' r)
    (ok : pass fs count restart turns s inode buf = some (s',r)) :
    ∃ last, ReflTransGen (Next fs) ⟨s,inode,buf,count⟩ last ∧ Last fs last s' r := by
  induction turns generalizing s inode buf with
  | zero => cases ok
  | succ turns ih =>
    unfold pass at ok
    obtain ⟨t,taken,rest⟩ := Option.bind_eq_some_iff.mp ok
    cases t with
    | fail s₁ =>
      cases rest
      exact ⟨_,.refl,taken⟩
    | on s₁ inode' next =>
      cases next with
      | none =>
        cases rest
        exact ⟨_,.refl,taken⟩
      | some next =>
        obtain ⟨last,path,stop⟩ := ih rest
        exact ⟨last,.head (.on taken) path,stop⟩
    | follow s₁ inode' path =>
      obtain ⟨last,path',stop⟩ := again s₁ inode' path rest
      exact ⟨last,.head (.follow taken) path',stop⟩

theorem walkReaches {s' : State Obj} {r : Option Nat} (ok : walk fs count s inode buf = some (s',r)) :
    ∃ last, ReflTransGen (Next fs) ⟨s,inode,buf,count⟩ last ∧ Last fs last s' r := by
  induction count generalizing s inode buf with
  | zero => cases ok
  | succ count ih => exact passReaches (fun s₁ inode path restarted => ih restarted) ok

def Starts (fs : Fs Obj) (s : State Obj) (name : Bytes) (c : Place Obj) : Prop :=
  ∃ slot, allocFile s.files = some slot ∧ fs.memory s.clock (int32 ((cstr name).length + 1)) ≠ false ∧
    getInode (tick { s with files := s.files.set slot (some ⟨none,0⟩) }) s.cwd = some c.state ∧
    c.inode = s.cwd ∧ c.path = cstr name ++ 0 :: fs.slack s.clock ∧ c.count = maxSymlinkCnt

/- Whatever has been done before, and whatever the filesystem answers: searchdir returns, for every
name. The loop has no infinite run at all. -/
theorem searchEnds (fs : Fs Obj) : (WellFounded fun d c => Next fs c d) ∧
    ∀ ops name, ∃ s, runOps fs ops = some s ∧ (∃ s' handle, searchdir fs s name = some (s',handle)) ∧
      ∀ c, Starts fs s name c → ∃ last s' r, ReflTransGen (Next fs) c last ∧ Last fs last s' r := by
  refine ⟨nextFounded fs,fun ops name => ?_⟩
  obtain ⟨s,ran,inv⟩ := runOpsInv fs ops
  obtain ⟨s',handle,returned,_⟩ := searchdirOutcome inv name
  refine ⟨s,ran,⟨s',handle,returned⟩,?_⟩
  rintro ⟨start,inode,path,count⟩ ⟨slot,free,memory,got,rfl,rfl,rfl⟩
  have reserved := reserveInv inv (allocFileFree free)
  obtain ⟨s₁,got',carried⟩ := carriedCwd reserved
  rw [show getInode (tick { s with files := s.files.set slot (some ⟨none,0⟩) }) s.cwd = some s₁ from got'] at got
  cases got
  obtain ⟨s₂,r,walked,_⟩ := walkWalked (cstr name ++ 0 :: fs.slack s.clock) reserved (by decide : maxSymlinkCnt ≠ 0) carried
  obtain ⟨last,reach,stop⟩ := walkReaches walked
  exact ⟨last,s₂,r,reach,stop⟩

end
end Syslinux.Searchdir
