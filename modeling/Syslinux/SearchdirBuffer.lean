import Syslinux.Realpath
import Syslinux.SearchdirEnds

/-! Which bytes of its path buffer searchdir touches, and which bytes of a new one it fills. The path
of a place is the buffer from the name on: what has been cut off lies in front of it. -/
namespace Syslinux.Searchdir
open Refcount (find)
open Relation (ReflTransGen)

/- The bytes that strchr reads, up to the slash or the NUL. -/
def strchrReads : Bytes → Nat
  | [] => 1
  | c::buf => if c = 0 ∨ c = slash then 1 else strchrReads buf + 1

def skipReads : Bytes → Nat
  | [] => 1
  | c::buf => if c = slash then skipReads buf + 1 else 1

def componentReads : Bytes → Nat
  | [] => 1
  | c::buf =>
      if c = slash then 1 + skipReads buf
      else 1 + strchrReads buf + ((strchr buf).2.map skipReads).getD 0

def componentWrites : Bytes → Option Nat
  | [] => none
  | c::buf => if c = slash then none else (strchr buf).2.map fun _ => 1 + (strchr buf).1.length

/- The name is compared, looked up and copied with its NUL; what follows is measured and copied for a symlink. -/
def turnReads (path : Bytes) : Nat :=
  max (componentReads path) <| max ((component path).1.length + 1) <|
    ((component path).2.map fun next => path.length - next.length + (cstr next).length + 1).getD 0

section
variable {Obj : Type}

/- No byte behind the NUL of the path is touched. -/
def Inside (c : Place Obj) : Prop :=
  turnReads c.path ≤ (cstr c.path).length + 1 ∧ ∀ k ∈ componentWrites c.path, k ≤ (cstr c.path).length

/- The link that a turn reads, when memory has been found for the new path: the clock then, the
object and its size. -/
def linkRead (fs : Fs Obj) (c : Place Obj) : Option (Nat × Obj × Nat) :=
  let name := (component c.path).1
  let next := (component c.path).2
  if Special name then none
  else do
    let node ← find c.state.inodes c.inode
    let (obj,mode,size) ← fs.iget c.state.clock name node.data.obj
    let clock := c.state.clock + 2
    if mode ≠ .lnk ∨ c.count - 1 = 0 ∨ maxSymlinkBuf < newLen size next ∨
      fs.memory clock (newLen size next) = false then none
    else some (clock,obj,size)

/- new_len as the size_t that malloc is given. -/
def allocated (size : Nat) (next : Option Bytes) : Nat := (newLen size next % 2^32).toNat

/- The slash and what follows it, with its NUL. -/
def tailLength (next : Option Bytes) : Nat := (next.map fun next => (cstr next).length + 1).getD 0

/- How much of the new path is filled: by readlink, and behind what it has returned. -/
def filled (written copied : Nat) (next : Option Bytes) : Nat :=
  if copied = 0 then written else max written (copied + 1 + tailLength next)

def Fits (fs : Fs Obj) (written : Nat → Obj → Nat) (c : Place Obj) : Prop :=
  ∀ readlink, fs.readlink = some readlink → ∀ clock obj size, linkRead fs c = some (clock,obj,size) →
    filled (written clock obj) (readlink clock obj).length (component c.path).2 ≤ allocated size (component c.path).2

/- The link that a turn reads, if it reads one: readlink fills in and returns no more than the inode's size, but for one
NUL, and the target does not begin with a NUL; with the longest path behind it the size is an int. -/
def ProperLink (fs : Fs Obj) (written : Nat → Obj → Nat) (longest : Nat) (c : Place Obj) : Prop :=
  ∀ readlink, fs.readlink = some readlink → ∀ clock obj size, linkRead fs c = some (clock,obj,size) →
    size + longest + 2 < 2^31 ∧ written clock obj ≤ size + 1 ∧ (readlink clock obj).length ≤ size ∧
      (readlink clock obj).head? ≠ some 0

end

section
variable {word rest : Bytes}

theorem strchrSplit (rest : Bytes) (plain : ∀ c ∈ word, c ≠ 0) :
    (∃ u v, word = u ++ slash::v ∧ strchr (word ++ 0::rest) = (u,some (v ++ 0::rest)) ∧
    strchrReads (word ++ 0::rest) = u.length + 1) ∨
    (strchr (word ++ 0::rest) = (word,none) ∧ strchrReads (word ++ 0::rest) = word.length + 1) := by
  induction word with
  | nil => exact Or.inr ⟨by simp [strchr],by simp [strchrReads]⟩
  | cons c word ih =>
    have notNul := plain c List.mem_cons_self
    by_cases found : c = slash
    · exact Or.inl ⟨[],word,by rw [found]; rfl,by simp [strchr,found,slash],by simp [strchrReads,found]⟩
    · rcases ih fun d mem => plain d (List.mem_cons_of_mem _ mem) with ⟨u,v,split,text,reads⟩ | ⟨text,reads⟩
      · refine Or.inl ⟨c::u,v,by rw [split]; rfl,?_,?_⟩
        · simp [strchr,notNul,found,text]
        · simp [strchrReads,notNul,found,reads]
      · refine Or.inr ⟨?_,?_⟩
        · simp [strchr,notNul,found,text]
        · simp [strchrReads,notNul,found,reads]

theorem skipSplit (rest : Bytes) (plain : ∀ c ∈ word, c ≠ 0) : skipReads (word ++ 0::rest) ≤ word.length + 1 ∧
    (skipSlashes (word ++ 0::rest) = none ∨
      ∃ next, next ≠ [] ∧ next <:+ word ∧ skipSlashes (word ++ 0::rest) = some (next ++ 0::rest)) := by
  induction word with
  | nil => exact ⟨by simp [skipReads,slash],Or.inl (by simp [skipSlashes,slash])⟩
  | cons c word ih =>
    have notNul := plain c List.mem_cons_self
    obtain ⟨reads,skip⟩ := ih fun d mem => plain d (List.mem_cons_of_mem _ mem)
    by_cases found : c = slash
    · have same : skipSlashes (c::word ++ 0::rest) = skipSlashes (word ++ 0::rest) := by simp [skipSlashes,found]
      rw [same]
      refine ⟨by simpa [skipReads,found] using reads,skip.imp id ?_⟩
      rintro ⟨next,some',suffix,eq⟩
      exact ⟨next,some',suffix.trans (List.suffix_cons c word),eq⟩
    · refine ⟨by simp [skipReads,found],Or.inr ⟨c::word,by simp,List.suffix_refl _,?_⟩⟩
      simp [skipSlashes,found,notNul]

theorem suffixPlain {next : Bytes} (plain : ∀ c ∈ word, c ≠ 0) (suffix : next <:+ word) : ∀ c ∈ next, c ≠ 0 :=
  fun c mem => plain c (suffix.subset mem)

theorem cstrWord (rest : Bytes) (plain : ∀ c ∈ word, c ≠ 0) : cstr (word ++ 0::rest) = word := by
  rw [cstr,List.takeWhile_append_of_pos fun c mem => by simpa using plain c mem]
  simp

theorem componentSplit (rest : Bytes) (some' : word ≠ []) (plain : ∀ c ∈ word, c ≠ 0) :
    componentReads (word ++ 0::rest) ≤ word.length + 1 ∧ (∀ k ∈ componentWrites (word ++ 0::rest), k ≤ word.length) ∧
    (component (word ++ 0::rest)).1.length ≤ word.length ∧
    ((component (word ++ 0::rest)).2 = none ∨
      ∃ next, next ≠ [] ∧ next <:+ word ∧ (component (word ++ 0::rest)).2 = some (next ++ 0::rest)) := by
  obtain ⟨c,word,rfl⟩ := List.exists_cons_of_ne_nil some'
  have notNul := plain c List.mem_cons_self
  have plain' : ∀ d ∈ word, d ≠ 0 := fun d mem => plain d (List.mem_cons_of_mem _ mem)
  by_cases root : c = slash
  · obtain ⟨reads,skip⟩ := skipSplit rest plain'
    rw [root,List.cons_append,componentReads,if_pos rfl,componentWrites,if_pos rfl,componentRoot]
    refine ⟨by simp only [List.length_cons]; omega,by simp,by simp,skip.imp id ?_⟩
    rintro ⟨next,some',suffix,eq⟩
    exact ⟨next,some',suffix.trans (List.suffix_cons _ word),eq⟩
  rw [List.cons_append,componentReads,if_neg root,componentWrites,if_neg root,componentName _ root,if_neg notNul]
  rcases strchrSplit rest plain' with ⟨u,v,rfl,text,reads⟩ | ⟨text,reads⟩
  · have plainV : ∀ d ∈ v, d ≠ 0 := fun d mem => plain' d (by simp [mem])
    obtain ⟨reads',skip⟩ := skipSplit rest plainV
    rw [text,reads]
    simp only [Option.map_some,Option.getD_some,Option.bind_some,List.length_cons,List.length_append]
    refine ⟨by omega,fun k at' => ?_,by omega,skip.imp id ?_⟩
    · obtain rfl := Option.mem_some.mp at'
      omega
    · rintro ⟨next,some',suffix,eq⟩
      exact ⟨next,some',(suffix.trans (List.suffix_append (u ++ [slash]) v)).trans (by simp),eq⟩
  · rw [text,reads]
    refine ⟨?_,by simp,by simp,Or.inl rfl⟩
    simp only [Option.map_none,Option.getD_none,List.length_cons]
    omega

end

section
variable {Obj : Type} {fs : Fs Obj} {c d : Place Obj} {word rest : Bytes}

def Stands (longest : Nat) (c : Place Obj) : Prop :=
  ∃ word rest, word ≠ [] ∧ (∀ b ∈ word, b ≠ 0) ∧ word.length ≤ longest ∧ c.path = word ++ 0::rest

theorem standsInside {longest : Nat} (stands : Stands longest c) : Inside c := by
  obtain ⟨word,rest,some',plain,_,path⟩ := stands
  obtain ⟨reads,writes,name,next⟩ := componentSplit rest some' plain
  unfold Inside turnReads
  rw [path,cstrWord rest plain]
  refine ⟨max_le reads (max_le (by omega) ?_),writes⟩
  rcases next with none' | ⟨next,_,suffix,eq⟩
  · rw [none']
    exact Nat.zero_le _
  · have length := suffix.length_le
    rw [eq]
    simp only [Option.map_some,Option.getD_some,cstrWord rest (suffixPlain plain suffix),List.length_append,
      List.length_cons]
    omega

theorem emptyOutside (empty : c.path.head? = some 0) : ¬ Inside c := by
  rintro ⟨reads,_⟩
  obtain ⟨rest,path⟩ : ∃ rest, c.path = 0::rest := by
    cases path : c.path with
    | nil => rw [path] at empty; cases empty
    | cons b rest =>
      rw [path] at empty
      exact ⟨rest,by rw [Option.some.inj empty]⟩
  have some' : 1 ≤ strchrReads rest := by
    cases rest with
    | nil => exact Nat.le_refl 1
    | cons b rest =>
      unfold strchrReads
      split_ifs
      · exact Nat.le_refl 1
      · exact Nat.le_add_left 1 _
  have more := Nat.le_trans (Nat.le_max_left _ _) reads
  rw [path,componentReads,if_neg (by decide)] at more
  simp only [cstr,List.takeWhile_cons,ne_eq,not_true,decide_false,Bool.false_eq_true,if_false,List.length_nil] at more
  omega

theorem firstString {buf : Bytes} (nul : 0 ∈ buf) (first : buf.head? ≠ some 0) :
    ∃ word rest, word ≠ [] ∧ (∀ b ∈ word, b ≠ 0) ∧ buf = word ++ 0::rest ∧ cstr buf = word := by
  obtain ⟨word,rest,split,plain⟩ := List.eq_append_cons_of_mem nul
  have plain' : ∀ b ∈ word, b ≠ 0 := fun b mem zero => plain (zero ▸ mem)
  refine ⟨word,rest,?_,plain',split,by rw [split,cstrWord rest plain']⟩
  rintro rfl
  rw [split] at first
  exact first rfl

theorem followReads {s : State Obj} {inode : Nat} {path : Bytes}
    (taken : turn fs c.count c.state c.inode c.path = some (.follow s inode path)) :
    ∃ readlink clock obj size, fs.readlink = some readlink ∧ linkRead fs c = some (clock,obj,size) ∧
      readlink clock obj ≠ [] ∧
      path = newPath fs clock (readlink clock obj) (component c.path).2 := by
  rcases turnCases taken with ⟨s',same⟩ | ⟨s',inode',same⟩ | ⟨node,obj,size,s₁,link,plain,here,got,clock,taken'⟩
  · cases same
  · cases same
  · rcases symlinkCases taken' with ⟨s',same⟩ | ⟨more,fits,memory,readlink,s',some',full,same⟩
    · cases same
    · injection same with _ _ path
      rw [clock] at memory full path
      refine ⟨readlink,_,obj,size,some',?_,full,path⟩
      unfold linkRead
      simp only [if_neg plain,here,got,Option.bind_eq_bind,Option.bind_some]
      rw [if_neg]
      rintro (other | last | long | none')
      · exact other rfl
      · exact more last
      · omega
      · exact memory none'

theorem linkReadFound {clock size : Nat} {obj : Obj} (read : linkRead fs c = some (clock,obj,size)) :
    ∃ tick name dir, fs.iget tick name dir = some (obj,.lnk,size) ∧ newLen size (component c.path).2 ≤ maxSymlinkBuf := by
  unfold linkRead at read
  simp only at read
  split_ifs at read with special
  obtain ⟨node,_,rest⟩ := Option.bind_eq_some_iff.mp read
  obtain ⟨⟨obj',mode,size'⟩,got,rest⟩ := Option.bind_eq_some_iff.mp rest
  simp only at rest
  split_ifs at rest with stop
  cases rest
  push Not at stop
  exact ⟨_,_,_,by rw [got,stop.1],stop.2.2.1⟩

theorem int32Small {n : Nat} (small : n < 2^31) : int32 n = n := by
  unfold int32
  rw [BitVec.toInt_ofNat',Int.bmod_def]
  split_ifs <;> omega

theorem newLenExact {size longest : Nat} {next : Option Bytes} (small : size + longest + 2 < 2^31)
    (short : ∀ rest ∈ next, (cstr rest).length ≤ longest) : newLen size next = (size + 1 + tailLength next : Nat) := by
  cases next with
  | none => exact int32Small (by omega)
  | some next =>
    have := short next rfl
    exact int32Small (by omega)

theorem cstrBound (front rest : Bytes) : (cstr (front ++ 0::rest)).length ≤ front.length := by
  induction front with
  | nil => simp [cstr]
  | cons b front ih =>
    by_cases zero : b = 0
    · simp [cstr,zero]
    · simpa [cstr,zero] using ih

theorem newPathString {tick : Nat} {target : Bytes} {next : Option Bytes} (full : target ≠ [])
    (first : target.head? ≠ some 0) :
    ∃ word rest, word ≠ [] ∧ (∀ b ∈ word, b ≠ 0) ∧ newPath fs tick target next = word ++ 0::rest ∧
      word.length ≤ target.length + tailLength next := by
  have head : ∀ more : Bytes, (target ++ more).head? ≠ some 0 := by
    intro more
    rwa [List.head?_append_of_ne_nil _ full]
  cases next with
  | none =>
    obtain ⟨word,rest,some',plain,split,string⟩ := @firstString (newPath fs tick target none) (by simp [newPath]) (head _)
    refine ⟨word,rest,some',plain,split,?_⟩
    rw [← string]
    exact Nat.le_trans (cstrBound target (fs.slack tick)) (Nat.le_add_right _ _)
  | some next =>
    have path : newPath fs tick target (some next) = target ++ (slash::cstr next ++ 0::fs.slack tick) := by
      simp [newPath]
    obtain ⟨word,rest,some',plain,split,string⟩ := @firstString (newPath fs tick target (some next))
      (by simp [newPath]) (by rw [path]; exact head _)
    refine ⟨word,rest,some',plain,split,?_⟩
    rw [← string]
    have bound := cstrBound (target ++ slash::cstr next) (fs.slack tick)
    rw [List.length_append,List.length_cons] at bound
    exact bound

theorem restStands {longest : Nat} (stands : Stands longest c) : ∀ rest ∈ (component c.path).2,
    (cstr rest).length ≤ longest ∧
    ∀ (s : State Obj) (inode count : Nat), Stands longest (⟨s,inode,rest,count⟩ : Place Obj) := by
  obtain ⟨word,slack,some',plain,short,path⟩ := stands
  intro rest at'
  rcases (componentSplit slack some' plain).2.2.2 with none' | ⟨next,more,suffix,eq⟩
  · rw [path,none'] at at'
    cases at'
  · rw [path,eq] at at'
    obtain rfl := Option.mem_some.mp at'
    have length := Nat.le_trans suffix.length_le short
    have plain' := suffixPlain plain suffix
    exact ⟨by rw [cstrWord slack plain']; exact length,fun s inode count => ⟨next,slack,more,plain',length,rfl⟩⟩

section
variable {written : Nat → Obj → Nat} {longest : Nat} (links : ProperLink fs written longest c)
include links

theorem linkLength {readlink : Nat → Obj → Bytes} (some' : fs.readlink = some readlink) (stands : Stands longest c)
    {clock size : Nat} {obj : Obj} (read : linkRead fs c = some (clock,obj,size)) :
    newLen size (component c.path).2 = (size + 1 + tailLength (component c.path).2 : Nat) :=
  newLenExact (links readlink some' clock obj size read).1 fun rest at' => (restStands stands rest at').1

theorem standsNext (long : maxSymlinkBuf ≤ longest) (stands : Stands longest c) (next : Next fs c d) :
    Stands longest d := by
  cases next with
  | @on s inode rest taken =>
    rcases turnCases taken with ⟨s',same⟩ | ⟨s',inode',same⟩ | ⟨_,_,_,_,_,_,_,_,_,taken'⟩
    · cases same
    · injection same with _ _ path
      exact (restStands stands rest path.symm).2 s inode c.count
    · rcases symlinkCases taken' with ⟨s',same⟩ | ⟨_,_,_,readlink,s',_,_,same⟩
      · cases same
      · cases same
  | @follow s inode path taken =>
    obtain ⟨readlink,clock,obj,size,some',read,full,rfl⟩ := followReads taken
    obtain ⟨_,_,copied,first⟩ := links readlink some' clock obj size read
    obtain ⟨_,_,_,_,limit⟩ := linkReadFound read
    obtain ⟨word,rest,more,plain,split,length⟩ := @newPathString Obj fs clock _ (component c.path).2 full first
    refine ⟨word,rest,more,plain,?_,split⟩
    rw [linkLength links some' stands read] at limit
    unfold maxSymlinkBuf at limit long
    omega

theorem standsFits (stands : Stands longest c) : Fits fs written c := by
  intro readlink some' clock obj size read
  obtain ⟨_,fills,copied,_⟩ := links readlink some' clock obj size read
  have exact' := linkLength links some' stands read
  obtain ⟨_,_,_,_,limit⟩ := linkReadFound read
  have room : allocated size (component c.path).2 = size + 1 + tailLength (component c.path).2 := by
    rw [allocated,exact']
    rw [exact'] at limit
    unfold maxSymlinkBuf at limit
    omega
  rw [room]
  unfold filled
  split_ifs
  · omega
  · exact max_le (by omega) (by omega)

end

/- Only the empty name is read behind its end: as long as the links that are read are proper, no turn after that
leaves its buffer. -/
theorem pathsInside {s : State Obj} {name : Bytes} {written : Nat → Obj → Nat} (starts : Starts fs s name c)
    (links : ∀ d, ReflTransGen (Next fs) c d → ProperLink fs written (max (cstr name).length 4096) d) :
    (∀ d, ReflTransGen (Next fs) c d → Inside d ∧ Fits fs written d) ↔ cstr name ≠ [] := by
  obtain ⟨_,_,_,_,_,path,_⟩ := starts
  constructor
  · intro all empty
    refine emptyOutside ?_ (all c .refl).1
    rw [path,empty]
    rfl
  · intro some' d reach
    have start : Stands (max (cstr name).length 4096) c := ⟨cstr name,_,some',cstrBytes,Nat.le_max_left _ _,path⟩
    have stands : Stands (max (cstr name).length 4096) d := by
      induction reach with
      | refl => exact start
      | tail before next ih => exact standsNext (links _ before) (by unfold maxSymlinkBuf; omega) ih next
    exact ⟨standsInside stands,standsFits (links d reach) stands⟩

end

theorem sampleLink (longest : Nat) (small : longest < 2^30) (c : Place Nat) :
    ProperLink sampleFs (fun _ _ => 6) longest c := by
  rintro readlink some' clock obj size read
  obtain rfl := Option.some.inj some'
  have six : size = 6 := by
    obtain ⟨tick,name,dir,got,_⟩ := linkReadFound read
    simp only [sampleFs] at got
    split_ifs at got
    all_goals cases got
    rfl
  exact ⟨by omega,by simp [six],by simp [six],by simp⟩

theorem sampleStarts (name : Bytes) : ∃ s c, fsInit sampleFs = some s ∧ Starts sampleFs s name c := by
  refine ⟨_,⟨_,_,_,_⟩,rfl,0,rfl,?_,rfl,rfl,rfl,rfl⟩
  simp [sampleFs]

/- The path "l/b". -/
theorem pathsInsideSample : ∃ s c, fsInit sampleFs = some s ∧ Starts sampleFs s [108,47,98] c ∧
    ∀ d, ReflTransGen (Next sampleFs) c d → Inside d ∧ Fits sampleFs (fun _ _ => 6) d := by
  obtain ⟨s,c,init,starts⟩ := sampleStarts [108,47,98]
  exact ⟨s,c,init,starts,(pathsInside starts fun d _ => sampleLink _ (by decide) d).mpr (by decide)⟩

/- The path "". -/
theorem emptyNameOutside : ∃ s c, fsInit sampleFs = some s ∧ Starts sampleFs s [] c ∧
    componentReads c.path = 2 ∧ c.path.head? = some 0 ∧ ¬ Inside c := by
  obtain ⟨s,c,init,starts⟩ := sampleStarts []
  have path : c.path = [0] := starts.choose_spec.2.2.2.2.1
  exact ⟨s,c,init,starts,by rw [path]; rfl,by rw [path]; rfl,emptyOutside (by rw [path]; rfl)⟩

end Syslinux.Searchdir
