import Syslinux.Realpath

/-! What realpath and chdir of core/fs/chdir.c leave in a buffer that may be too small for the path: the length
goes on growing while nothing more is copied. -/
namespace Syslinux.Searchdir
open Refcount (Heap find addrs Linked)

section
variable {bufsize : Nat} {buf dst dst' : Bytes}

/- Every byte that copy_string leaves: the text as far as it fits, a NUL behind it, and what was there. -/
theorem copyStringGet (src : Bytes) {ix k : Nat} (small : k < buf.length) :
    (copyString bufsize buf ix src).1[k]? = if ix ≤ k ∧ k < ix + src.length ∧ k + 1 < bufsize then src[k - ix]?
      else if k = ix + src.length ∧ k < bufsize then some 0 else buf[k]? := by
  induction src generalizing buf ix with
  | nil =>
    have none' : ¬ (ix ≤ k ∧ k < ix ∧ k + 1 < bufsize) := by omega
    simp only [copyString,List.length_nil,Nat.add_zero,if_neg none']
    by_cases fits : ix < bufsize
    · by_cases here : k = ix
      · subst here
        rw [if_pos fits,if_pos ⟨rfl,fits⟩,List.getElem?_set_self small]
      · rw [if_pos fits,if_neg fun last => here last.1,List.getElem?_set_ne fun same => here same.symm]
    · have past : ¬ (k = ix ∧ k < bufsize) := by omega
      rw [if_neg fits,if_neg past]
  | cons c src ih =>
    have small' : k < (if ix + 1 < bufsize then buf.set ix c else buf).length := by split <;> simpa using small
    have next := @ih _ (ix + 1) small'
    simp only [copyString,next,List.length_cons]
    by_cases here : k = ix
    · subst here
      rw [if_neg (by omega),if_neg (by omega),Nat.sub_self]
      by_cases fits : k + 1 < bufsize
      · rw [if_pos fits,if_pos (by omega),List.getElem?_set_self small]
        rfl
      · rw [if_neg fits,if_neg (by omega),if_neg (by omega)]
    · have kept : (if ix + 1 < bufsize then buf.set ix c else buf)[k]? = buf[k]? := by
        split
        · exact List.getElem?_set_ne (by omega)
        · rfl
      rw [kept]
      by_cases text : ix + 1 ≤ k ∧ k < ix + 1 + src.length ∧ k + 1 < bufsize
      · have text' : ix ≤ k ∧ k < ix + (src.length + 1) ∧ k + 1 < bufsize := by omega
        rw [if_pos text,if_pos text',show k - ix = k - (ix + 1) + 1 by omega,List.getElem?_cons_succ]
      · have text' : ¬ (ix ≤ k ∧ k < ix + (src.length + 1) ∧ k + 1 < bufsize) := by omega
        rw [if_neg text,if_neg text']
        exact if_congr (by omega) rfl rfl

/- Where a copied piece ends, counted from the root: behind each slash and behind each name. -/
def ends : Nat → List Bytes → List Nat
  | _,[] => []
  | n,name::names => (n + 1)::(n + 1 + name.length)::ends (n + 1 + name.length) names

theorem endsSnoc (n : Nat) (names : List Bytes) (name : Bytes) :
    ends n (names ++ [name]) = ends n names ++ [n + (text names).length + 1,n + (text names).length + 1 + name.length] := by
  induction names generalizing n with
  | nil => simp [ends,text]
  | cons first names ih =>
    have longer : n + 1 + first.length + (text names).length = n + (text (first::names)).length := by
      simp [text]
      omega
    simp only [List.cons_append,ends,ih,longer]

/- The buffer behind a run of copies: the path as far as it fits, and NULs where a copy has ended. -/
def Copied (bufsize : Nat) (dst dst' path : Bytes) (ends : List Nat) : Prop :=
  dst'.length = dst.length ∧ ∀ k < dst.length,dst'[k]? = if k < path.length ∧ k + 1 < bufsize then path[k]?
    else if k < bufsize ∧ k ∈ ends then some 0 else dst[k]?

theorem copiedMore {path : Bytes} {stops : List Nat} (src : Bytes) (copied : Copied bufsize dst buf path stops) :
    Copied bufsize dst (copyString bufsize buf path.length src).1 (path ++ src) (stops ++ [path.length + src.length]) := by
  obtain ⟨length,bytes⟩ := copied
  refine ⟨(copyStringLength bufsize buf path.length src).2.trans length,fun k small => ?_⟩
  rw [copyStringGet src (length ▸ small),bytes k small,List.length_append]
  simp only [List.mem_append,List.mem_singleton]
  by_cases here : path.length ≤ k ∧ k < path.length + src.length ∧ k + 1 < bufsize
  · rw [if_pos here,if_pos here.2,List.getElem?_append_right here.1]
  rw [if_neg here]
  by_cases last : k = path.length + src.length ∧ k < bufsize
  · have behind : ¬ (k < path.length + src.length ∧ k + 1 < bufsize) := by omega
    rw [if_pos last,if_neg behind,if_pos ⟨last.2,Or.inr last.1⟩]
  rw [if_neg last]
  by_cases before : k < path.length ∧ k + 1 < bufsize
  · rw [if_pos before,if_pos (by omega),List.getElem?_append_left before.1]
  have behind : ¬ (k < path.length + src.length ∧ k + 1 < bufsize) := by omega
  rw [if_neg before,if_neg behind]
  exact if_congr ⟨fun ⟨fits,mem⟩ => ⟨fits,Or.inl mem⟩,
    fun ⟨fits,mem⟩ => ⟨fits,mem.resolve_right fun eq => last ⟨eq,fits⟩⟩⟩ rfl rfl

theorem copiedNothing (bufsize : Nat) (dst : Bytes) : Copied bufsize dst dst [] [] :=
  ⟨rfl,fun k _ => by simp⟩

/- A NUL is in the buffer, and the path up to it. -/
def Terminated (bufsize : Nat) (buf path : Bytes) : Prop :=
  ∃ k < bufsize,buf[k]? = some 0 ∧ buf.take k <+: path

theorem copiedTerminated {path : Bytes} {stops : List Nat} (copied : Copied bufsize dst dst' path stops)
    (some' : 1 ≤ bufsize) (room : bufsize ≤ dst.length) (plain : ∀ c ∈ path,c ≠ 0) (whole : path.length ∈ stops) :
    Terminated bufsize dst' path ↔ path.length < bufsize ∨ bufsize - 1 ∈ stops ∨ dst[bufsize - 1]? = some 0 := by
  obtain ⟨length,bytes⟩ := copied
  have front {k : Nat} (fits : k < bufsize) (inside : k ≤ path.length) : dst'.take k <+: path := by
    have same : dst'.take k = path.take k := by
      refine List.ext_getElem? fun j => ?_
      by_cases before : j < k
      · rw [List.getElem?_take_of_lt before,List.getElem?_take_of_lt before,bytes j (by omega),if_pos (by omega)]
      · rw [List.getElem?_eq_none (by simp; omega),List.getElem?_eq_none (by simp; omega)]
    rw [same]
    exact List.take_prefix k path
  constructor
  · rintro ⟨k,fits,nul,_⟩
    by_cases short : path.length < bufsize
    · exact Or.inl short
    refine Or.inr ?_
    rw [bytes k (by omega)] at nul
    by_cases before : k < path.length ∧ k + 1 < bufsize
    · rw [if_pos before] at nul
      exact absurd rfl (plain 0 (List.mem_of_getElem? nul))
    · obtain rfl : k = bufsize - 1 := by omega
      rw [if_neg before] at nul
      by_cases stop : bufsize - 1 ∈ stops
      · exact Or.inl stop
      · rw [if_neg fun both => stop both.2] at nul
        exact Or.inr nul
  · intro condition
    by_cases short : path.length < bufsize
    · refine ⟨path.length,short,?_,front short (Nat.le_refl _)⟩
      rw [bytes _ (by omega),if_neg (by omega),if_pos ⟨short,whole⟩]
    · refine ⟨bufsize - 1,by omega,?_,front (by omega) (by omega)⟩
      rw [bytes _ (by omega),if_neg (by omega)]
      by_cases stop : bufsize - 1 ∈ stops
      · rw [if_pos ⟨by omega,stop⟩]
      · rw [if_neg fun both => stop both.2]
        exact (condition.resolve_left short).resolve_left stop

theorem copiedInside {path : Bytes} {stops : List Nat} (copied : Copied bufsize dst dst' path stops) :
    dst'.drop bufsize = dst.drop bufsize := by
  obtain ⟨length,bytes⟩ := copied
  refine List.ext_getElem? fun j => ?_
  rw [List.getElem?_drop,List.getElem?_drop]
  by_cases inside : bufsize + j < dst.length
  · have past : ¬ (bufsize + j < path.length ∧ bufsize + j + 1 < bufsize) := by omega
    rw [bytes _ inside,if_neg past,if_neg fun both => absurd both.1 (by omega)]
  · rw [List.getElem?_eq_none (by omega),List.getElem?_eq_none (by omega)]

end

section
variable {Obj : Type} {R : Option (Inode Obj) → Inode Obj → Prop} {h : Heap Nat (Inode Obj)} {inode turns : Nat}
  {names : List Bytes}

theorem spineCopied (bufsize : Nat) (dst : Bytes) (linked : Linked R h) (spine : Spine h inode names)
    (enough : names.length < turns) :
    ∃ dst',genericInodeToPath h bufsize turns inode dst = some (dst',some (text names).length) ∧
      Copied bufsize dst dst' (text names) (ends 0 names) := by
  induction spine generalizing turns with
  | @root n mem top =>
    obtain ⟨turns,rfl⟩ := Nat.exists_eq_add_of_lt enough
    exact ⟨dst,by simp [genericInodeToPath,findSelf linked mem,top,text],copiedNothing bufsize dst⟩
  | @child n parent name names mem up named above ih =>
    simp only [List.length_append,List.length_cons,List.length_nil,Nat.zero_add] at enough
    cases turns with
    | zero => omega
    | succ turns =>
      have fewer : names.length < turns := by omega
      obtain ⟨dst1,result,copied⟩ := ih fewer
      let slashed := copyString bufsize dst1 (text names).length [slash]
      let both := copyString bufsize slashed.1 slashed.2 name
      have len1 : slashed.2 = (text names ++ [slash]).length := by
        rw [(copyStringLength bufsize dst1 _ [slash]).1,List.length_append]
      have len2 : both.2 = (text (names ++ [name])).length := by
        rw [(copyStringLength bufsize slashed.1 slashed.2 name).1,len1,textSnoc,@List.length_append _ _ name]
      have twice := copiedMore name (copiedMore [slash] copied)
      refine ⟨both.1,?_,?_⟩
      · rw [← len2]
        simp [genericInodeToPath,findSelf linked mem,up,named,result,both,slashed]
      · have stops : ends 0 names ++ [(text names).length + 1] ++ [slashed.2 + name.length] = ends 0 (names ++ [name]) := by
          rw [endsSnoc,len1,List.length_append]
          simp
        rw [← len1] at twice
        rw [textSnoc,← stops]
        exact twice

theorem pathEnds (bufsize : Nat) (dst : Bytes) (linked : Linked R h) {g : Heap Nat (Inode Obj)} (linked' : Linked R g)
    (older : g <:+ h) (live : inode ∈ addrs g) (enough : g.length ≤ turns) :
    (∃ names,Spine h inode names) ∨ genericInodeToPath h bufsize turns inode dst = some (dst,none) := by
  induction g generalizing inode turns with
  | nil => cases live
  | cons n g ih =>
    have older' := (List.suffix_cons n g).trans older
    rw [List.length_cons] at enough
    rcases List.mem_cons.mp live with rfl | rest
    · have mem : n ∈ h := older.subset List.mem_cons_self
      obtain ⟨turns,rfl⟩ := Nat.exists_eq_succ_of_ne_zero (show turns ≠ 0 by omega)
      cases up : n.parent with
      | none => exact Or.inl ⟨[],.root mem up⟩
      | some parent =>
        cases named : n.data.name with
        | none => exact Or.inr (by simp [genericInodeToPath,findSelf linked mem,up,named])
        | some name =>
          have anchored := linked'.2.1
          simp only [Refcount.Anchored,up] at anchored
          obtain ⟨q,inside,rfl,_⟩ := anchored
          rcases ih linked'.2.2 older' (Refcount.memAddrs inside)
            (Nat.le_of_succ_le_succ enough) with ⟨names,spine⟩ | broken
          · exact Or.inl ⟨names ++ [name],.child mem up named spine⟩
          · exact Or.inr (by simp [genericInodeToPath,findSelf linked mem,up,named,broken])
    · exact ih linked'.2.2 older' rest (by omega)

theorem spinePlain {fs : Fs Obj} (linked : Linked (Edge fs) h) (spine : Spine h inode names) :
    ∀ name ∈ names,∀ c ∈ name,c ≠ 0 := by
  induction spine with
  | root => simp
  | @child m parent name names mem up named above ih =>
    obtain ⟨q,_,_,edge⟩ := Refcount.parentLive linked mem up
    have entered : Entered fs q.data m.data := edge
    obtain ⟨cut,_,plain,_,copied⟩ := entered.named
    intro other mem'
    rcases List.mem_append.mp mem' with old | new
    · exact ih other old
    · rw [List.mem_singleton.mp new,copied name named]
      exact fun c inside => (plain.plain c inside).1

theorem textPlain (plain : ∀ name ∈ names,∀ c ∈ name,c ≠ 0) : ∀ c ∈ printed names,c ≠ 0 := by
  intro c mem
  unfold printed at mem
  split at mem
  · rw [List.mem_singleton.mp mem]
    decide
  · obtain ⟨name,inside,here⟩ := List.mem_flatMap.mp mem
    rcases List.mem_cons.mp here with rfl | below
    · decide
    · exact plain name inside c below

end

def stops (names : List Bytes) : List Nat :=
  if names = [] then [1] else ends 0 names

theorem printedStops (names : List Bytes) : (printed names).length ∈ stops names := by
  unfold printed stops
  split
  · simp
  · rename_i some'
    obtain ⟨front,name,rfl⟩ := (List.eq_nil_or_concat names).resolve_left some'
    rw [List.concat_eq_append,endsSnoc,textSnoc]
    simp only [List.mem_append,List.mem_cons,List.length_append,List.length_singleton]
    omega

def currentdirMax : Nat := 2^8

/- The end of chdir: cwd_name when the NUL is at s. Here and below, none where cwd_buf is left. -/
def endName (cwdBuf cwdName : Bytes) (s : Nat) : Option Bytes :=
  let s := if currentdirMax ≤ s then currentdirMax - 1 else s
  if s < cwdBuf.length then some ((cwdBuf.set s 0).take (s + 1) ++ cwdName.drop (s + 1)) else none

def addSlash (cwdBuf cwdName : Bytes) (s : Nat) : Option Bytes :=
  if s < cwdBuf.length then endName (cwdBuf.set s slash) cwdName (s + 1) else none

/- Make sure the cwd_name ends in a slash, it's supposed to be a prefix. -/
def saveName (cwdBuf cwdName : Bytes) (s : Nat) : Option Bytes :=
  if s < 1 then addSlash cwdBuf cwdName s
  else do
    let c ← cwdBuf[s - 1]?
    if c ≠ slash then addSlash cwdBuf cwdName s else endName cwdBuf cwdName s

section
variable {Obj : Type}

def saveCwd (s : State Obj) (cwdBuf cwdName : Bytes) : Option Bytes := do
  let (buf,n) ← genericInodeToPath s.inodes (currentdirMax - 1) s.inodes.length s.cwd cwdBuf
  saveName buf cwdName (n.getD (2^32 - 1))

/- chdir with cwd_name, and what lay on the stack where cwd_buf is. -/
def chdirNamed (fs : Fs Obj) (s : State Obj) (cwdBuf cwdName src : Bytes) : Option (State Obj × Int × Option Bytes) := do
  let (s,r) ← chdir fs s src
  some (s,r,if r ≠ 0 then some cwdName else saveCwd s cwdBuf cwdName)

end

/- A buffer of its full size with a NUL in it. -/
def Name (out : Option Bytes) : Prop :=
  ∃ name,out = some name ∧ name.length = currentdirMax ∧ 0 ∈ name

section
variable {cwdBuf cwdName : Bytes} (size : cwdBuf.length = currentdirMax) (size' : cwdName.length = currentdirMax)
include size size'

theorem endNameInside (s : Nat) : Name (endName cwdBuf cwdName s) := by
  have small : (if currentdirMax ≤ s then currentdirMax - 1 else s) < currentdirMax := by
    unfold currentdirMax
    split <;> omega
  unfold endName
  generalize (if currentdirMax ≤ s then currentdirMax - 1 else s) = last at small
  refine ⟨_,if_pos (size ▸ small),?_,?_⟩
  · simp only [List.length_append,List.length_take,List.length_set,List.length_drop]
    omega
  · refine List.mem_append_left _ (List.mem_of_getElem? (i := last) ?_)
    rw [List.getElem?_take_of_lt (Nat.lt_succ_self last),List.getElem?_set_self (size ▸ small)]

theorem addSlashInside (s : Nat) : Name (addSlash cwdBuf cwdName s) ↔ s < currentdirMax := by
  unfold addSlash
  rw [size]
  split
  · rename_i inside
    exact iff_of_true (endNameInside ((List.length_set ..).trans size) size' (s + 1)) inside
  · rename_i outside
    refine iff_of_false ?_ outside
    rintro ⟨_,none',_⟩
    cases none'

theorem saveNameInside (s : Nat) : Name (saveName cwdBuf cwdName s) ↔
    s < currentdirMax ∨ s = currentdirMax ∧ cwdBuf[currentdirMax - 1]? = some slash := by
  unfold saveName
  by_cases none' : s < 1
  · rw [if_pos none',addSlashInside size size']
    have small : s < currentdirMax := Nat.lt_of_lt_of_le none' (by decide)
    exact iff_of_true small (Or.inl small)
  rw [if_neg none']
  by_cases inside : s - 1 < cwdBuf.length
  · rw [List.getElem?_eq_getElem inside]
    simp only [bind,Option.bind]
    by_cases slashed : cwdBuf[s - 1] = slash
    · rw [if_neg (not_not_intro slashed)]
      refine iff_of_true (endNameInside size size' s) ?_
      by_cases full : s = currentdirMax
      · subst full
        exact Or.inr ⟨rfl,by rw [List.getElem?_eq_getElem inside,slashed]⟩
      · exact Or.inl (by omega)
    · rw [if_pos slashed,addSlashInside size size']
      refine ⟨Or.inl,fun either => either.resolve_right ?_⟩
      rintro ⟨rfl,last⟩
      rw [List.getElem?_eq_getElem inside] at last
      exact slashed (Option.some.inj last)
  · rw [List.getElem?_eq_none (by omega)]
    refine iff_of_false ?_ (by omega)
    rintro ⟨_,none',_⟩
    cases none'

end

section
variable {Obj : Type} {fs : Fs Obj} {s : State Obj}

def FullPath (fs : Fs Obj) (s : State Obj) (src : Bytes) (names : List Bytes) : Prop :=
  ∃ s₁ handle file inode,searchdir fs s src = some (s₁,some handle) ∧ handleToFile s₁ handle = some file ∧
    file.inode = some inode ∧ Spine s₁.inodes inode names

theorem realpathCopied (inv : Inv fs s) {src : Bytes} {names : List Bytes} (dst : Bytes) (bufsize : Nat)
    (full : FullPath fs s src names) :
    ∃ s' dst',realpath fs s dst src bufsize = some (s',dst',some (printed names).length) ∧
      Copied bufsize dst dst' (printed names) (stops names) ∧ ∀ c ∈ printed names,c ≠ 0 := by
  obtain ⟨s₁,handle,file,inode,found,opened,held,spine⟩ := full
  obtain ⟨t,r,result,outcome⟩ := searchdirOutcome inv src
  cases Option.some.inj (found.symm.trans result)
  obtain ⟨slot,inode',rfl,searched⟩ := outcome
  have file' : handleToFile s₁ (slot + 1) = some ⟨some inode',0⟩ := by simp [handleToFile,searchedFile searched]
  cases Option.some.inj (opened.symm.trans file')
  cases held
  have linked := searched.inv.balanced.linked
  obtain ⟨dst1,path,copied⟩ := spineCopied bufsize dst linked spine (spineShort linked spine)
  obtain ⟨s2,closed,_⟩ := closeClosed searched.inv slot
  have close : closeFile s₁ (slot + 1) = some s2 := by simp [closeFile,closed]
  have plain := textPlain (spinePlain linked spine)
  by_cases top : names = []
  · subst top
    have rooted := copiedMore [slash] copied
    obtain ⟨len,_⟩ := copyStringLength bufsize dst1 0 [slash]
    have n : (text []).length = 0 := rfl
    refine ⟨s2,(copyString bufsize dst1 0 [slash]).1,?_,rooted,plain⟩
    simp only [realpath,found,bind,Option.bind,file',path,n,close,if_pos,len]
    rfl
  · have printed' : printed names = text names := if_neg top
    have stops' : stops names = ends 0 names := if_neg top
    have long : (text names).length ≠ 0 := by
      cases names with
      | nil => exact absurd rfl top
      | cons name names => simp [text]
    refine ⟨s2,dst1,?_,by rw [printed',stops']; exact copied,plain⟩
    simp [realpath,found,file',path,close,printed',long]

theorem realpathReturns (inv : Inv fs s) (dst src : Bytes) (bufsize : Nat) :
    (∃ s',realpath fs s dst src bufsize = some (s',dst,none)) ∨ ∃ names,FullPath fs s src names := by
  obtain ⟨s₁,r,result,outcome⟩ := searchdirOutcome inv src
  cases r with
  | none => exact Or.inl ⟨s₁,by simp [realpath,result]⟩
  | some handle =>
    obtain ⟨slot,inode,rfl,searched⟩ := outcome
    have file : handleToFile s₁ (slot + 1) = some ⟨some inode,0⟩ := by simp [handleToFile,searchedFile searched]
    have mem := List.mem_of_getElem? (searchedFile searched)
    obtain ⟨n,inside,rfl,_⟩ := searched.inv.opened _ inode mem rfl
    have linked := searched.inv.balanced.linked
    rcases pathEnds bufsize dst linked linked List.suffix_rfl (Refcount.memAddrs inside)
      (Nat.le_refl _) with ⟨names,spine⟩ | broken
    · exact Or.inr ⟨names,s₁,slot + 1,_,_,result,file,rfl,spine⟩
    · obtain ⟨s2,closed,_⟩ := closeClosed searched.inv slot
      exact Or.inl ⟨s2,by simp [realpath,result,file,broken,closeFile,closed]⟩

theorem chdirSaves (inv : Inv fs s) {cwdBuf cwdName : Bytes} (size : cwdBuf.length = currentdirMax)
    (size' : cwdName.length = currentdirMax) : Name (saveCwd s cwdBuf cwdName) ↔
    ∃ names,Spine s.inodes s.cwd names ∧ ((text names).length < currentdirMax ∨
      (text names).length = currentdirMax ∧ cwdBuf[currentdirMax - 1]? = some slash) := by
  have linked := inv.balanced.linked
  have printing {names : List Bytes} (spine : Spine s.inodes s.cwd names) : Name (saveCwd s cwdBuf cwdName) ↔
      (text names).length < currentdirMax ∨ (text names).length = currentdirMax ∧
      cwdBuf[currentdirMax - 1]? = some slash := by
    obtain ⟨buf,path,copied⟩ := spineCopied (currentdirMax - 1) cwdBuf linked spine (spineShort linked spine)
    have last : buf[currentdirMax - 1]? = cwdBuf[currentdirMax - 1]? := by
      have same := congrArg (·[0]?) (copiedInside copied)
      simpa only [List.getElem?_drop,Nat.add_zero] using same
    simp only [saveCwd,path,bind,Option.bind,Option.getD_some]
    rw [saveNameInside (copied.1.trans size) size',last]
  constructor
  · intro name
    obtain ⟨n,inside,same,_⟩ := inv.cwd
    rcases pathEnds (currentdirMax - 1) cwdBuf linked linked List.suffix_rfl (same ▸ Refcount.memAddrs inside)
      (Nat.le_refl _)
      with ⟨names,spine⟩ | broken
    · exact ⟨names,spine,(printing spine).mp name⟩
    · simp only [saveCwd,broken,bind,Option.bind,Option.getD_none] at name
      rw [saveNameInside size size'] at name
      unfold currentdirMax at name
      omega
  · rintro ⟨names,spine,fits⟩
    exact (printing spine).mpr fits

/- For every directory that can have been reached: realpath returns the length of the path and stays in its buffer,
but has no NUL in it unless the path is shorter, a piece ends at the last byte or a NUL is there already. chdir leaves its
own buffer for a path of its size, unless a slash lies behind what has been copied, and for a longer one. -/
theorem pathBuffers {ops : List Op} (reached : runOps fs ops = some s) :
    (∀ dst src bufsize,1 ≤ bufsize → bufsize ≤ dst.length →
      ((∃ s',realpath fs s dst src bufsize = some (s',dst,none)) ∨ ∃ names,FullPath fs s src names) ∧
      ∀ names,FullPath fs s src names →
        ∃ s' dst',realpath fs s dst src bufsize = some (s',dst',some (printed names).length) ∧
        dst'.length = dst.length ∧ dst'.drop bufsize = dst.drop bufsize ∧
        (Terminated bufsize dst' (printed names) ↔
          (printed names).length < bufsize ∨ bufsize - 1 ∈ stops names ∨ dst[bufsize - 1]? = some 0)) ∧
    (∀ cwdBuf cwdName src,cwdBuf.length = currentdirMax → cwdName.length = currentdirMax →
      ∃ s' r out,chdirNamed fs s cwdBuf cwdName src = some (s',r,out) ∧ (r ≠ 0 → out = some cwdName) ∧
        (r = 0 → (Name out ↔ ∃ names,Spine s'.inodes s'.cwd names ∧ ((text names).length < currentdirMax ∨
          (text names).length = currentdirMax ∧ cwdBuf[currentdirMax - 1]? = some slash)))) := by
  obtain ⟨t,ran,inv⟩ := runOpsInv fs ops
  cases Option.some.inj (reached.symm.trans ran)
  constructor
  · intro dst src bufsize some' room
    refine ⟨realpathReturns inv dst src bufsize,fun names full => ?_⟩
    obtain ⟨s',dst',wrote,copied,plain⟩ := realpathCopied inv dst bufsize full
    exact ⟨s',dst',wrote,copied.1,copiedInside copied,copiedTerminated copied some' room plain (printedStops names)⟩
  · intro cwdBuf cwdName src size size'
    obtain ⟨s',r,changed,inv',_⟩ := chdirInv inv src
    refine ⟨s',r,if r ≠ 0 then some cwdName else saveCwd s' cwdBuf cwdName,by simp [chdirNamed,changed],
      fun failed => if_pos failed,fun done => ?_⟩
    rw [if_neg (not_not_intro done)]
    exact chdirSaves inv' size size'

end

/- From directory a, the path of "b". -/
theorem pathBuffersSample : ∃ s,runOps sampleFs [.chdir [97]] = some s ∧ ∃ s' dst' names,
    realpath sampleFs s (List.replicate 8 1) [98] 8 = some (s',dst',some (printed names).length) ∧
      (printed names).length = 4 ∧ Terminated 8 dst' (printed names) := by
  have four : ((runOps sampleFs [.chdir [97]]).bind fun s =>
      (realpath sampleFs s (List.replicate 8 1) [98] 8).map fun out => out.2.2) = some (some 4) := by decide
  obtain ⟨s,ran,_⟩ := runOpsInv sampleFs [.chdir [97]]
  rw [ran,Option.bind_some] at four
  obtain ⟨fails | ⟨names,full⟩,prints⟩ := (pathBuffers ran).1 (List.replicate 8 1) [98] 8 (by decide) (by decide)
  · obtain ⟨s',none'⟩ := fails
    rw [none'] at four
    cases four
  · obtain ⟨s',dst',wrote,_,_,terminated⟩ := prints names full
    have long : (printed names).length = 4 := by
      rw [wrote] at four
      exact Option.some.inj (Option.some.inj four)
    exact ⟨s,ran,s',dst',names,wrote,long,terminated.mpr (Or.inl (by omega))⟩

def deepFs : Fs Nat :=
  { sampleFs with iget := fun _ _ obj => some (obj + 1,.dir,0), readlink := none }

/- realpath("aaaa") in a buffer of four bytes, and chdir to a name of 256. -/
set_option maxRecDepth 8000 in
theorem pathBuffersLeft :
    ((runOps deepFs []).bind fun s => (realpath deepFs s (List.replicate 4 1) (List.replicate 4 97) 4).map Prod.snd) =
      some ([47,97,97,1],some 5) ∧ ¬ Terminated 4 [47,97,97,1] [47,97,97,97,97] ∧
    ((runOps deepFs []).bind fun s =>
      (chdirNamed deepFs s (List.replicate 256 1) (List.replicate 256 0) (List.replicate 256 97)).map Prod.snd) =
        some (0,none) := by
  refine ⟨by decide,?_,by decide⟩
  rintro ⟨k,small,nul,_⟩
  have inside := List.mem_of_getElem? nul
  revert inside
  decide

end Syslinux.Searchdir
