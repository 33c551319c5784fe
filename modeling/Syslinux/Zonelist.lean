import Syslinux.Machine

/-! The zone list of com32/lib/syslinux/zonelist.c. A list is kept with its SMT_END
entry, whose start 0 stands for 2^32. Addresses are addr_t values: naturals below
2^32 with the wrap of each subtraction written out. The malloc outcomes still to come
are threaded through. -/
namespace Syslinux.Zonelist

inductive MemmapType where
  | smtError | smtEnd | smtUndefined | smtFree | smtReserved | smtAlloc | smtZero | smtTerminal
  deriving DecidableEq, Repr
open MemmapType

structure Zone where
  start : Nat
  type : MemmapType
  deriving DecidableEq, Repr

def validTerminalType (type : MemmapType) : Bool := type = smtFree ∨ type = smtTerminal

def syslinuxInitMemmap : List Zone := [⟨0,smtUndefined⟩,⟨0,smtEnd⟩]

/- The first loop of syslinux_add_memmap: zones passed, oldtype, and the list at *mpp. -/
def passBelow (start : Nat) : MemmapType → List Zone → List Zone × MemmapType × List Zone
  | old,[] => ([],old,[])
  | old,mp::rest =>
      if mp.start < start ∧ mp.type ≠ smtEnd then
        let (passed,last,here) := passBelow start mp.type rest
        (mp::passed,last,here)
      else ([],old,mp::rest)

/- The deleting loop: oldtype and the list left at *mpp. -/
def dropCovered (last : Nat) : MemmapType → List Zone → MemmapType × List Zone
  | old,[] => (old,[])
  | old,mp::rest => if sub32 mp.start 1 < last then dropCovered last mp.type rest else (old,mp::rest)

structure Added where
  rv : Int
  list : List Zone
  mallocs : List Bool
  deriving DecidableEq, Repr

def Added.behind (front : List Zone) (r : Added) : Added := ⟨r.rv,front ++ r.list,r.mallocs⟩

/- From the deleting loop on; the list returned is the one at *mpp. -/
def endToken (last : Nat) (type : MemmapType) (mallocs : List Bool) (old : MemmapType)
    (here : List Zone) : Added :=
  match dropCovered last old here with
  | (_,[]) => ⟨0,[],mallocs⟩
  | (old,mp::rest) =>
      if last < sub32 mp.start 1 then
        if old ≠ type then
          match malloc mallocs with
          | (false,mallocs) => ⟨-1,mp::rest,mallocs⟩
          | (true,mallocs) => ⟨0,⟨last+1,old⟩::mp::rest,mallocs⟩
        else ⟨0,mp::rest,mallocs⟩
      else if mp.type = type then ⟨0,rest,mallocs⟩
      else ⟨0,mp::rest,mallocs⟩

/- The splice or reclaim of the start token, with *mpp where the first loop left it. -/
def startToken (mallocs : List Bool) (start last : Nat) (type old : MemmapType) : List Zone → Added
  | [] => ⟨0,[],mallocs⟩
  | mp::rest =>
      if start < mp.start ∨ mp.type = smtEnd then
        if type ≠ old then
          match malloc mallocs with
          | (false,mallocs) => ⟨-1,mp::rest,mallocs⟩
          | (true,mallocs) => (endToken last type mallocs old (mp::rest)).behind [⟨start,type⟩]
        else endToken last type mallocs old (mp::rest)
      else if type ≠ old then (endToken last type mallocs mp.type rest).behind [⟨mp.start,type⟩]
      else endToken last type mallocs old (mp::rest)

def syslinuxAddMemmap (mallocs : List Bool) (list : List Zone) (start len : Nat)
    (type : MemmapType) : Added :=
  if len = 0 then ⟨0,list,mallocs⟩ else
  let last := (start + len - 1) % 2^32
  let (passed,old,here) := passBelow start smtEnd list
  (startToken mallocs start last type old here).behind passed

/- What a list means: the type of the last zone that starts at or below the address. -/
def typeFrom (current : MemmapType) (address : Nat) : List Zone → MemmapType
  | [] => current
  | z::rest => if z.type = smtEnd ∨ address < z.start then current else typeFrom z.type address rest

def typeAt (list : List Zone) (address : Nat) : MemmapType := typeFrom smtEnd address list

def Follows (low : Nat) (previous : MemmapType) : List Zone → Prop
  | [] => False
  | z::rest => (z = ⟨0,smtEnd⟩ ∧ rest = []) ∨
      (z.type ≠ smtEnd ∧ z.type ≠ previous ∧ low < z.start ∧ z.start < 2^32 ∧ Follows z.start z.type rest)

def WellFormed : List Zone → Prop
  | [] => False
  | z::rest => z.start = 0 ∧ z.type ≠ smtEnd ∧ Follows 0 z.type rest

theorem initWellFormed : WellFormed syslinuxInitMemmap :=
  ⟨rfl,by decide,Or.inl ⟨rfl,rfl⟩⟩

theorem typeFromCons {current address z rest} (proper : z.type ≠ smtEnd) (reached : z.start ≤ address) :
    typeFrom current address (z::rest) = typeFrom z.type address rest := by
  simp [typeFrom,proper,Nat.not_lt.mpr reached]

theorem typeFromStop {current address z rest} (stop : z.type = smtEnd ∨ address < z.start) :
    typeFrom current address (z::rest) = current := by
  simp [typeFrom,stop]

theorem followsWeaken {low low' previous list} (h : Follows low previous list) (le : low' ≤ low) :
    Follows low' previous list := by
  cases list with
  | nil => exact h
  | cons z rest =>
    rcases h with stop | ⟨proper,differ,above,bound,next⟩
    · exact Or.inl stop
    · exact Or.inr ⟨proper,differ,by omega,bound,next⟩

theorem typeFromBelow {low previous list} (current : MemmapType) (h : Follows low previous list)
    {a : Nat} (below : a ≤ low) : typeFrom current a list = current := by
  cases list with
  | nil => rfl
  | cons z rest =>
    rcases h with ⟨stop,_⟩ | ⟨_,_,above,_,_⟩
    · exact typeFromStop (Or.inl (by rw [stop]))
    · exact typeFromStop (Or.inr (by omega))

theorem followsGap {low previous z rest} (h : Follows low previous (z::rest)) (gap : low < sub32 z.start 1) :
    low + 1 < 2^32 ∧ Follows (low+1) previous (z::rest) := by
  rcases h with ⟨stop,empty⟩ | ⟨proper,differ,above,bound,next⟩
  · rw [stop] at gap
    simp only [sub32] at gap
    exact ⟨by simp at gap; omega,Or.inl ⟨stop,empty⟩⟩
  · have room : low + 1 < z.start := by unfold sub32 at gap; split at gap <;> omega
    exact ⟨by omega,Or.inr ⟨proper,differ,room,bound,next⟩⟩

theorem dropCoveredSpec {last low old list} (bound : last < 2^32) (h : Follows low old list)
    (proper : old ≠ smtEnd) (le : low ≤ last) :
    ∃ old' z rest, dropCovered last old list = (old',z::rest) ∧ old' ≠ smtEnd ∧
      Follows last old' (z::rest) ∧ ∀ a, last < a → typeFrom old' a (z::rest) = typeFrom old a list := by
  induction list generalizing low old with
  | nil => exact absurd h (by simp [Follows])
  | cons z rest ih =>
    rcases h with ⟨stop,empty⟩ | ⟨ztype,differ,above,zbound,next⟩
    · subst stop empty
      have keep : ¬ sub32 0 1 < last := by unfold sub32; split <;> omega
      exact ⟨old,_,_,by simp [dropCovered,keep],proper,Or.inl ⟨rfl,rfl⟩,fun _ _ => rfl⟩
    · by_cases covered : z.start ≤ last
      · have drop : sub32 z.start 1 < last := by unfold sub32; split <;> omega
        obtain ⟨old',z',rest',eq,p,f,same⟩ := ih next ztype covered
        refine ⟨old',z',rest',by simp [dropCovered,drop,eq],p,f,?_⟩
        intro a ha
        rw [same a ha,typeFromCons ztype (by omega)]
      · have keep : ¬ sub32 z.start 1 < last := by unfold sub32; split <;> omega
        exact ⟨old,z,rest,by simp [dropCovered,keep],proper,
          Or.inr ⟨ztype,differ,by omega,zbound,next⟩,fun _ _ => rfl⟩

/- Whatever the mallocs did, a return of 0 leaves a suffix for a zone of the new type. -/
theorem endTokenSpec {last type mallocs low old here} (bound : last < 2^32) (given : type ≠ smtEnd)
    (h : Follows low old here) (proper : old ≠ smtEnd) (le : low ≤ last)
    (ok : (endToken last type mallocs old here).rv = 0) :
    Follows last type (endToken last type mallocs old here).list ∧
    ∀ a, a < 2^32 → typeFrom type a (endToken last type mallocs old here).list =
      if a ≤ last then type else typeFrom old a here := by
  obtain ⟨old',z,rest,eq,proper',f,same⟩ := dropCoveredSpec bound h proper le
  suffices out : Follows last type (endToken last type mallocs old here).list ∧
      ∀ a, last < a → a < 2^32 →
        typeFrom type a (endToken last type mallocs old here).list = typeFrom old' a (z::rest) by
    refine ⟨out.1,?_⟩
    intro a ha
    split
    · exact typeFromBelow type out.1 (by assumption)
    · rw [out.2 a (by omega) ha,same a (by omega)]
  unfold endToken at ok ⊢
  rw [eq] at ok ⊢
  simp only at ok ⊢
  by_cases gap : last < sub32 z.start 1
  · obtain ⟨room,next⟩ := followsGap f gap
    by_cases differ : old' ≠ type
    · simp only [gap,differ,ne_eq,not_false_eq_true,if_true] at ok ⊢
      split at ok
      · simp at ok
      · refine ⟨Or.inr ⟨proper',differ,Nat.lt_succ_self last,room,next⟩,?_⟩
        intro a ha _
        exact typeFromCons proper' ha
    · simp only [gap,differ,if_true,if_false]
      have same' : old' = type := not_not.mp differ
      subst same'
      exact ⟨f,fun _ _ _ => rfl⟩
  · rcases f with ⟨stop,empty⟩ | ⟨ztype,differ,above,zbound,next⟩
    · subst stop empty
      have other : smtEnd ≠ type := Ne.symm given
      simp only [gap,other,if_false]
      refine ⟨Or.inl ⟨rfl,rfl⟩,?_⟩
      intro a ha hb
      simp [sub32] at gap
      omega
    · have exactly : z.start = last + 1 := by unfold sub32 at gap; split at gap <;> omega
      by_cases merge : z.type = type
      · simp only [gap,merge,if_true,if_false]
        refine ⟨followsWeaken (merge ▸ next) (by omega),?_⟩
        intro a ha _
        rw [typeFromCons ztype (by omega),merge]
      · simp only [gap,merge,if_false]
        refine ⟨Or.inr ⟨ztype,merge,above,zbound,next⟩,?_⟩
        intro a ha _
        rw [typeFromCons ztype (by omega),typeFromCons ztype (by omega)]

/- The same for a walk that has passed the zone starting at `low`, below `start`. -/
theorem startTokenSpec {mallocs start last type low old here} (bound : last < 2^32) (given : type ≠ smtEnd)
    (span : start ≤ last) (h : Follows low old here) (proper : old ≠ smtEnd) (le : low < start)
    (reached : ∀ z rest, here = z::rest → start ≤ z.start ∨ z.type = smtEnd)
    (ok : (startToken mallocs start last type old here).rv = 0) :
    Follows low old (startToken mallocs start last type old here).list ∧
    ∀ a, a < 2^32 → typeFrom old a (startToken mallocs start last type old here).list =
      if start ≤ a ∧ a ≤ last then type else typeFrom old a here := by
  cases here with
  | nil => exact absurd h (by simp [Follows])
  | cons z rest =>
    have before : ∀ a, a < start → typeFrom old a (z::rest) = old := by
      intro a ha
      rcases reached z rest rfl with above | stop
      · exact typeFromStop (Or.inr (by omega))
      · exact typeFromStop (Or.inl stop)
    simp only [startToken] at ok ⊢
    by_cases differ : type ≠ old
    · have spliced : ∀ old' here', Follows low old' here' ∨ Follows start old' here' → old' ≠ smtEnd →
          (∀ a, last < a → typeFrom old' a here' = typeFrom old a (z::rest)) →
          ∀ mallocs, (endToken last type mallocs old' here').rv = 0 →
          Follows low old (⟨start,type⟩::(endToken last type mallocs old' here').list) ∧
          ∀ a, a < 2^32 → typeFrom old a (⟨start,type⟩::(endToken last type mallocs old' here').list) =
            if start ≤ a ∧ a ≤ last then type else typeFrom old a (z::rest) := by
        intro old' here' follows proper' same mallocs ok
        have out : Follows last type (endToken last type mallocs old' here').list ∧
            ∀ a, a < 2^32 → typeFrom type a (endToken last type mallocs old' here').list =
              if a ≤ last then type else typeFrom old' a here' := by
          rcases follows with f | f
          · exact endTokenSpec bound given f proper' (by omega) ok
          · exact endTokenSpec bound given f proper' span ok
        refine ⟨Or.inr ⟨given,differ,le,show start < 2^32 by omega,followsWeaken out.1 span⟩,?_⟩
        intro a ha
        by_cases below : a < start
        · rw [typeFromStop (Or.inr below),if_neg (by omega),before a below]
        · rw [typeFromCons given (by simpa using below),out.2 a ha]
          by_cases inside : a ≤ last
          · rw [if_pos inside,if_pos (by omega)]
          · rw [if_neg inside,if_neg (by omega),same a (by omega)]
      by_cases fresh : start < z.start ∨ z.type = smtEnd
      · simp only [fresh,differ,ne_eq,not_false_eq_true,if_true] at ok ⊢
        split at ok
        · simp at ok
        · exact spliced old (z::rest) (Or.inl h) proper (fun _ _ => rfl) _ ok
      · simp only [fresh,differ,ne_eq,not_false_eq_true,if_true,if_false] at ok ⊢
        rcases h with ⟨stop,_⟩ | ⟨ztype,_,_,_,next⟩
        · exact absurd (Or.inr (by rw [stop])) fresh
        · have aligned : z.start = start := by
            rcases reached z rest rfl with above | stop
            · omega
            · exact absurd stop ztype
          have out := spliced z.type rest (Or.inr (aligned ▸ next)) ztype
            (fun a ha => (typeFromCons ztype (by omega)).symm) _ ok
          simpa only [Added.behind,aligned,List.cons_append,List.nil_append] using out
    · have same : old = type := (not_not.mp differ).symm
      subst same
      have rest' : (endToken last old mallocs old (z::rest)).rv = 0 := by
        simpa only [ne_eq,not_true_eq_false,if_false,ite_self] using ok
      have out := endTokenSpec bound proper h proper (by omega) rest'
      simp only [ne_eq,not_true_eq_false,if_false,ite_self]
      refine ⟨followsWeaken out.1 (by omega),?_⟩
      intro a ha
      rw [out.2 a ha]
      by_cases inside : a ≤ last
      · rw [if_pos inside]
        by_cases below : a < start
        · rw [if_neg (by omega),before a below]
        · rw [if_pos (by omega)]
      · rw [if_neg inside,if_neg (by omega)]

theorem passBelowSpec {start type last mallocs low old list} (bound : last < 2^32) (given : type ≠ smtEnd)
    (span : start ≤ last) (h : Follows low old list) (proper : old ≠ smtEnd) (le : low < start)
    (ok : (startToken mallocs start last type (passBelow start old list).2.1
      (passBelow start old list).2.2).rv = 0) :
    let out := ((passBelow start old list).1 ++ (startToken mallocs start last type
      (passBelow start old list).2.1 (passBelow start old list).2.2).list)
    Follows low old out ∧ ∀ a, a < 2^32 → typeFrom old a out =
      if start ≤ a ∧ a ≤ last then type else typeFrom old a list := by
  induction list generalizing low old with
  | nil => exact absurd h (by simp [Follows])
  | cons z rest ih =>
    by_cases pass : z.start < start ∧ z.type ≠ smtEnd
    · rcases h with ⟨stop,_⟩ | ⟨ztype,differ,above,zbound,next⟩
      · exact absurd (by rw [stop]) pass.2
      · simp only [passBelow,pass,ne_eq,not_false_eq_true,and_self,if_true] at ok ⊢
        obtain ⟨follows,same⟩ := ih next ztype pass.1 ok
        refine ⟨Or.inr ⟨ztype,differ,above,zbound,follows⟩,?_⟩
        intro a ha
        by_cases below : a < z.start
        · rw [List.cons_append,typeFromStop (Or.inr below),typeFromStop (Or.inr below),if_neg (by omega)]
        · rw [List.cons_append,typeFromCons ztype (by omega),typeFromCons ztype (by omega),same a ha]
    · simp only [passBelow,pass,if_false,List.nil_append] at ok ⊢
      refine startTokenSpec bound given span h proper le ?_ ok
      intro y tail eq
      cases eq
      by_cases stop : z.type = smtEnd
      · exact Or.inr stop
      · exact Or.inl (by by_contra low; exact pass ⟨by omega,stop⟩)

/- syslinux_add_memmap repaints [start, start+len) and nothing else. -/
theorem addMemmapSpec {mallocs list start len type} (wf : WellFormed list) (given : type ≠ smtEnd)
    (fits : start + len ≤ 2^32) (ok : (syslinuxAddMemmap mallocs list start len type).rv = 0) :
    WellFormed (syslinuxAddMemmap mallocs list start len type).list ∧
    ∀ a, a < 2^32 → typeAt (syslinuxAddMemmap mallocs list start len type).list a =
      if start ≤ a ∧ a < start + len then type else typeAt list a := by
  unfold syslinuxAddMemmap at ok ⊢
  split
  · rename_i empty
    exact ⟨wf,fun a _ => by rw [if_neg (by omega)]⟩
  rename_i nonempty
  have last : (start + len - 1) % 2^32 = start + len - 1 := Nat.mod_eq_of_lt (by omega)
  simp only [nonempty,if_false,last] at ok ⊢
  cases list with
  | nil => exact absurd wf (by simp [WellFormed])
  | cons z rest =>
    obtain ⟨zero,proper,follows⟩ := wf
    have above : ∀ a, z.start ≤ a := by omega
    by_cases origin : start = 0
    · have stay : ¬ (z.start < start ∧ z.type ≠ smtEnd) := by omega
      have aligned : ¬ (start < z.start ∨ z.type = smtEnd) := by simp [proper]; omega
      simp only [passBelow,stay,if_false,startToken,aligned,given,ne_eq,not_false_eq_true,if_true,
        Added.behind,List.nil_append,List.cons_append] at ok ⊢
      have out := endTokenSpec (by omega) given follows proper (by omega) ok
      refine ⟨⟨zero,given,followsWeaken out.1 (by omega)⟩,?_⟩
      intro a ha
      rw [typeAt,typeFromCons (z := ⟨z.start,type⟩) given (above a),out.2 a ha,typeAt,typeFromCons proper (above a)]
      by_cases inside : a ≤ start + len - 1
      · rw [if_pos inside,if_pos (by omega)]
      · rw [if_neg inside,if_neg (by omega)]
    · have pass : z.start < start ∧ z.type ≠ smtEnd := ⟨by omega,proper⟩
      simp only [passBelow,pass,ne_eq,not_false_eq_true,and_self,if_true,Added.behind,
        List.cons_append] at ok ⊢
      have out := passBelowSpec (by omega) given (by omega) follows proper (by omega) ok
      refine ⟨⟨zero,proper,out.1⟩,?_⟩
      intro a ha
      rw [typeAt,typeFromCons proper (above a),out.2 a ha,typeAt,typeFromCons proper (above a)]
      by_cases inside : start ≤ a ∧ a ≤ start + len - 1
      · rw [if_pos inside,if_pos (by omega)]
      · rw [if_neg inside,if_neg (by omega)]

theorem endTokenOk (last : Nat) (type old : MemmapType) (here : List Zone) :
    (endToken last type [] old here).rv = 0 := by
  simp only [endToken,malloc]
  split
  · rfl
  · split
    · split <;> rfl
    · split <;> rfl

theorem addMemmapOk (list : List Zone) (start len : Nat) (type : MemmapType) :
    (syslinuxAddMemmap [] list start len type).rv = 0 := by
  unfold syslinuxAddMemmap
  split
  · rfl
  · simp only [Added.behind]
    cases (passBelow start smtEnd list).2.2 with
    | nil => rfl
    | cons mp rest =>
      simp only [startToken,malloc,Added.behind]
      split
      · split <;> exact endTokenOk ..
      · split <;> exact endTokenOk ..

structure Add where
  start : Nat
  len : Nat
  type : MemmapType
  deriving DecidableEq, Repr

def Add.Legal (op : Add) : Prop := op.start + op.len ≤ 2^32 ∧ op.type ≠ smtEnd

def Add.covers (op : Add) (address : Nat) : Bool :=
  0 < op.len ∧ op.start ≤ address ∧ address < op.start + op.len

def addAll (list : List Zone) : List Add → List Zone
  | [] => list
  | op::rest => addAll (syslinuxAddMemmap [] list op.start op.len op.type).list rest

theorem addOneSpec {list start len type} (wf : WellFormed list) (given : type ≠ smtEnd) (fits : start + len ≤ 2^32) :
    WellFormed (addAll list [⟨start,len,type⟩]) ∧
    ∀ a, a < 2^32 → typeAt (addAll list [⟨start,len,type⟩]) a =
      if start ≤ a ∧ a < start + len then type else typeAt list a :=
  addMemmapSpec wf given fits (addMemmapOk list start len type)

def lastCovering (ops : List Add) (address : Nat) : MemmapType :=
  match ops.reverse.find? (fun op => op.covers address) with
  | some op => op.type
  | none => smtUndefined

/- The shape the header comment of zonelist.c promises, spelled out over the zones
before the single SMT_END entry. -/
structure Shape (list zones : List Zone) : Prop where
  ends : list = zones ++ [⟨0,smtEnd⟩]
  first : zones.head?.map Zone.start = some 0
  sorted : (zones.map Zone.start).Pairwise (· < ·)
  merged : (zones.map Zone.type).IsChain (· ≠ ·)
  proper : ∀ z ∈ zones, z.type ≠ smtEnd ∧ z.start < 2^32

theorem followsShape {low previous list} (h : Follows low previous list) :
    ∃ zones, list = zones ++ [⟨0,smtEnd⟩] ∧ (zones.map Zone.start).Pairwise (· < ·) ∧
      (previous::zones.map Zone.type).IsChain (· ≠ ·) ∧
      ∀ z ∈ zones, z.type ≠ smtEnd ∧ z.start < 2^32 ∧ low < z.start := by
  induction list generalizing low previous with
  | nil => exact absurd h (by simp [Follows])
  | cons z rest ih =>
    rcases h with ⟨stop,empty⟩ | ⟨proper,differ,above,bound,next⟩
    · subst stop empty
      exact ⟨[],rfl,List.Pairwise.nil,List.IsChain.singleton _,by simp⟩
    · obtain ⟨zones,eq,sorted,merged,each⟩ := ih next
      refine ⟨z::zones,by rw [eq]; rfl,?_,?_,?_⟩
      · refine List.Pairwise.cons ?_ sorted
        intro start mem
        obtain ⟨y,hy,same⟩ := List.mem_map.mp mem
        exact same ▸ (each y hy).2.2
      · exact List.IsChain.cons_cons (Ne.symm differ) merged
      · intro y mem
        rcases List.mem_cons.mp mem with rfl | inside
        · exact ⟨proper,bound,above⟩
        · have h := each y inside
          exact ⟨h.1,h.2.1,Nat.lt_trans above h.2.2⟩

theorem wellFormedShape {list} (wf : WellFormed list) : ∃ zones, Shape list zones := by
  cases list with
  | nil => exact absurd wf (by simp [WellFormed])
  | cons z rest =>
    obtain ⟨zero,proper,follows⟩ := wf
    obtain ⟨zones,eq,sorted,merged,each⟩ := followsShape follows
    refine ⟨z::zones,by rw [eq]; rfl,by simp [zero],?_,merged,?_⟩
    · refine List.Pairwise.cons ?_ sorted
      intro start mem
      obtain ⟨y,hy,same⟩ := List.mem_map.mp mem
      rw [zero,← same]
      exact (each y hy).2.2
    · intro y mem
      rcases List.mem_cons.mp mem with rfl | inside
      · exact ⟨proper,by omega⟩
      · exact ⟨(each y inside).1,(each y inside).2.1⟩

theorem addAllSpec {list} (wf : WellFormed list) (ops : List Add) (legal : ∀ op ∈ ops, op.Legal) :
    WellFormed (addAll list ops) ∧ ∀ a, a < 2^32 → typeAt (addAll list ops) a =
      match ops.reverse.find? (fun op => op.covers a) with
      | some op => op.type
      | none => typeAt list a := by
  induction ops generalizing list with
  | nil => exact ⟨wf,fun _ _ => rfl⟩
  | cons op rest ih =>
    obtain ⟨fits,given⟩ := legal op List.mem_cons_self
    obtain ⟨wf',painted⟩ := addMemmapSpec wf given fits (addMemmapOk list op.start op.len op.type)
    obtain ⟨wfEnd,types⟩ := ih wf' (fun op mem => legal op (List.mem_cons_of_mem _ mem))
    refine ⟨wfEnd,?_⟩
    intro a ha
    rw [addAll,types a ha,List.reverse_cons,List.find?_append]
    cases rest.reverse.find? (fun op => op.covers a) with
    | some later => rfl
    | none =>
      simp only [painted a ha,Option.none_or,List.find?_singleton]
      by_cases inside : op.start ≤ a ∧ a < op.start + op.len
      · rw [if_pos inside,if_pos (by simp only [Add.covers,decide_eq_true_eq]; omega)]
      · rw [if_neg inside,if_neg (by simp only [Add.covers,decide_eq_true_eq]; omega)]

theorem initTypes (a : Nat) : typeAt syslinuxInitMemmap a = smtUndefined := by
  simp [typeAt,syslinuxInitMemmap,typeFrom]

theorem memmapTracksAdds (ops : List Add) (legal : ∀ op ∈ ops, op.Legal) :
    (∃ zones, Shape (addAll syslinuxInitMemmap ops) zones) ∧
    ∀ a, a < 2^32 → typeAt (addAll syslinuxInitMemmap ops) a = lastCovering ops a := by
  obtain ⟨wf,types⟩ := addAllSpec initWellFormed ops legal
  refine ⟨wellFormedShape wf,?_⟩
  intro a ha
  rw [types a ha,lastCovering,initTypes]

theorem memmapTracksTwoAdds :
    (∃ zones, Shape (addAll syslinuxInitMemmap [⟨0x1000,0x2000,smtFree⟩,⟨0x1800,0x100,smtAlloc⟩]) zones) ∧
    ∀ a, a < 2^32 → typeAt (addAll syslinuxInitMemmap [⟨0x1000,0x2000,smtFree⟩,⟨0x1800,0x100,smtAlloc⟩]) a =
      lastCovering [⟨0x1000,0x2000,smtFree⟩,⟨0x1800,0x100,smtAlloc⟩] a :=
  memmapTracksAdds _ (by simp [Add.Legal])

end Syslinux.Zonelist
