import Syslinux.Shuffle

/-! Where syslinux_do_shuffle puts its descriptors. The address is a 32-bit difference that is
only compared with the start of the zone: it lies in the zone exactly when the memory asked
for is no more than the end of the zone. -/
namespace Syslinux.Shuffle
open Zonelist Zonelist.MemmapType Relocation Movebits

/- The blots that syslinux_do_shuffle makes in its first copy of the map. -/
def blots (fraglist : List Move) : List Add :=
  ⟨0,1024 * 1024,smtReserved⟩::fraglist.flatMap (fun f => [⟨f.src,f.len,smtAlloc⟩,⟨f.dst,f.len,smtAlloc⟩])

def freeZone (memmap : List Zone) (fraglist : List Move) : Option Area :=
  syslinuxMemmapLargest (addAll memmap (blots fraglist)) smtFree

/- A fragment is a region of the 32-bit address space, at both ends of the move. -/
def Inside (f : Move) : Prop := f.src + f.len ≤ 2^32 ∧ f.dst + f.len ≤ 2^32
instance (f : Move) : Decidable (Inside f) := by unfold Inside; infer_instance

structure Placed (memmap : List Zone) (fraglist : List Move) (shuffler : Nat) (sized : Sized) : Prop where
  zone : ∃ before z next after, memmap = before ++ z::next::after ∧ z.type = smtFree ∧
    z.start ≤ sized.descaddr ∧ sized.descaddr + sized.descmem ≤ zoneEnd next
  high : 1024 * 1024 ≤ sized.descaddr
  apart : ∀ f ∈ fraglist, ∀ a, sized.descaddr ≤ a → a < sized.descaddr + sized.descmem → ¬f.inSrc a ∧ ¬f.inDst a
  room : (sized.moves.length + countZero memmap + 1) * sizeofDescriptor + shuffler ≤ sized.descmem

section Mallocs
variable {last start len : Nat} {type old : MemmapType} {mallocs : List Bool} {here list : List Zone}

/- A call that returns 0 does not depend on how its mallocs came out. -/
theorem endTokenList (ok : (endToken last type mallocs old here).rv = 0) :
    (endToken last type mallocs old here).list = (endToken last type [] old here).list := by
  unfold endToken at ok ⊢
  split at ok
  · rfl
  · split at ok
    · rename_i gap
      rw [if_pos gap,if_pos gap]
      split at ok
      · rename_i differ
        rw [if_pos differ,if_pos differ]
        rcases outcome : malloc mallocs with ⟨fine,rest⟩
        rw [outcome] at ok
        cases fine with
        | false => simp at ok
        | true => rfl
      · rename_i same
        rw [if_neg same,if_neg same]
    · rename_i close
      rw [if_neg close,if_neg close]
      split <;> rfl

theorem startTokenList (ok : (startToken mallocs start last type old here).rv = 0) :
    (startToken mallocs start last type old here).list = (startToken [] start last type old here).list := by
  cases here with
  | nil => rfl
  | cons mp rest =>
    rw [startToken,startToken]
    rw [startToken] at ok
    split at ok
    · rename_i splice
      rw [if_pos splice,if_pos splice]
      split at ok
      · rename_i differ
        rw [if_pos differ,if_pos differ]
        rcases outcome : malloc mallocs with ⟨fine,later⟩
        rw [outcome] at ok
        cases fine with
        | false => simp at ok
        | true => exact congrArg ([⟨start,type⟩] ++ ·) (endTokenList ok)
      · rename_i same
        rw [if_neg same,if_neg same]
        exact endTokenList ok
    · rename_i reclaim
      rw [if_neg reclaim,if_neg reclaim]
      split at ok
      · rename_i differ
        rw [if_pos differ,if_pos differ]
        exact congrArg ([⟨mp.start,type⟩] ++ ·) (endTokenList ok)
      · rename_i same
        rw [if_neg same,if_neg same]
        exact endTokenList ok

theorem addMemmapList (ok : (syslinuxAddMemmap mallocs list start len type).rv = 0) :
    (syslinuxAddMemmap mallocs list start len type).list = (syslinuxAddMemmap [] list start len type).list := by
  unfold syslinuxAddMemmap at ok ⊢
  split at ok
  · rename_i empty
    rw [if_pos empty,if_pos empty]
  · rename_i nonempty
    rw [if_neg nonempty,if_neg nonempty]
    exact congrArg (_ ++ ·) (startTokenList ok)

end Mallocs

section Find
variable {memmap rxmap rxmap' : List Zone} {fraglist : List Move} {zone : Area} {m m' : List Bool}

theorem addFreelistList {start len : Nat} {type : MemmapType} (ok : addFreelist rxmap start len type m = .ok (rxmap',m')) :
    rxmap' = (syslinuxAddMemmap [] rxmap start len type).list := by
  simp only [addFreelist] at ok
  split at ok
  · rename_i fine
    cases Except.ok.inj ok
    exact addMemmapList fine
  · cases ok

theorem dupMemmapOk (ok : syslinuxDupMemmap memmap m = .ok (rxmap,m')) : rxmap = memmap := by
  induction memmap generalizing rxmap m m' with
  | nil => exact (workPure ok).1
  | cons z rest ih =>
    unfold syslinuxDupMemmap at ok
    split at ok
    · cases ok
    · obtain ⟨tail,n,first,last⟩ := workBind ok
      rw [(workPure last).1,ih first]

theorem allocateFragmentsOk (ok : allocateFragments rxmap fraglist m = .ok (rxmap',m')) : rxmap' = addAll rxmap
    (fraglist.flatMap (fun f => [⟨f.src,f.len,smtAlloc⟩,⟨f.dst,f.len,smtAlloc⟩])) := by
  induction fraglist generalizing rxmap m with
  | nil => exact (workPure ok).1
  | cons f rest ih =>
    obtain ⟨rx1,m1,first,ok⟩ := workBind ok
    obtain ⟨rx2,m2,second,ok⟩ := workBind ok
    rw [ih ok,addFreelistList second,addFreelistList first]
    rfl

theorem findZoneOk (ok : findZone fraglist memmap m = .ok (zone,m')) : freeZone memmap fraglist = some zone := by
  obtain ⟨rx0,m0,dup,ok⟩ := workBind ok
  obtain ⟨rx1,m1,reserved,ok⟩ := workBind ok
  obtain ⟨rx2,m2,allocated,ok⟩ := workBind ok
  rw [dupMemmapOk dup] at reserved
  have blotted : rx2 = addAll memmap (blots fraglist) := by
    rw [allocateFragmentsOk allocated,addFreelistList reserved]
    rfl
  rw [freeZone,← blotted]
  cases found : syslinuxMemmapLargest rx2 smtFree with
  | none =>
    rw [found] at ok
    cases ok
  | some area =>
    rw [found] at ok
    rw [(workPure ok).1]

end Find

section Zones
variable {whole list memmap : List Zone} {fraglist : List Move} {zone area : Area} {type : MemmapType}

structure Typed (whole : List Zone) (type : MemmapType) (area : Area) : Prop where
  some1 : 0 < area.len
  fits : area.start + area.len ≤ 2^32
  types : ∀ a, area.has a → typeAt whole a = type

theorem largestFromTyped {best : Option Area} (suffix : Suffix whole list)
    (known : ∀ b, best = some b → Typed whole type b)
    (ok : memmapLargestFrom type best list = some area) : Typed whole type area := by
  induction list generalizing best with
  | nil => exact known area (by simpa [memmapLargestFrom] using ok)
  | cons z rest ih =>
    cases rest with
    | nil => exact known area (by simpa [memmapLargestFrom] using ok)
    | cons next rest =>
      simp only [memmapLargestFrom] at ok
      split at ok
      · exact known area ok
      · rename_i proper
        obtain ⟨suffix',n,t,eq,above,top,types,_⟩ := suffixNext suffix proper
        cases eq
        split at ok
        · rename_i better
          refine ih suffix' ?_ ok
          intro b eq
          cases Option.some.inj eq
          have size := zoneSize suffix proper
          refine ⟨Nat.lt_of_le_of_lt (Nat.zero_le _) better.2,by simp only; omega,?_⟩
          intro a inside
          simp only [Area.has] at inside
          rw [types a inside.1 (by omega)]
          exact better.1
        · exact ih suffix' known ok

theorem blotsLegal (inside : ∀ f ∈ fraglist, Inside f) : ∀ op ∈ blots fraglist, op.Legal := by
  intro op mem
  simp only [blots,List.mem_cons,List.mem_flatMap,List.not_mem_nil,or_false] at mem
  rcases mem with rfl | ⟨f,mem,rfl | rfl⟩
  · exact ⟨by decide,by simp⟩
  · exact ⟨(inside f mem).1,by simp⟩
  · exact ⟨(inside f mem).2,by simp⟩

theorem blottedFree (wf : WellFormed memmap) (inside : ∀ f ∈ fraglist, Inside f) {a : Nat} (small : a < 2^32)
    (isFree : typeAt (addAll memmap (blots fraglist)) a = smtFree) :
    typeAt memmap a = smtFree ∧ 1024 * 1024 ≤ a ∧ ∀ f ∈ fraglist, ¬f.inSrc a ∧ ¬f.inDst a := by
  have notFree : ∀ op ∈ blots fraglist, op.type ≠ smtFree := by
    intro op mem
    simp only [blots,List.mem_cons,List.mem_flatMap,List.not_mem_nil,or_false] at mem
    rcases mem with rfl | ⟨f,mem,rfl | rfl⟩ <;> simp
  rw [(addAllSpec wf _ (blotsLegal inside)).2 a small] at isFree
  cases found : (blots fraglist).reverse.find? (fun op => op.covers a) with
  | some op =>
    rw [found] at isFree
    exact absurd isFree (notFree op (by simpa using List.mem_of_find?_eq_some found))
  | none =>
    rw [found] at isFree
    have outside : ∀ op ∈ blots fraglist, op.covers a = false := by
      intro op mem
      simpa using List.find?_eq_none.mp found op (by simpa using mem)
    refine ⟨isFree,?_,?_⟩
    · have low := outside ⟨0,1024 * 1024,smtReserved⟩ (by simp [blots])
      simp only [Add.covers,decide_eq_false_iff_not] at low
      omega
    · intro f mem
      have src := outside ⟨f.src,f.len,smtAlloc⟩ (by simp only [blots,List.mem_cons,List.mem_flatMap]; exact Or.inr ⟨f,mem,by simp⟩)
      have dst := outside ⟨f.dst,f.len,smtAlloc⟩ (by simp only [blots,List.mem_cons,List.mem_flatMap]; exact Or.inr ⟨f,mem,by simp⟩)
      simp only [Add.covers,decide_eq_false_iff_not] at src dst
      unfold Move.inSrc Move.inDst
      omega

/- A run of one type does not cross a zone boundary, as neighbours differ in type. -/
theorem runInZoneFrom {x y : Nat} {z : Zone} {rest : List Zone} (some1 : x < y) (top : y ≤ 2^32)
    (follows : Follows z.start z.type rest) (reach : z.start ≤ x)
    (run : ∀ a, x ≤ a → a < y → typeFrom z.type a rest = type) :
    ∃ before z' next after, z::rest = before ++ z'::next::after ∧ z'.type = type ∧ z'.start ≤ x ∧ y ≤ zoneEnd next := by
  induction rest generalizing z with
  | nil => exact absurd follows (by simp [Follows])
  | cons n tail ih =>
    rcases follows with ⟨stop,empty⟩ | ⟨proper,differ,above,bound,later⟩
    · subst stop empty
      have here : z.type = type := by
        rw [← run x le_rfl some1,typeFromStop (Or.inl rfl)]
      exact ⟨[],z,_,[],rfl,here,reach,by simpa [zoneEnd] using top⟩
    by_cases inZ : x < n.start
    · have here : z.type = type := by
        rw [← run x le_rfl some1,typeFromStop (Or.inr inZ)]
      refine ⟨[],z,n,tail,rfl,here,reach,?_⟩
      rw [zoneEnd,if_neg proper]
      by_contra crossed
      have next := run n.start (by omega) (by omega)
      rw [typeFromCons proper le_rfl,typeFromBelow n.type later le_rfl] at next
      exact differ (next.trans here.symm)
    · obtain ⟨before,z',next,after,eq,rest⟩ := ih later (by omega) (by
        intro a low high
        rw [← run a low high,typeFromCons proper (by omega)])
      exact ⟨z::before,z',next,after,by rw [eq]; rfl,rest⟩

theorem runInZone {x y : Nat} (wf : WellFormed memmap) (some1 : x < y) (top : y ≤ 2^32)
    (run : ∀ a, x ≤ a → a < y → typeAt memmap a = type) :
    ∃ before z next after, memmap = before ++ z::next::after ∧ z.type = type ∧ z.start ≤ x ∧ y ≤ zoneEnd next := by
  cases memmap with
  | nil => exact absurd wf (by simp [WellFormed])
  | cons z rest =>
    obtain ⟨first,proper,follows⟩ := wf
    refine runInZoneFrom some1 top (first ▸ follows) (by omega) ?_
    intro a low high
    rw [← run a low high,typeAt,typeFromCons proper (by omega)]

theorem zoneEndTop {before after : List Zone} {z next : Zone} (wf : WellFormed (before ++ z::next::after)) :
    zoneEnd next ≤ 2^32 := by
  obtain ⟨zones,shape⟩ := wellFormedShape wf
  unfold zoneEnd
  split
  · exact le_rfl
  · rename_i proper
    have mem : next ∈ zones ++ [⟨0,smtEnd⟩] := by
      rw [← shape.ends]
      simp
    rcases List.mem_append.mp mem with mem | mem
    · exact (shape.proper next mem).2.le
    · simp only [List.mem_singleton] at mem
      exact absurd (by rw [mem]) proper

end Zones

section Placement
variable {memmap : List Zone} {fraglist : List Move} {zone : Area} {shuffler : Nat} {sized : Sized}

theorem alignDownLe (a : Nat) : alignDown a ≤ a ∧ a < alignDown a + 4 := by
  unfold alignDown
  omega

/- Without a wrap the area ends at most three bytes below the end of the zone. -/
theorem descaddrInside {descmem : Nat} (fits : zone.start + zone.len ≤ 2^32)
    (reach : descmem ≤ zone.start + zone.len) (passed : zone.start ≤ descaddrOf zone descmem) :
    descaddrOf zone descmem + descmem ≤ zone.start + zone.len := by
  unfold descaddrOf at *
  by_cases empty : descmem = 0
  · subst descmem
    have down := alignDownLe (sub32 (add32 zone.start zone.len) 0)
    have le : add32 zone.start zone.len ≤ zone.start + zone.len := Nat.mod_le _ _
    rw [sub32Eq (Nat.zero_le _)] at *
    omega
  · have down := alignDownLe (sub32 (add32 zone.start zone.len) descmem)
    have exactly : sub32 (add32 zone.start zone.len) descmem = zone.start + zone.len - descmem :=
      endMinus fits (by omega) reach
    omega

theorem descaddrOutside {descmem : Nat} (small : descmem < 2^32) (high : 4 ≤ zone.start)
    (wrapped : zone.start + zone.len < descmem) : 2^32 < descaddrOf zone descmem + descmem := by
  unfold descaddrOf
  have down := alignDownLe (sub32 (add32 zone.start zone.len) descmem)
  have exactly : sub32 (add32 zone.start zone.len) descmem = 2^32 + (zone.start + zone.len) - descmem := by
    rw [add32Eq (by omega),sub32,if_neg (by omega)]
    omega
  omega

structure Chosen (zone : Area) (shuffler blocks : Nat) (sized : Sized) : Prop where
  mem : sized.descmem = descmemOf shuffler blocks
  addr : sized.descaddr = descaddrOf zone sized.descmem
  passed : zone.start ≤ sized.descaddr

theorem placedIff {blocks : Nat} (wf : WellFormed memmap) (inside : ∀ f ∈ fraglist, Inside f)
    (found : freeZone memmap fraglist = some zone) (chosen : Chosen zone shuffler blocks sized) :
    Placed memmap fraglist shuffler sized ↔
      descmemOf shuffler blocks ≤ zone.start + zone.len ∧
      (sized.moves.length + countZero memmap + 1) * sizeofDescriptor + shuffler ≤ descmemOf shuffler blocks := by
  have wfBlotted := (addAllSpec wf _ (blotsLegal inside)).1
  have typed : Typed (addAll memmap (blots fraglist)) smtFree zone :=
    largestFromTyped (suffixWhole wfBlotted) (by simp) found
  obtain ⟨some1,fits,types⟩ := typed
  have isFree : ∀ a, zone.has a → typeAt memmap a = smtFree ∧ 1024 * 1024 ≤ a ∧
      ∀ f ∈ fraglist, ¬f.inSrc a ∧ ¬f.inDst a := by
    intro a has
    exact blottedFree wf inside (by unfold Area.has at has; omega) (types a has)
  have high := (isFree zone.start ⟨le_rfl,by omega⟩).2.1
  rw [← chosen.mem]
  constructor
  · intro placed
    refine ⟨?_,placed.room⟩
    by_contra wrapped
    obtain ⟨before,z,next,after,eq,_,_,below⟩ := placed.zone
    have top := zoneEndTop (eq ▸ wf)
    have small : sized.descmem < 2^32 := by
      rw [chosen.mem]
      exact Nat.mod_lt _ (by decide)
    have beyond := descaddrOutside small (by omega) (Nat.lt_of_not_le wrapped)
    rw [← chosen.addr] at beyond
    omega
  · rintro ⟨reach,room⟩
    have passed := chosen.passed
    have below := descaddrInside fits reach (chosen.addr ▸ passed)
    rw [← chosen.addr] at below
    refine ⟨?_,by omega,?_,room⟩
    · obtain ⟨before,z,next,after,eq,type,start,stop⟩ := runInZone wf (by omega : zone.start < zone.start + zone.len)
        fits (fun a low high => (isFree a ⟨low,high⟩).1)
      exact ⟨before,z,next,after,eq,type,by omega,by omega⟩
    · intro f mem a low high
      exact (isFree a ⟨by omega,by omega⟩).2.2 f mem

/- The lists at the head of the answers that each need more blocks than the one before. -/
def rejectedLists (nzero : Nat) : Nat → List (Option (List Move)) → List (List Move)
  | blocks,some moves::answers =>
      if blocksFor (moves.length + nzero) ≤ blocks then []
      else moves::rejectedLists nzero (blocksFor (moves.length + nzero)) answers
  | _,_ => []

def blocksAfter (nzero start : Nat) (rejected : List (List Move)) : Nat :=
  rejected.getLast?.elim start (fun moves => blocksFor (moves.length + nzero))

theorem blocksAfterCons (nzero start : Nat) (moves : List Move) (rejected : List (List Move)) :
    blocksAfter nzero start (moves::rejected) = blocksAfter nzero (blocksFor (moves.length + nzero)) rejected := by
  cases rejected with
  | nil => rfl
  | cons r rest =>
    rw [blocksAfter,blocksAfter,List.getLast?_cons_cons,List.getLast?_cons]
    rfl

theorem sizingLoopOk {nzero blocks : Nat} {answers : List (Option (List Move))} {rxmap : List Zone} {m m' : List Bool}
    (left : sizingLoop shuffler nzero zone answers rxmap blocks m = .ok (sized,m')) :
    (∃ more, answers = (rejectedLists nzero blocks answers).map some ++ some sized.moves::more) ∧
      Chosen zone shuffler (blocksAfter nzero blocks (rejectedLists nzero blocks answers)) sized ∧
      blocksFor (sized.moves.length + nzero) ≤ blocksAfter nzero blocks (rejectedLists nzero blocks answers) := by
  induction answers generalizing rxmap blocks m with
  | nil => cases left
  | cons answer answers ih =>
    unfold sizingLoop at left
    simp only at left
    split at left
    · cases left
    rename_i passed
    obtain ⟨rxmap1,m1,_,left⟩ := workBind left
    cases answer with
    | none => cases left
    | some moves =>
      simp only at left
      rw [rejectedLists]
      split at left
      · rename_i enough
        obtain ⟨rfl,_⟩ := workPure left
        rw [if_pos enough]
        exact ⟨⟨answers,rfl⟩,⟨rfl,rfl,Nat.le_of_not_lt passed⟩,enough⟩
      · rename_i more
        obtain ⟨⟨rest,eq⟩,chosen,enough⟩ := ih left
        rw [if_neg more,blocksAfterCons]
        exact ⟨⟨rest,congrArg (some moves::·) eq⟩,chosen,enough⟩

/- The memory for the blocks that the last rejected list asked for, or the zero operations
alone where none was rejected, as a size_t reaches no further than the end of the zone; past
2^32 it must still do for the final list. -/
def Fits (shuffler nzero : Nat) (zone : Area) (rejected : List (List Move)) (moves : List Move) : Prop :=
  let size := areaSize shuffler (blocksAfter nzero (blocksFor nzero) rejected)
  size % 2^32 ≤ zone.start + zone.len ∧
    (size < 2^32 ∨ (moves.length + nzero + 1) * sizeofDescriptor + shuffler ≤ size % 2^32)

/- The lists that the sizing loop rejects, from the blocks for the zero operations alone on. -/
def rejectedFor (memmap : List Zone) (answers : List (Option (List Move))) : List (List Move) :=
  rejectedLists (countZero memmap) (blocksFor (countZero memmap)) answers

theorem sizeAreaOk {answers : List (Option (List Move))} {m m' : List Bool}
    (left : sizeArea shuffler answers fraglist memmap m = .ok (sized,m')) :
    ∃ zone, freeZone memmap fraglist = some zone ∧
      (∃ more, answers = (rejectedFor memmap answers).map some ++ some sized.moves::more) ∧
      Chosen zone shuffler (blocksAfter (countZero memmap) (blocksFor (countZero memmap)) (rejectedFor memmap answers)) sized ∧
      blocksFor (sized.moves.length + countZero memmap) ≤
        blocksAfter (countZero memmap) (blocksFor (countZero memmap)) (rejectedFor memmap answers) := by
  obtain ⟨zone,m1,found,left⟩ := workBind left
  obtain ⟨rxmap,m2,_,left⟩ := workBind left
  exact ⟨zone,findZoneOk found,sizingLoopOk left⟩

theorem roomOf {n blocks : Nat} (enough : blocksFor n ≤ blocks) :
    (n + 1) * sizeofDescriptor + shuffler ≤ areaSize shuffler blocks := by
  unfold blocksFor descBlockSize at enough
  unfold areaSize sizeofDescriptor descBlockSize
  omega

theorem shuffleAreaPlaced (wf : WellFormed memmap) (inside : ∀ f ∈ fraglist, Inside f) (shuffler : Nat)
    (answers : List (Option (List Move))) (m : List Bool) {sized : Sized} {m' : List Bool}
    (left : sizeArea shuffler answers fraglist memmap m = .ok (sized,m')) :
    ∃ zone, freeZone memmap fraglist = some zone ∧
      (∃ more, answers = (rejectedFor memmap answers).map some ++ some sized.moves::more) ∧
      (Placed memmap fraglist shuffler sized ↔
        Fits shuffler (countZero memmap) zone (rejectedFor memmap answers) sized.moves) := by
  obtain ⟨zone,found,eq,chosen,enough⟩ := sizeAreaOk left
  refine ⟨zone,found,eq,?_⟩
  rw [placedIff wf inside found chosen,Fits]
  refine and_congr_right fun _ => ?_
  constructor
  · exact Or.inr
  · rintro (small | room)
    · rw [descmemOf,Nat.mod_eq_of_lt small]
      exact roomOf enough
    · exact room

theorem zeroDescriptorsLength {z : Zone} {rest : List Zone} (follows : Follows z.start z.type rest) (proper : z.type ≠ smtEnd) :
    (zeroDescriptors (z::rest)).length = countZero (z::rest) := by
  induction rest generalizing z with
  | nil => exact absurd follows (by simp [Follows])
  | cons next rest ih =>
    have later : (zeroDescriptors (next::rest)).length = countZero (next::rest) := by
      rcases follows with ⟨stop,rfl⟩ | ⟨some',_,_,_,follows⟩
      · simp [zeroDescriptors,countZero,stop]
      · exact ih follows some'
    rw [zeroDescriptors,countZero,if_neg proper,if_neg proper]
    split
    · rw [List.length_cons,later,Nat.add_comm]
    · rw [later,Nat.zero_add]

theorem doShuffleFits (wf : WellFormed memmap) {answers : List (Option (List Move))} {entryPoint entryType addr : Nat}
    {descriptors : List Descriptor} {m m' : List Bool}
    (done : syslinuxDoShuffle shuffler answers fraglist memmap entryPoint entryType m = .ok ((addr,descriptors),m')) :
    ∃ sized m1, sizeArea shuffler answers fraglist memmap m = .ok (sized,m1) ∧ addr = sized.descaddr ∧
      (Placed memmap fraglist shuffler sized → descriptors.length*sizeofDescriptor + shuffler ≤ sized.descmem) := by
  obtain ⟨sized,m1,area,done⟩ := workBind done
  refine ⟨sized,m1,area,?_⟩
  cases memory : malloc m1 with
  | mk room later =>
    cases room with
    | false =>
      rw [memory] at done
      cases done
    | true =>
      rw [memory] at done
      cases done
      refine ⟨rfl,fun placed => ?_⟩
      have count : (zeroDescriptors memmap).length = countZero memmap := by
        cases memmap with
        | nil => rfl
        | cons z rest => exact zeroDescriptorsLength (wf.1 ▸ wf.2.2) wf.2.1
      simpa [count,Nat.add_assoc] using placed.room

end Placement

/- Free memory up to one page above 1 MB. -/
def smallMap : List Zone := [⟨0,smtFree⟩,⟨0x101000,smtReserved⟩,⟨0,smtEnd⟩]

theorem smallMapWellFormed : WellFormed smallMap :=
  ⟨rfl,by decide,Or.inr ⟨by decide,by decide,by decide,by decide,Or.inl ⟨rfl,rfl⟩⟩⟩

theorem shuffleAreaPlacedSmall :
    sizeArea 512 [some []] [] smallMap [] = .ok (⟨1052148,524,[]⟩,[]) ∧
    ∃ zone, freeZone smallMap [] = some zone ∧
      (∃ more, [some []] = (rejectedFor smallMap [some []]).map some ++ some (Sized.mk 1052148 524 []).moves::more) ∧
      (Placed smallMap [] 512 ⟨1052148,524,[]⟩ ↔ Fits 512 (countZero smallMap) zone (rejectedFor smallMap [some []]) []) := by
  have left : sizeArea 512 [some []] [] smallMap [] = .ok (⟨1052148,524,[]⟩,[]) := by rfl
  exact ⟨left,shuffleAreaPlaced smallMapWellFormed (by simp) 512 _ [] left⟩

section Many
variable {x y : Nat} {z : Zone} {rest : List Zone}

/- The search for the largest zone where only one stretch is free. -/
theorem largestNone {best : Option Area} (follows : Follows z.start z.type rest) (bound : z.start < 2^32)
    (none1 : ∀ a, z.start ≤ a → a < 2^32 → typeFrom z.type a rest ≠ smtFree) :
    memmapLargestFrom smtFree best (z::rest) = best := by
  induction rest generalizing z with
  | nil => rfl
  | cons n tail ih =>
    have here : z.type ≠ smtFree := by
      rw [← typeFromBelow z.type follows le_rfl]
      exact none1 z.start le_rfl bound
    simp only [memmapLargestFrom,here,false_and,if_false]
    rcases follows with ⟨stop,empty⟩ | ⟨proper,differ,above,nbound,later⟩
    · subst stop empty
      split <;> rfl
    · split
      · rfl
      · refine ih later nbound ?_
        intro a low high
        have reached : typeFrom z.type a (n::tail) = typeFrom n.type a tail := typeFromCons proper low
        rw [← reached]
        exact none1 a (by omega) high

theorem largestOnly (some1 : x < y) (top : y ≤ 2^32) (low : 0 < x) (follows : Follows z.start z.type rest)
    (reach : z.start ≤ x) (zproper : z.type ≠ smtEnd)
    (only : ∀ a, z.start ≤ a → a < 2^32 → (typeFrom z.type a rest = smtFree ↔ x ≤ a ∧ a < y)) :
    memmapLargestFrom smtFree none (z::rest) = some ⟨x,y - x⟩ := by
  induction rest generalizing z with
  | nil => exact absurd follows (by simp [Follows])
  | cons n tail ih =>
    have here := typeFromBelow z.type follows le_rfl
    have atZ := only z.start le_rfl (by omega)
    rw [here] at atZ
    simp only [memmapLargestFrom,zproper,if_false]
    by_cases isFree : z.type = smtFree
    · have start : z.start = x := by
        have := atZ.mp isFree
        omega
      rcases follows with ⟨stop,empty⟩ | ⟨proper,differ,above,nbound,later⟩
      · subst stop empty
        have whole : y = 2^32 := by
          by_contra short
          have := (only y (by omega) (by omega)).mp (by rw [typeFromStop (Or.inl rfl)]; exact isFree)
          omega
        have size : sub32 0 z.start = y - x := by
          rw [sub32,if_neg (by omega)]
          omega
        simp only [isFree,size,Option.elim_none,true_and]
        rw [if_pos (by omega),start]
        rfl
      · have cut : n.start = y := by
          have notFree : ¬(x ≤ n.start ∧ n.start < y) := by
            rw [← only n.start above.le nbound,typeFromCons proper le_rfl,typeFromBelow n.type later le_rfl]
            exact fun same => differ (same.trans isFree.symm)
          have before := (only (n.start - 1) (by omega) (by omega)).mp (by
            rw [typeFromStop (Or.inr (by omega))]
            exact isFree)
          omega
        have size : sub32 n.start z.start = y - x := by rw [sub32Eq above.le,cut,start]
        simp only [isFree,size,Option.elim_none,true_and]
        rw [if_pos (by omega),start]
        refine largestNone later nbound ?_
        intro a above1 high same
        have reached : typeFrom z.type a (n::tail) = typeFrom n.type a tail := typeFromCons proper above1
        rw [← reached,only a (by omega) high] at same
        omega
    · simp only [isFree,false_and,if_false]
      rcases follows with ⟨stop,empty⟩ | ⟨proper,differ,above,nbound,later⟩
      · subst stop empty
        have := (only x reach (by omega)).mpr ⟨le_rfl,some1⟩
        rw [typeFromStop (Or.inl rfl)] at this
        exact absurd this isFree
      · refine ih later ?_ proper ?_
        · by_contra beyond
          have := (only x reach (by omega)).mpr ⟨le_rfl,some1⟩
          rw [typeFromStop (Or.inr (by omega))] at this
          exact isFree this
        · intro a above1 high
          have reached : typeFrom z.type a (n::tail) = typeFrom n.type a tail := typeFromCons proper above1
          rw [← reached]
          exact only a (by omega) high

theorem endTokenMallocs {last : Nat} {type old : MemmapType} {here : List Zone} :
    (endToken last type [] old here).mallocs = [] := by
  unfold endToken
  split
  · rfl
  · split
    · split <;> rfl
    · split <;> rfl

theorem addMemmapMallocs (list : List Zone) (start len : Nat) (type : MemmapType) :
    (syslinuxAddMemmap [] list start len type).mallocs = [] := by
  unfold syslinuxAddMemmap
  split
  · rfl
  · simp only [Added.behind]
    cases (passBelow start smtEnd list).2.2 with
    | nil => rfl
    | cons mp rest =>
      simp only [startToken,malloc,Added.behind]
      split
      · split <;> exact endTokenMallocs
      · split <;> exact endTokenMallocs

theorem addFreelistAll (rxmap : List Zone) (start len : Nat) (type : MemmapType) :
    addFreelist rxmap start len type [] = .ok ((syslinuxAddMemmap [] rxmap start len type).list,[]) := by
  simp [addFreelist,addMemmapOk,addMemmapMallocs]

theorem allocateFragmentsAll (rxmap : List Zone) (fraglist : List Move) :
    allocateFragments rxmap fraglist [] = .ok (addAll rxmap
      (fraglist.flatMap (fun f => [⟨f.src,f.len,smtAlloc⟩,⟨f.dst,f.len,smtAlloc⟩])),[]) := by
  induction fraglist generalizing rxmap with
  | nil => rfl
  | cons f rest ih =>
    simp only [allocateFragments,bind,StateT.bind,Except.bind,addFreelistAll]
    exact ih _

variable {fraglist : List Move}

theorem lowZone (inside : ∀ f ∈ fraglist, Inside f)
    (low : ∀ f ∈ fraglist, f.src + f.len ≤ 0x100000 ∧ f.dst + f.len ≤ 0x100000) :
    freeZone smallMap fraglist = some ⟨0x100000,0x1000⟩ := by
  obtain ⟨wf,types⟩ := addAllSpec smallMapWellFormed _ (blotsLegal inside)
  have only : ∀ a, a < 2^32 → (typeAt (addAll smallMap (blots fraglist)) a = smtFree ↔
      0x100000 ≤ a ∧ a < 0x101000) := by
    intro a small
    constructor
    · intro isFree
      obtain ⟨before,high,_⟩ := blottedFree smallMapWellFormed inside small isFree
      refine ⟨high,?_⟩
      by_contra beyond
      simp [typeAt,smallMap,typeFrom,beyond] at before
    · rintro ⟨high,below⟩
      have clear : (blots fraglist).reverse.find? (fun op => op.covers a) = none := by
        rw [List.find?_eq_none]
        intro op mem
        simp only [blots,List.mem_reverse,List.mem_cons,List.mem_flatMap,List.not_mem_nil,or_false] at mem
        simp only [Add.covers,decide_eq_true_eq]
        rcases mem with rfl | ⟨f,mem,rfl | rfl⟩
        · simp only
          omega
        · have := (low f mem).1
          simp only
          omega
        · have := (low f mem).2
          simp only
          omega
      rw [types a small,clear]
      simp [typeAt,smallMap,typeFrom,below]
  unfold freeZone syslinuxMemmapLargest
  generalize addAll smallMap (blots fraglist) = blotted at wf only
  cases blotted with
  | nil => exact absurd wf (by simp [WellFormed])
  | cons z rest =>
    obtain ⟨first,proper,follows⟩ := wf
    have found : memmapLargestFrom smtFree none (z::rest) = some ⟨0x100000,0x101000 - 0x100000⟩ := by
      refine largestOnly (by omega) (by omega) (by omega) (first ▸ follows) (by omega) proper ?_
      intro a _ small
      rw [← only a small,typeAt,typeFromCons proper (by omega)]
    simpa using found

theorem lowFindZone (inside : ∀ f ∈ fraglist, Inside f)
    (low : ∀ f ∈ fraglist, f.src + f.len ≤ 0x100000 ∧ f.dst + f.len ≤ 0x100000) :
    findZone fraglist smallMap [] = .ok (⟨0x100000,0x1000⟩,[]) := by
  have dup : syslinuxDupMemmap smallMap [] = .ok (smallMap,[]) := rfl
  have zone : syslinuxMemmapLargest (addAll (syslinuxAddMemmap [] smallMap 0 (1024 * 1024) smtReserved).list
      (fraglist.flatMap (fun f => [⟨f.src,f.len,smtAlloc⟩,⟨f.dst,f.len,smtAlloc⟩]))) smtFree =
        some ⟨0x100000,0x1000⟩ := lowZone inside low
  simp only [findZone,bind,StateT.bind,Except.bind,dup,addFreelistAll,allocateFragmentsAll,zone]
  rfl

theorem lowSized (inside : ∀ f ∈ fraglist, Inside f)
    (low : ∀ f ∈ fraglist, f.src + f.len ≤ 0x100000 ∧ f.dst + f.len ≤ 0x100000) (count : fraglist.length = 90000) :
    sizeArea 512 [some fraglist,some fraglist] fraglist smallMap [] = .ok (⟨4294938100,1081868,fraglist⟩,[]) := by
  have dup : syslinuxDupMemmap smallMap [] = .ok (smallMap,[]) := rfl
  have zeros : countZero smallMap = 0 := rfl
  have first : ¬descaddrOf ⟨0x100000,0x1000⟩ (descmemOf 512 (blocksFor 0)) < 0x100000 := by decide
  have grows : ¬blocksFor (90000 + 0) ≤ blocksFor 0 := by decide
  have addr : descaddrOf ⟨0x100000,0x1000⟩ 1081868 = 4294938100 := by decide
  have mem : descmemOf 512 (blocksFor (90000 + 0)) = 1081868 := by decide
  simp only [sizeArea,bind,StateT.bind,Except.bind,lowFindZone inside low,dup,zeros,sizingLoop,count,addFreelistAll,
    if_neg first,if_neg grows,le_refl,if_true,mem,addr]
  rfl

/- 90000 fragments of one byte, from 64 KB to 256 KB. -/
def manyFragments : List Move := (List.range 90000).map (fun i => ⟨0x40000 + i,0x10000 + i,1⟩)

theorem manyLow : ∀ f ∈ manyFragments, Inside f ∧ f.src + f.len ≤ 0x100000 ∧ f.dst + f.len ≤ 0x100000 := by
  intro f mem
  obtain ⟨i,small,rfl⟩ := List.mem_map.mp mem
  have := List.mem_range.mp small
  unfold Inside
  simp only
  omega

end Many

/- Every fragment is one move, and the list of moves takes more memory than lies below the
end of the zone: the area chosen runs over the end of the address space. -/
theorem shuffleAreaMisplaced : WellFormed smallMap ∧ (∀ f ∈ manyFragments, Inside f) ∧
    sizeArea 512 [some manyFragments,some manyFragments] manyFragments smallMap [] =
      .ok (⟨4294938100,1081868,manyFragments⟩,[]) ∧
    ¬Placed smallMap manyFragments 512 ⟨4294938100,1081868,manyFragments⟩ := by
  have inside : ∀ f ∈ manyFragments, Inside f := fun f mem => (manyLow f mem).1
  have count : manyFragments.length = 90000 := by rw [manyFragments,List.length_map,List.length_range]
  refine ⟨smallMapWellFormed,inside,lowSized inside (fun f mem => (manyLow f mem).2) count,?_⟩
  intro placed
  obtain ⟨before,z,next,after,eq,_,_,below⟩ := placed.zone
  have top := zoneEndTop (eq ▸ smallMapWellFormed)
  simp only at below
  omega

end Syslinux.Shuffle
