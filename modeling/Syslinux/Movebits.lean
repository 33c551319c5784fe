import Syslinux.Relocation
import Syslinux.Zonelist

/-! The planner of com32/lib/syslinux/movebits.c. A list node is a `Move`, a parent
pointer is the place in the list it points at. `Work` threads the malloc outcomes;
`bail` is the longjmp to new_movelist_bail or a goto bail, both of which return -1.
assert() expands to nothing in com32/include/assert.h, so no assertion stops a run. -/
namespace Syslinux.Movebits
open Zonelist Zonelist.MemmapType Relocation

inductive Stop where
  | bail | fuel
  deriving DecidableEq, Repr

abbrev Work := StateT (List Bool) (Except Stop)

def newMovelist (dst src len : Nat) : Work Move := fun mallocs =>
  match malloc mallocs with
  | (true,mallocs) => .ok (⟨dst,src,len⟩,mallocs)
  | (false,_) => .error .bail

def dupMovelist : List Move → Work (List Move)
  | [] => pure []
  | m::rest => do
      let ml ← newMovelist m.dst m.src m.len
      let tail ← dupMovelist rest
      pure (ml::tail)

def addFreelist (mmap : List Zone) (start len : Nat) (type : MemmapType) : Work (List Zone) := fun mallocs =>
  let r := syslinuxAddMemmap mallocs mmap start len type
  if r.rv = 0 then .ok (r.list,r.mallocs) else .error .bail

/- allocate_from drops the return value of syslinux_add_memmap. -/
def allocateFrom (mmap : List Zone) (start len : Nat) : Work (List Zone) := fun mallocs =>
  let r := syslinuxAddMemmap mallocs mmap start len smtAlloc
  .ok (r.list,r.mallocs)

structure Pieces where
  before : List Move
  here : Move
  after : List Move
  deriving DecidableEq, Repr

def Pieces.list (p : Pieces) : List Move := p.before ++ p.here::p.after

def splitMovelist (start len : Nat) (ml : Move) : Work Pieces := do
  let (before,ml) ← (if ml.src < start then do
      let l := start - ml.src
      let m ← newMovelist (add32 ml.dst l) start (sub32 ml.len l)
      pure ([{ ml with len := l }],m)
    else pure ([],ml) : Work (List Move × Move))
  if len < ml.len then do
    let m ← newMovelist (add32 ml.dst len) (add32 ml.src len) (ml.len - len)
    pure ⟨before,{ ml with len := len },[m]⟩
  else pure ⟨before,ml,[]⟩

def runEnds (last : Nat) : List Zone → Bool
  | [] => false
  | next::_ => last ≤ sub32 next.start 1

/- Both loops of is_free_zone in one: the first argument is ilist while the inner loop
runs. The result is the list from the zone returned on. -/
def freeZoneFrom (start last : Nat) : Option (List Zone) → List Zone → Option (List Zone)
  | _,[] => none
  | none,z::rest =>
      if z.type = smtEnd then none
      else if z.start ≤ start then
        if validTerminalType z.type then
          if runEnds last rest then some (z::rest) else freeZoneFrom start last (some (z::rest)) rest
        else freeZoneFrom start last none rest
      else freeZoneFrom start last none rest
  | some ilist,z::rest =>
      if validTerminalType z.type then
        if runEnds last rest then some ilist else freeZoneFrom start last (some ilist) rest
      else if start < z.start then none
      else freeZoneFrom start last none rest

def isFreeZone (list : List Zone) (start len : Nat) : Option (List Zone) :=
  freeZoneFrom start (sub32 (add32 start len) 1) none list

structure Area where
  start : Nat
  len : Nat
  deriving DecidableEq, Repr

def freeAreaFrom (len : Nat) : Option Area → List Zone → Option Area
  | best,z::next::rest =>
      if z.type = smtEnd then best
      else
        let slen := sub32 next.start z.start
        if z.type = smtFree ∧ len ≤ slen ∧ (best.all (fun b => slen < b.len)) then
          freeAreaFrom len (some ⟨z.start,slen⟩) (next::rest)
        else freeAreaFrom len best (next::rest)
  | best,_ => best

def freeArea (mmap : List Zone) (len : Nat) : Option Area := freeAreaFrom len none mmap

def memmapLargestFrom (type : MemmapType) : Option Area → List Zone → Option Area
  | best,z::next::rest =>
      if z.type = smtEnd then best
      else
        let size := sub32 next.start z.start
        if z.type = type ∧ (best.elim 0 Area.len) < size then
          memmapLargestFrom type (some ⟨z.start,size⟩) (next::rest)
        else memmapLargestFrom type best (next::rest)
  | best,_ => best

def syslinuxMemmapLargest (list : List Zone) (type : MemmapType) : Option Area :=
  memmapLargestFrom type none list

/- The part of mp behind the end of mx is split off and put in front of `next`; the
last component is `advance`. -/
def splitBehind (mp : Move) (pe xe : Nat) (next : List Move) : Work (Move × Nat × List Move × Bool) :=
  if xe < pe then do
    let delta := pe - xe
    let np ← newMovelist (sub32 (add32 mp.dst mp.len) delta) (sub32 (add32 mp.src mp.len) delta) delta
    pure ({ mp with len := sub32 mp.len delta },xe,np::next,true)
  else pure (mp,pe,next,false)

def splitBefore (mp : Move) (ps xs : Nat) (next : List Move) (advance : Bool) :
    Work (Move × Nat × List Move × Bool) :=
  if ps < xs then do
    let delta := xs - ps
    let np ← newMovelist mp.dst ps delta
    let src := add32 mp.src delta
    pure (⟨add32 mp.dst delta,src,sub32 mp.len delta⟩,src,np::next,true)
  else pure (mp,ps,next,advance)

/- One scan of shuffle_dealias over the fragments before *mpp. `next` is what follows
mp; a scan that ends without mp has moved it to the post-copies and restarts. The
bounds ps and pe are not recomputed when mp is replaced by a piece split off it. -/
def dealiasScan : List Move → Move → Nat → Nat → List Move → List Move →
    Work (Option Move × List Move × List Move)
  | [],mp,_,_,next,post => pure (some mp,next,post)
  | mx::mxs,mp,ps,pe,next,post =>
      let xs := mx.src
      let xe := sub32 (add32 mx.src mx.len) 1
      if pe ≤ xs ∨ xe ≤ ps then dealiasScan mxs mp ps pe next post
      else do
        let (mp,pe,here,advance) ← splitBehind mp pe xe next
        let (mp,ps,here,advance) ← splitBefore mp ps xs here advance
        let post := { mp with src := add32 mx.dst (sub32 ps xs) }::post
        match advance,here with
        | true,mp::next => dealiasScan mxs mp ps pe next post
        | _,_ => pure (none,here,post)

def shuffleDealias : Nat → List Move → List Move → List Move → Work (List Move × List Move)
  | _,done,[],post => pure (done,post)
  | 0,_,_::_,_ => throw .fuel
  | fuel+1,done,mp::next,post => do
      match ← dealiasScan done mp mp.src (sub32 (add32 mp.src mp.len) 1) next post with
      | (some mp,next,post) => shuffleDealias fuel (done ++ [mp]) next post
      | (none,next,post) => shuffleDealias fuel done next post

structure Need where
  base : Nat
  len : Nat
  cbyte : Nat
  reverse : Bool
  deriving DecidableEq, Repr

def need (o : Move) : Need :=
  if o.src < o.dst ∧ o.dst - o.src < o.len then
    let len := o.dst - o.src
    ⟨add32 o.dst (o.len - len),len,sub32 (add32 o.dst o.len) 1,true⟩
  else if o.dst < o.src ∧ o.src - o.dst < o.len then ⟨o.dst,o.src - o.dst,o.dst,false⟩
  else ⟨o.dst,o.len,o.dst,false⟩

def freedBy (f : Move) : Area :=
  if f.src < f.dst then ⟨f.src,min f.len (f.dst - f.src)⟩
  else if add32 f.dst f.len ≤ f.src then ⟨f.src,f.len⟩
  else ⟨add32 f.dst f.len,f.src - f.dst⟩

structure Chunk where
  left : List Move
  move : Move
  mmap : List Zone
  deriving DecidableEq, Repr

/- `left` is what stays in the fragment list in place of *fp. -/
def moveChunk (mmap : List Zone) (f : Move) (copylen : Nat) : Work Chunk := do
  let n := need f
  let p ← (if copylen < n.len then
      splitMovelist (if n.reverse then add32 f.src (sub32 f.len copylen) else f.src) copylen f
    else pure ⟨[],f,[]⟩ : Work Pieces)
  let mv ← newMovelist p.here.dst p.here.src p.here.len
  let freed := freedBy p.here
  let mmap ← addFreelist mmap freed.start freed.len smtFree
  pure ⟨p.before ++ p.after,mv,mmap⟩

structure PlanState where
  mmap : List Zone
  frags : List Move
  moves : List Move
  deriving DecidableEq, Repr

/- The scan for a fragment that can be moved to its final destination at once. -/
def findMovable (mmap : List Zone) : List Move → Option Pieces
  | [] => none
  | o::rest =>
      if (isFreeZone mmap (need o).base (need o).len).isSome then some ⟨[],o,rest⟩
      else (findMovable mmap rest).map (fun p => ⟨o::p.before,p.here,p.after⟩)

def available (n : Need) : Option (List Zone) → Nat
  | some (ep::next::_) =>
      if n.reverse then sub32 (add32 n.base n.len) ep.start
      else sub32 (sub32 next.start ep.start) (sub32 n.base ep.start)
  | _ => 0

def findOccupant (cbyte : Nat) : List Move → Option Pieces
  | [] => none
  | o::rest =>
      if o.src ≤ cbyte ∧ cbyte < add32 o.src o.len then some ⟨[],o,rest⟩
      else (findOccupant cbyte rest).map (fun p => ⟨o::p.before,p.here,p.after⟩)

/- Where an evicted fragment, or the part of it around the critical byte, goes. -/
def evictTo (mmap : List Zone) (n : Need) (o : Move) : Option Move :=
  if (isFreeZone mmap o.dst o.len).isSome then some ⟨o.dst,o.src,o.len⟩
  else match freeArea mmap o.len with
  | some area => some ⟨area.start,o.src,o.len⟩
  | none => match syslinuxMemmapLargest mmap smtFree with
    | none => none
    | some area =>
        if n.reverse then
          let copysrc := max o.src (sub32 (add32 n.cbyte 1) area.len)
          some ⟨area.start,copysrc,sub32 (add32 n.cbyte 1) copysrc⟩
        else some ⟨area.start,n.cbyte,min area.len (sub32 o.len (n.cbyte - o.src))⟩

/- What one turn of the planning loop decides to do, before it allocates anything. -/
inductive Choice where
  | discard (rest : List Move)
  | place (p : Pieces)
  | claim (n : Need) (copylen : Nat) (f : Move) (rest : List Move)
  | evict (n : Need) (f : Move) (p : Pieces) (copy : Move)
  | stuck
  deriving DecidableEq, Repr

def choose (mmap : List Zone) : List Move → Choice
  | [] => .stuck
  | f::rest =>
      if f.src = f.dst then .discard rest
      else
        let rest := rest.filter (fun o => o.src ≠ o.dst)
        match findMovable mmap (f::rest) with
        | some p => .place p
        | none =>
          let n := need f
          let avail := available n (isFreeZone mmap n.cbyte 1)
          if avail ≠ 0 then .claim n (min n.len avail) f rest
          else match findOccupant n.cbyte rest with
          | none => .stuck
          | some p => match evictTo mmap n p.here with
            | none => .stuck
            | some copy => .evict n f p copy

/- What the turn marks with allocate_from. -/
def Choice.allocated : Choice → Option Area
  | .place p => some ⟨(need p.here).base,(need p.here).len⟩
  | .claim n copylen _ _ =>
      some ⟨if n.reverse then sub32 (add32 n.base n.len) copylen else n.base,copylen⟩
  | .evict _ _ _ copy => some ⟨copy.dst,copy.len⟩
  | _ => none

/- After an eviction: give back the vacated memory the move does not need. The second
release starts at copysrc + needlen, also where the first has already given back the
part below needbase. -/
def trimVacated (mmap : List Zone) (n : Need) (copy : Move) : Work (List Zone × Nat) := do
  if n.len < copy.len then
    let (mmap,copylen) ← (if copy.src < n.base then do
        let mmap ← addFreelist mmap copy.src (n.base - copy.src) smtFree
        pure (mmap,sub32 copy.len (n.base - copy.src))
      else pure (mmap,copy.len) : Work (List Zone × Nat))
    if n.len < copylen then
      let mmap ← addFreelist mmap (add32 copy.src n.len) (copylen - n.len) smtFree
      pure (mmap,n.len)
    else pure (mmap,copylen)
  else pure (mmap,copy.len)

def perform (s : PlanState) : Choice → Work PlanState
  | .discard rest => pure { s with frags := rest }
  | .place p => do
      let n := need p.here
      let mmap ← allocateFrom s.mmap n.base n.len
      let c ← moveChunk mmap p.here n.len
      pure ⟨c.mmap,p.before ++ c.left ++ p.after,s.moves ++ [c.move]⟩
  | .claim n copylen f rest => do
      let mmap ← allocateFrom s.mmap (if n.reverse then sub32 (add32 n.base n.len) copylen else n.base) copylen
      let c ← moveChunk mmap f copylen
      pure ⟨c.mmap,c.left ++ rest,s.moves ++ [c.move]⟩
  | .evict n f p copy => do
      let mmap ← allocateFrom s.mmap copy.dst copy.len
      let q ← (if copy.len < p.here.len then splitMovelist copy.src copy.len p.here
        else pure ⟨[],p.here,[]⟩ : Work Pieces)
      let mv ← newMovelist copy.dst copy.src copy.len
      let moved : Pieces := { q with here := { q.here with src := copy.dst } }
      let (mmap,copylen) ← trimVacated mmap n copy
      let c ← moveChunk mmap f copylen
      pure ⟨c.mmap,c.left ++ (p.before ++ moved.list ++ p.after),s.moves ++ [mv,c.move]⟩
  | .stuck => throw .bail

def planStep (s : PlanState) : Work PlanState := perform s (choose s.mmap s.frags)

def plan : Nat → PlanState → Work PlanState
  | _,⟨mmap,[],moves⟩ => pure ⟨mmap,[],moves⟩
  | 0,⟨_,_::_,_⟩ => throw .fuel
  | fuel+1,s => do
      let s ← planStep s
      plan fuel s

/- The private map: the caller's, with SMT_ZERO taken as free. -/
def importMemmap : List Zone → List Zone → Work (List Zone)
  | mmap,mm::next::rest =>
      if mm.type = smtEnd then pure mmap
      else do
        let mmap ← addFreelist mmap mm.start (sub32 next.start mm.start)
          (if mm.type = smtZero then smtFree else mm.type)
        importMemmap mmap (next::rest)
  | mmap,_ => pure mmap

def allocateSources (mmap : List Zone) : List Move → Work (List Zone)
  | [] => pure mmap
  | f::rest => do
      let mmap ← addFreelist mmap f.src f.len smtAlloc
      allocateSources mmap rest

def initMemmap : Work (List Zone) := fun mallocs =>
  match malloc mallocs with
  | (false,_) => .error .bail
  | (true,mallocs) => match malloc mallocs with
    | (false,_) => .error .bail
    | (true,mallocs) => .ok (syslinuxInitMemmap,mallocs)

/- Everything before the planning loop: its first state and the post-copies. -/
def planSetup (fuel : Nat) (ifrags : List Move) (memmap : List Zone) : Work (PlanState × List Move) := do
  let mmap ← initMemmap
  let frags ← dupMovelist ifrags
  let (frags,postcopy) ← shuffleDealias fuel [] frags []
  let mmap ← importMemmap mmap memmap
  let mmap ← allocateSources mmap frags
  pure (⟨mmap,frags,[]⟩,postcopy)

def syslinuxComputeMovelist (fuel : Nat) (ifrags : List Move) (memmap : List Zone) : Work (List Move) := do
  let (s,postcopy) ← planSetup fuel ifrags memmap
  let s ← plan fuel s
  pure (s.moves ++ postcopy)

end Syslinux.Movebits
