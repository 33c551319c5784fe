import Syslinux.DhcpOption

/-! parse_dhcp of core/fs/pxe/dhcp_option.c and the handlers of the options. A read outside of the
packet and a write outside of the array it is meant for have no defined result: none. -/
namespace Syslinux.DhcpParse
open DhcpOption

structure Globals where
  ipver : Nat
  myip : Nat
  serverip : Nat
  gateway : Nat
  netmask : Nat
  overLoad : Nat
  dnsServer : Nat → Nat
  localDomain : Nat → UInt8
  macLen : Nat
  macType : Nat
  mac : Nat → UInt8
  bootFile : Nat → UInt8
  haveUuid : Bool
  uuidType : Nat
  uuid : Nat → UInt8
  dhcpMagic : Nat
  configName : Nat → UInt8
  pathPrefix : Nat → UInt8
  rebootTime : Nat

def dnsMaxServers : Nat := 4
def macMax : Nat := 32
def filenameMax : Nat := 256

def peek (pkt : Bytes) (p n : Nat) : Option Bytes := if p + n ≤ pkt.length then some ((pkt.drop p).take n) else none

def poke {β : Type} (size : Nat) (array : Nat → β) (i : Nat) (values : List β) : Option (Nat → β) :=
  if i + values.length ≤ size then some (store array i values) else none

def number (bytes : Bytes) : Nat := bytes.foldr (fun c n => c.toNat + 256*n) 0
def ntohl (bytes : Bytes) : Nat := number bytes.reverse

def ipOk (ip : Nat) : Bool :=
  let ipHi := ip % 256
  !(ip = 0xffffffff || ipHi = 0 || ipHi = 127 || ipHi &&& 240 = 224)

section
variable (pkt : Bytes) (data optLen : Nat) (g : Globals)

def subnetMask : Option Globals :=
  if optLen ≠ 4 then some g else (peek pkt data 4).map fun b => { g with netmask := number b }

def router : Option Globals :=
  if optLen ≠ 4 then some g else (peek pkt data 4).map fun b => { g with gateway := number b }

def dnsLoop : Nat → Nat → Nat → Nat → (Nat → Nat) → Option (Nat × (Nat → Nat))
  | 0,_,_,_,_ => none
  | turns+1,dp,optLen,num,servers =>
      if num < dnsMaxServers ∧ 4 ≤ optLen then
        (peek pkt dp 4).bind fun b =>
          if ipOk (number b) then
            (poke dnsMaxServers servers num [number b]).bind fun servers => dnsLoop turns (dp + 4) (optLen - 4) (num + 1) servers
          else dnsLoop turns (dp + 4) (optLen - 4) num servers
      else some (num,servers)

def dnsServers : Option Globals :=
  (dnsLoop pkt (optLen + 1) data optLen 0 g.dnsServer).bind fun (num,servers) =>
    (poke dnsMaxServers servers num (List.replicate (dnsMaxServers - num) 0)).map fun servers =>
      { g with dnsServer := servers }

/- memcpy, and a NUL behind it. -/
def copyString (size : Nat) (array : Nat → UInt8) : Option (Nat → UInt8) :=
  (peek pkt data optLen).bind fun bytes => (poke size array 0 bytes).bind fun array => poke size array optLen [0]

def localDomain : Option Globals :=
  (copyString pkt data optLen 256 g.localDomain).map fun array => { g with localDomain := array }

def optionOverload : Option Globals :=
  if optLen ≠ 1 then some g else (peek pkt data 1).map fun b => { g with overLoad := number b }

def server : Option Globals :=
  if optLen ≠ 4 then some g
  else if g.serverip ≠ 0 then some g
  else (peek pkt data 4).map fun b => if ipOk (number b) then { g with serverip := number b } else g

def clientIdentifier : Option Globals :=
  if macMax < optLen ∨ optLen < 2 ∨ g.macLen ≠ optLen / 256 then some g
  else (peek pkt data 1).bind fun b =>
    if number b ≠ g.macType then some g
    else (copyString pkt (data + 1) (optLen - 1) macMax g.mac).map fun array =>
      { g with macLen := (optLen - 1) % 256, mac := array }

def bootfileName : Option Globals :=
  (copyString pkt data optLen 256 g.bootFile).map fun array => { g with bootFile := array }

def uuidClientIdentifier : Option Globals :=
  (peek pkt data 1).bind fun b =>
    if optLen ≠ 17 ∨ number b ≠ 0 ∨ g.haveUuid then some g
    else (peek pkt (data + 1) 16).bind fun bytes => (poke 16 g.uuid 0 bytes).map fun array =>
      { g with haveUuid := true, uuidType := number b, uuid := array }

def pxelinuxConfigfile : Option Globals :=
  (copyString pkt data optLen filenameMax g.configName).map fun array =>
    { g with dhcpMagic := g.dhcpMagic ||| 2, configName := array }

def pxelinuxPathprefix : Option Globals :=
  (copyString pkt data optLen 256 g.pathPrefix).map fun array =>
    { g with dhcpMagic := g.dhcpMagic ||| 4, pathPrefix := array }

def pxelinuxReboottime : Option Globals :=
  if optLen ≠ 4 then some g
  else (peek pkt data 4).map fun b => { g with rebootTime := ntohl b, dhcpMagic := g.dhcpMagic ||| 8 }

end

/- The fun of the dhcp_opts; what vendor_encaps does is up to the parser. -/
def fun' (pkt : Bytes) (optNum data optLen : Nat) (g : Globals) : Option Globals :=
  match optNum with
  | 1 => subnetMask pkt data optLen g
  | 3 => router pkt data optLen g
  | 6 => dnsServers pkt data optLen g
  | 15 => localDomain pkt data optLen g
  | 52 => optionOverload pkt data optLen g
  | 54 => server pkt data optLen g
  | 61 => clientIdentifier pkt data optLen g
  | 67 => bootfileName pkt data optLen g
  | 97 => uuidClientIdentifier pkt data optLen g
  | 209 => pxelinuxConfigfile pkt data optLen g
  | 210 => pxelinuxPathprefix pkt data optLen g
  | 211 => pxelinuxReboottime pkt data optLen g
  | _ => some g

def strcpy (pkt : Bytes) (size : Nat) : Nat → Nat → Nat → (Nat → UInt8) → Option (Nat → UInt8)
  | 0,_,_,_ => none
  | turns+1,p,i,array =>
      pkt[p]?.bind fun ch => (poke size array i [ch]).bind fun array =>
        if ch = 0 then some array else strcpy pkt size turns (p + 1) (i + 1) array

/- struct bootp_t. -/
def yip : Nat := 16
def sip : Nat := 20
def sname : Nat := 44
def bootfile : Nat := 108
def optionMagic : Nat := 236
def options : Nat := 240

def bootpOptionMagic : Bytes := [0x63,0x82,0x53,0x63]

def setAddresses (pkt : Bytes) (g : Globals) : Option Globals :=
  (peek pkt yip 4).bind fun b =>
    let g := if ipOk (number b) then { g with myip := number b } else g
    (peek pkt sip 4).map fun b => if ipOk (number b) then { g with serverip := number b } else g

def parseOptions (pkt : Bytes) (g : Globals) : Option Globals :=
  let optLen : Int := (pkt.length : Int) - options
  if optLen = 0 then some g
  else (peek pkt optionMagic 4).bind fun magic =>
    if magic = bootpOptionMagic then parseDhcpOptions (fun' pkt) pkt 2 options optLen 0 g else some g

def parseBootfile (pkt : Bytes) (g : Globals) : Option Globals :=
  if g.overLoad &&& 1 ≠ 0 then parseDhcpOptions (fun' pkt) pkt 2 bootfile 128 0 g
  else (peek pkt bootfile 1).bind fun b =>
    if b = [0] then some g
    else (strcpy pkt 256 257 bootfile 0 g.bootFile).map fun array => { g with bootFile := array }

def parseSname (pkt : Bytes) (g : Globals) : Option Globals :=
  if g.overLoad &&& 2 ≠ 0 then parseDhcpOptions (fun' pkt) pkt 2 sname 64 0 g else some g

/- Two parsers are open at most (parseDhcpOptionsCalls). -/
def parseDhcp (pkt : Bytes) (g : Globals) : Option Globals :=
  (setAddresses pkt { g with ipver := 4, overLoad := 0 }).bind fun g =>
    (parseOptions pkt g).bind fun g => (parseBootfile pkt g).bind (parseSname pkt)

def Terminated (array : Nat → UInt8) : Prop := ∃ i < 256, array i = 0

section
variable {pkt bytes : Bytes} {data : Nat} {g : Globals}

theorem peekAt {n : Nat} (here : At pkt data bytes) (short : n ≤ bytes.length) (inside : n ≠ 0 ∨ data ≤ pkt.length) :
    peek pkt data n = some (bytes.take n) := by
  have length := here.length_le
  rw [List.length_drop] at length
  obtain ⟨t,eq⟩ := here
  rw [peek,if_pos (by omega),← eq,List.take_append_of_le_length short]

theorem copyStringOk {size : Nat} (here : At pkt data bytes) (inside : data ≤ pkt.length) (short : bytes.length < size)
    (array : Nat → UInt8) : ∃ array', copyString pkt data bytes.length size array = some array' ∧ array' bytes.length = 0 := by
  rw [copyString,peekAt here (Nat.le_refl _) (Or.inr inside),List.take_length,Option.bind_some,poke,if_pos (by omega),
    Option.bind_some,poke,if_pos (by simpa using short)]
  exact ⟨_,rfl,storeInside (i := 0) (by simp)⟩

theorem dnsLoopOk {turns optLen num : Nat} (here : At pkt data bytes) (length : bytes.length = optLen) (enough : optLen < turns)
    (few : num ≤ dnsMaxServers) (servers : Nat → Nat) :
    ∃ r, dnsLoop pkt turns data optLen num servers = some r ∧ r.1 ≤ dnsMaxServers := by
  induction turns generalizing data bytes optLen num servers with
  | zero => omega
  | succ turns ih =>
    unfold dnsLoop
    split
    next more =>
      have later := atDrop (n := 4) here
      have length' : (bytes.drop 4).length = optLen - 4 := by simp [length]
      rw [peekAt here (by omega) (Or.inl (by decide)),Option.bind_some]
      split
      · rw [poke,if_pos (by simpa using more.1),Option.bind_some]
        exact ih later length' (by omega) more.1 _
      · exact ih later length' (by omega) few _
    next => exact ⟨_,rfl,few⟩

/- The fields that parse_dhcp itself goes on with. -/
structure Kept (g g' : Globals) : Prop where
  overLoad : g'.overLoad = g.overLoad
  bootFile : g'.bootFile = g.bootFile

theorem keptMap {α : Type} {found : Option α} (some' : found.isSome) {f : α → Globals} (kept : ∀ a, Kept g (f a)) :
    ∃ g', found.map f = some g' ∧ Kept g g' := by
  obtain ⟨a,rfl⟩ := Option.isSome_iff_exists.mp some'
  exact ⟨_,rfl,kept a⟩

theorem keptSelf (g : Globals) : ∃ g', some g = some g' ∧ Kept g g' := ⟨g,rfl,rfl,rfl⟩

theorem wordKept {f : Bytes → Globals} (here : At pkt data bytes) (kept : ∀ b, Kept g (f b)) :
    ∃ g', (if bytes.length ≠ 4 then some g else (peek pkt data 4).map f) = some g' ∧ Kept g g' := by
  split
  · exact keptSelf g
  next four =>
    refine keptMap ?_ kept
    rw [peekAt here (by omega) (Or.inl (by decide))]
    rfl

theorem copiedKept {size : Nat} {array : Nat → UInt8} {f : (Nat → UInt8) → Globals} (here : At pkt data bytes)
    (inside : data ≤ pkt.length) (short : bytes.length < size) (kept : ∀ a, Kept g (f a)) :
    ∃ g', (copyString pkt data bytes.length size array).map f = some g' ∧ Kept g g' := by
  obtain ⟨array',copied,_⟩ := copyStringOk here inside short array
  exact keptMap (by simp [copied]) kept

theorem dnsServersKept (here : At pkt data bytes) : ∃ g', dnsServers pkt data bytes.length g = some g' ∧ Kept g g' := by
  obtain ⟨⟨num,servers⟩,ran,few⟩ := dnsLoopOk here rfl (Nat.lt_succ_self _) (Nat.zero_le _) g.dnsServer
  rw [dnsServers,ran,Option.bind_some]
  refine keptMap ?_ fun _ => ⟨rfl,rfl⟩
  rw [poke,if_pos (by simp; omega)]
  rfl

theorem serverKept (here : At pkt data bytes) : ∃ g', server pkt data bytes.length g = some g' ∧ Kept g g' := by
  unfold server
  split
  · exact keptSelf g
  next four =>
    split
    · exact keptSelf g
    · refine keptMap ?_ fun b => by split <;> exact ⟨rfl,rfl⟩
      rw [peekAt here (by omega) (Or.inl (by decide))]
      rfl

theorem clientIdentifierKept (here : At pkt data bytes) (inside : data + bytes.length ≤ pkt.length) :
    ∃ g', clientIdentifier pkt data bytes.length g = some g' ∧ Kept g g' := by
  unfold clientIdentifier
  split
  · exact keptSelf g
  next long =>
    rw [peekAt here (by omega) (Or.inl (by decide)),Option.bind_some]
    split
    · exact keptSelf g
    · have later := atDrop (n := 1) here
      rw [← List.length_drop (i := 1)]
      exact copiedKept later (by omega) (by simp; omega) fun _ => ⟨rfl,rfl⟩

theorem uuidKept (here : At pkt data bytes) (inside : data < pkt.length) :
    ∃ g', uuidClientIdentifier pkt data bytes.length g = some g' ∧ Kept g g' := by
  have first : peek pkt data 1 = some ((pkt.drop data).take 1) := if_pos (by omega)
  rw [uuidClientIdentifier,first,Option.bind_some]
  split
  · exact keptSelf g
  next whole =>
    have length : bytes.length = 17 := by omega
    rw [peekAt (atDrop (n := 1) here) (by simp; omega) (Or.inl (by decide)),Option.bind_some]
    refine keptMap ?_ fun _ => ⟨rfl,rfl⟩
    rw [poke,if_pos (by simp)]
    rfl

/- over_load behind a call. -/
def Call.overload (n : Nat) (c : Call) : Nat := if c.num = 52 ∧ c.bytes.length = 1 then number c.bytes else n

/- A client identifier that is a UUID, and that has no byte inside of the packet. -/
def Call.Outside (pkt : Bytes) (c : Call) : Prop := c.num = 97 ∧ pkt.length ≤ c.data

structure Placed (pkt : Bytes) (c : Call) : Prop where
  at' : At pkt c.data c.bytes
  inside : c.data + c.bytes.length ≤ pkt.length
  short : c.bytes.length ≤ 255

theorem handlerKept {c : Call} (placed : Placed pkt c) (ok : ¬ Call.Outside pkt c) (noOverload : c.num ≠ 52)
    (noBootfile : c.num ≠ 67) : ∃ g', fun' pkt c.num c.data c.bytes.length g = some g' ∧ Kept g g' := by
  obtain ⟨here,inside,short⟩ := placed
  have inside' : c.data ≤ pkt.length := by omega
  unfold fun'
  split
  · exact wordKept here fun _ => ⟨rfl,rfl⟩
  · exact wordKept here fun _ => ⟨rfl,rfl⟩
  · exact dnsServersKept here
  · exact copiedKept here inside' (by omega) fun _ => ⟨rfl,rfl⟩
  next num => exact absurd num noOverload
  · exact serverKept here
  · exact clientIdentifierKept here inside
  next num => exact absurd num noBootfile
  next num => exact uuidKept here (Nat.lt_of_not_le fun outside => ok ⟨num,outside⟩)
  · exact copiedKept here inside' (by unfold filenameMax; omega) fun _ => ⟨rfl,rfl⟩
  · exact copiedKept here inside' (by omega) fun _ => ⟨rfl,rfl⟩
  · exact wordKept here fun _ => ⟨rfl,rfl⟩
  · exact keptSelf g

theorem handlerServes {c : Call} (placed : Placed pkt c) (ok : ¬ Call.Outside pkt c) (terminated : Terminated g.bootFile) :
    ∃ g', fun' pkt c.num c.data c.bytes.length g = some g' ∧ Terminated g'.bootFile ∧
      g'.overLoad = Call.overload g.overLoad c := by
  by_cases overload : c.num = 52
  · rw [overload]
    show ∃ g', optionOverload pkt c.data c.bytes.length g = _ ∧ _
    unfold optionOverload Call.overload
    split
    next other => exact ⟨g,rfl,terminated,by simp [other]⟩
    next one =>
      rw [peekAt placed.at' (by omega) (Or.inl (by decide)),List.take_of_length_le (by omega),Option.map_some]
      exact ⟨_,rfl,terminated,by simp_all⟩
  · have same : Call.overload g.overLoad c = g.overLoad := if_neg fun both => overload both.1
    rw [same]
    by_cases name : c.num = 67
    · rw [name]
      show ∃ g', bootfileName pkt c.data c.bytes.length g = _ ∧ _
      have short : c.bytes.length < 256 := Nat.lt_succ_of_le placed.short
      obtain ⟨array,copied,nul⟩ := copyStringOk placed.at' (by have := placed.inside; omega) short g.bootFile
      rw [bootfileName,copied,Option.map_some]
      exact ⟨_,rfl,⟨_,short,nul⟩,rfl⟩
    · obtain ⟨g',ran,kept⟩ := handlerKept (g := g) placed ok overload name
      exact ⟨g',ran,kept.bootFile ▸ terminated,kept.overLoad⟩

theorem outsideFails {c : Call} (outside : Call.Outside pkt c) : fun' pkt c.num c.data c.bytes.length g = none := by
  obtain ⟨num,far⟩ := outside
  rw [num]
  show uuidClientIdentifier pkt c.data c.bytes.length g = none
  rw [uuidClientIdentifier,peek,if_neg (by omega)]
  rfl

theorem runServes {calls : List Call} (placed : ∀ c ∈ calls, Placed pkt c) (ok : ∀ c ∈ calls, ¬ Call.Outside pkt c)
    (terminated : Terminated g.bootFile) : ∃ g', runCalls (fun' pkt) calls g = some g' ∧ Terminated g'.bootFile ∧
      g'.overLoad = calls.foldl Call.overload g.overLoad := by
  induction calls generalizing g with
  | nil => exact ⟨g,rfl,terminated,rfl⟩
  | cons c calls ih =>
    obtain ⟨g₁,first,terminated₁,overLoad₁⟩ := handlerServes (placed c (by simp)) (ok c (by simp)) terminated
    obtain ⟨g',later,terminated',overLoad'⟩ := ih (fun d mem => placed d (by simp [mem])) (fun d mem => ok d (by simp [mem])) terminated₁
    refine ⟨g',?_,terminated',by rw [overLoad',overLoad₁,List.foldl_cons]⟩
    rw [← List.singleton_append,runCallsAppend,runOne,first,Option.bind_some,later]

theorem runOutside {calls : List Call} {c : Call} (mem : c ∈ calls) (outside : Call.Outside pkt c) :
    runCalls (fun' pkt) calls g = none := by
  obtain ⟨first,later,rfl⟩ := List.append_of_mem mem
  rw [runCallsAppend,← List.singleton_append]
  cases runCalls (fun' pkt) first g with
  | none => rfl
  | some g₁ => rw [Option.bind_some,runCallsAppend,runOne,outsideFails outside,Option.bind_none]

/- over_load behind the items, and the same behind their calls. -/
def Item.overload (n : Nat) : Item → Nat
  | .pad => n
  | .option num data => if num = 52 ∧ data.length = 1 then number data else n

theorem overloadElsewhere {calls : List Call} (other : ∀ c ∈ calls, c.num ≠ 52) (n : Nat) : calls.foldl Call.overload n = n := by
  induction calls with
  | nil => rfl
  | cons c calls ih =>
    rw [List.foldl_cons,Call.overload,if_neg fun both => other c (by simp) both.1]
    exact ih fun d mem => other d (by simp [mem])

theorem calledOverload (items' : List Item) (p n : Nat) :
    (calledAt 0 p items').foldl Call.overload n = items'.foldl Item.overload n := by
  induction items' generalizing p n with
  | nil => rfl
  | cons i items' ih =>
    cases i with
    | pad => exact ih _ _
    | option num data =>
      have known : num = 52 ↔ num.toNat = 52 := ⟨fun same => by rw [same]; rfl,fun same => UInt8.toNat.inj same⟩
      rw [calledAt,List.foldl_append,ih,List.foldl_cons]
      congr 1
      by_cases called : num.toNat ∈ dhcpOpts
      · simp [called,Call.overload,Item.overload,known]
      · have other : num.toNat ≠ 52 := fun same => called (by rw [same]; decide)
        simp [called,Item.overload,known,other]

theorem callsOverload {p : Nat} (here : At pkt p bytes) (n : Nat) :
    (calls 0 p bytes).foldl Call.overload n = (items bytes).foldl Item.overload n := by
  rw [← calledOverload (items bytes) p n,calls]
  have nested : ∀ c ∈ calledAt 0 p (items bytes), ∀ n, (if c.num = vendorEncaps then calledAt 208 c.data (items c.bytes) else []).foldl
      Call.overload n = n := by
    intro c mem n
    split
    · refine overloadElsewhere (fun d mem' same => ?_) n
      have above := (calledAtBytes (calledAtBytes here mem).1 mem').2.1
      omega
    · rfl
  generalize calledAt 0 p (items bytes) = called at nested
  induction called generalizing n with
  | nil => rfl
  | cons c called ih =>
    rw [List.flatMap_cons,List.foldl_append,List.foldl_cons,nested c (by simp),List.foldl_cons]
    exact ih _ fun d mem => nested d (by simp [mem])

theorem regionServes {p : Nat} (here : At pkt p bytes) (inside : p + bytes.length ≤ pkt.length)
    (ok : ∀ c ∈ calls 0 p bytes, ¬ Call.Outside pkt c) (terminated : Terminated g.bootFile) :
    ∃ g', parseDhcpOptions (fun' pkt) pkt 2 p bytes.length 0 g = some g' ∧ Terminated g'.bootFile ∧
      g'.overLoad = (items bytes).foldl Item.overload g.overLoad := by
  rw [parseCalls here 0 g,← callsOverload here]
  refine runServes (fun c mem => ?_) ok terminated
  obtain ⟨at',short,within⟩ := callsBytes here mem
  exact ⟨at',by omega,short⟩

theorem fieldServes {p size : Nat} (inside : p + size < pkt.length) (terminated : Terminated g.bootFile) :
    ∃ g', parseDhcpOptions (fun' pkt) pkt 2 p size 0 g = some g' ∧ Terminated g'.bootFile := by
  have here : At pkt p ((pkt.drop p).take size) := List.take_prefix _ _
  have length : ((pkt.drop p).take size).length = size := by simp; omega
  have ok : ∀ c ∈ calls 0 p ((pkt.drop p).take size), ¬ Call.Outside pkt c := by
    intro c mem outside
    have within := (callsBytes here mem).2.2
    have far := outside.2
    omega
  obtain ⟨g',ran,terminated',_⟩ := regionServes here (by omega) ok terminated
  exact ⟨g',by rwa [length] at ran,terminated'⟩

/- The options end with an empty UUID. -/
def EmptyUuid (bytes : Bytes) : Prop := ∃ first, (∀ i ∈ first, i.WellFormed) ∧ bytes = encode first ++ [97,0]

theorem outsideIff {p : Nat} (inside : p ≤ pkt.length) (eq : bytes = pkt.drop p) :
    (∃ c ∈ calls 0 p bytes, Call.Outside pkt c) ↔ EmptyUuid bytes := by
  have here : At pkt p bytes := eq ▸ List.prefix_refl _
  have length : p + bytes.length = pkt.length := by simp [eq]; omega
  constructor
  · rintro ⟨c,mem,num,far⟩
    obtain ⟨d,mem,part⟩ := List.mem_flatMap.mp mem
    rcases List.mem_cons.mp part with rfl | nested
    · obtain ⟨first,num',data,later,eq,_,_,rfl⟩ := calledAtSplit.1 mem
      obtain ⟨ok,rest,whole,_⟩ := longestItems bytes
      have split : bytes = encode first ++ (num'::UInt8.ofNat data.length::data ++ (encode later ++ rest)) := by
        rw [whole,eq]
        simp [encode,Item.encode]
      have counted := congrArg List.length split
      simp only [List.length_append,List.length_cons] at counted
      have nothing : data = [] := List.eq_nil_of_length_eq_zero (by simp only at far; omega)
      have nothing' : encode later ++ rest = [] :=
        List.eq_nil_of_length_eq_zero (by rw [List.length_append]; simp only at far; omega)
      refine ⟨first,fun i mem => ok i (by simp [eq,mem]),?_⟩
      rw [split,nothing,nothing',show num' = 97 from UInt8.toNat.inj num]
      rfl
    · split at nested
      · have above := (calledAtBytes (calledAtBytes here mem).1 nested).2.1
        omega
      · cases nested
  · rintro ⟨first,ok,whole⟩
    have longest : Longest bytes (first ++ [.option 97 []]) := by
      refine ⟨?_,[],by simp [whole,encode,Item.encode],fun i _ => by cases i <;> simp [Item.encode]⟩
      intro i mem
      rcases List.mem_append.mp mem with mem | mem
      · exact ok i mem
      · cases List.mem_singleton.mp mem
        exact ⟨by decide,by decide,by decide⟩
    have counted := congrArg List.length whole
    simp only [List.length_append,List.length_cons,List.length_nil] at counted
    refine ⟨⟨97,p + (encode first).length + 2,[]⟩,List.mem_flatMap.mpr ⟨_,calledAtSplit.2 ⟨first,97,[],[],?_,by decide,by decide,rfl⟩,?_⟩,rfl,?_⟩
    · exact longestUnique (longestItems bytes) longest
    · exact List.mem_cons_self
    · show pkt.length ≤ p + (encode first).length + 2
      omega

theorem strcpyIff {turns p i : Nat} (enough : 256 < turns + i) (array : Nat → UInt8) :
    ((strcpy pkt 256 turns p i array).isSome ↔ 0 ∈ (pkt.drop p).take (256 - i)) ∧
    ∀ array', strcpy pkt 256 turns p i array = some array' → Terminated array' := by
  induction turns generalizing p i array with
  | zero => simp [strcpy,show 256 - i = 0 by omega]
  | succ turns ih =>
    unfold strcpy
    cases here : pkt[p]? with
    | none => simp [List.drop_eq_nil_of_le (List.getElem?_eq_none_iff.mp here)]
    | some ch =>
      obtain ⟨inside,rfl⟩ := List.getElem?_eq_some_iff.mp here
      rw [Option.bind_some,List.drop_eq_getElem_cons inside,poke,List.length_singleton]
      by_cases room : i + 1 ≤ 256
      · obtain ⟨more,terminated⟩ := ih (p := p + 1) (i := i + 1) (by omega) (store array i [pkt[p]])
        rw [if_pos room,Option.bind_some,show 256 - i = 256 - (i + 1) + 1 by omega,List.take_succ_cons,List.mem_cons]
        split
        next nul =>
          refine ⟨by simp [nul],fun array' eq => ?_⟩
          cases eq
          exact ⟨i,by omega,by rw [nul]; exact storeInside (i := 0) (by simp)⟩
        next other => exact ⟨by simp [more,Ne.symm other],terminated⟩
      · simp [room,show 256 - i = 0 by omega]

end

def area (pkt : Bytes) : Bytes := if (pkt.drop optionMagic).take 4 = bootpOptionMagic then pkt.drop options else []

/- The packets that parse_dhcp gets along with. -/
structure Sound (pkt : Bytes) : Prop where
  magic : options ≤ pkt.length
  uuid : ¬ EmptyUuid (area pkt)
  name : (items (area pkt)).foldl Item.overload 0 &&& 1 = 0 → pkt[bootfile]? ≠ some 0 → 0 ∈ (pkt.drop bootfile).take 256

section
variable {pkt : Bytes} {g : Globals}

theorem setAddressesServes (long : optionMagic ≤ pkt.length) : ∃ g', setAddresses pkt g = some g' ∧ Kept g g' := by
  unfold optionMagic at long
  have first : peek pkt yip 4 = some ((pkt.drop yip).take 4) := if_pos (by unfold yip; omega)
  have second : peek pkt sip 4 = some ((pkt.drop sip).take 4) := if_pos (by unfold sip; omega)
  rw [setAddresses,first,second]
  refine ⟨_,rfl,?_⟩
  dsimp only
  split <;> split <;> exact ⟨rfl,rfl⟩

theorem readMagic (long : options ≤ pkt.length) : peek pkt optionMagic 4 = some ((pkt.drop optionMagic).take 4) := by
  unfold options at long
  exact if_pos (by unfold optionMagic; omega)

theorem optionsLength (long : options ≤ pkt.length) : ((pkt.drop options).length : Int) = (pkt.length : Int) - options := by
  rw [List.length_drop]
  omega

theorem parseOptionsServes (long : options ≤ pkt.length) (ok : ¬ EmptyUuid (area pkt)) (terminated : Terminated g.bootFile) :
    ∃ g', parseOptions pkt g = some g' ∧ Terminated g'.bootFile ∧
      g'.overLoad = (items (area pkt)).foldl Item.overload g.overLoad := by
  have empty (none' : area pkt = []) :
      ∃ g', some g = some g' ∧ Terminated g'.bootFile ∧ g'.overLoad = (items (area pkt)).foldl Item.overload g.overLoad :=
    ⟨g,rfl,terminated,by rw [none',items]; rfl⟩
  unfold parseOptions
  dsimp only
  split
  next nothing =>
    refine empty ?_
    rw [area,List.drop_of_length_le (show pkt.length ≤ options by omega)]
    exact ite_self _
  next =>
    rw [readMagic long,Option.bind_some]
    split
    next magic =>
      have all : area pkt = pkt.drop options := if_pos magic
      have length := optionsLength long
      rw [all] at ok ⊢
      rw [← length]
      exact regionServes (List.prefix_refl _) (by omega) (fun c mem outside => ok ((outsideIff long rfl).mp ⟨c,mem,outside⟩))
        terminated
    next other => exact empty (if_neg other)

theorem parseOptionsFails (long : options ≤ pkt.length) (bad : EmptyUuid (area pkt)) : parseOptions pkt g = none := by
  have some' : area pkt ≠ [] := by
    rintro nothing
    obtain ⟨first,_,empty⟩ := bad
    simp [nothing] at empty
  have magic : (pkt.drop optionMagic).take 4 = bootpOptionMagic := by
    by_contra other
    exact some' (if_neg other)
  have all : area pkt = pkt.drop options := if_pos magic
  rw [all] at bad some'
  obtain ⟨c,mem,outside⟩ := (outsideIff long rfl).mpr bad
  have ran : parseDhcpOptions (fun' pkt) pkt 2 options (pkt.drop options).length 0 g = _ :=
    parseCalls (List.prefix_refl _) 0 g
  have more : (pkt.length : Int) - options ≠ 0 := fun none' => some' (List.drop_of_length_le (by omega))
  rw [optionsLength long,runOutside mem outside] at ran
  rw [parseOptions,if_neg more,readMagic long,Option.bind_some,if_pos magic,ran]

theorem bootfileIff (long : options ≤ pkt.length) (terminated : Terminated g.bootFile) :
    ((parseBootfile pkt g).isSome ↔ (g.overLoad &&& 1 = 0 → pkt[bootfile]? ≠ some 0 → 0 ∈ (pkt.drop bootfile).take 256)) ∧
    ∀ g', parseBootfile pkt g = some g' → Terminated g'.bootFile := by
  unfold options at long
  unfold parseBootfile
  split
  next overloaded =>
    obtain ⟨g',ran,terminated'⟩ : ∃ g', parseDhcpOptions (fun' pkt) pkt 2 bootfile ((128 : Nat) : Int) 0 g = some g' ∧
        Terminated g'.bootFile := fieldServes (by unfold bootfile; omega) terminated
    rw [show (128 : Int) = ((128 : Nat) : Int) from rfl,ran]
    exact ⟨⟨fun _ free => absurd free overloaded,fun _ => rfl⟩,fun _ eq => by cases eq; exact terminated'⟩
  next free =>
    have inside : bootfile < pkt.length := by unfold bootfile; omega
    have byte : (pkt.drop bootfile).take 1 = [pkt[bootfile]] := by
      rw [List.drop_eq_getElem_cons inside]
      rfl
    have free : g.overLoad &&& 1 = 0 := by omega
    rw [peek,if_pos (by omega),Option.bind_some,byte,List.getElem?_eq_getElem inside]
    split
    next nothing =>
      refine ⟨?_,fun _ eq => by cases eq; exact terminated⟩
      simp_all
    next name =>
      obtain ⟨copies,nul⟩ := @strcpyIff pkt 257 bootfile 0 (by decide) g.bootFile
      refine ⟨?_,fun g' eq => ?_⟩
      · rw [Option.isSome_map,copies]
        simp_all
      · obtain ⟨array,copied,rfl⟩ := Option.map_eq_some_iff.mp eq
        exact nul array copied

theorem snameServes (long : options ≤ pkt.length) (terminated : Terminated g.bootFile) :
    ∃ g', parseSname pkt g = some g' ∧ Terminated g'.bootFile := by
  unfold options at long
  unfold parseSname
  split
  · show ∃ g', parseDhcpOptions (fun' pkt) pkt 2 sname ((64 : Nat) : Int) 0 g = some g' ∧ Terminated g'.bootFile
    exact fieldServes (by unfold sname; omega) terminated
  · exact ⟨g,rfl,terminated⟩

theorem shortFails (short : pkt.length < options) : parseOptions pkt g = none := by
  unfold parseOptions
  unfold options at short
  rw [if_neg (by unfold options; omega),peek,if_neg (by unfold optionMagic; omega)]
  rfl

end

/- parse_dhcp stays inside of the packet and of its arrays, and leaves boot_file terminated, just
for the sound packets. -/
theorem parseDhcpIff (pkt : Bytes) (header : optionMagic ≤ pkt.length) (g : Globals) (terminated : Terminated g.bootFile) :
    (∃ g', parseDhcp pkt g = some g' ∧ Terminated g'.bootFile) ↔ Sound pkt := by
  obtain ⟨g₁,first,kept⟩ := setAddressesServes (g := { g with ipver := 4, overLoad := 0 }) header
  have terminated₁ : Terminated g₁.bootFile := kept.bootFile ▸ terminated
  rw [parseDhcp,first,Option.bind_some]
  by_cases long : options ≤ pkt.length
  · by_cases uuid : EmptyUuid (area pkt)
    · rw [parseOptionsFails long uuid]
      simp only [Option.bind_none,reduceCtorEq,false_and,exists_false,false_iff]
      exact fun sound => sound.uuid uuid
    · obtain ⟨g₂,second,terminated₂,overLoad⟩ := parseOptionsServes long uuid terminated₁
      obtain ⟨named,terminated₃⟩ := bootfileIff long terminated₂
      rw [second,Option.bind_some]
      rw [overLoad,kept.overLoad] at named
      refine Iff.trans ?_ (named.trans ⟨fun name => ⟨long,uuid,name⟩,Sound.name⟩)
      constructor
      · rintro ⟨g',ran,_⟩
        obtain ⟨g₃,third,_⟩ := Option.bind_eq_some_iff.mp ran
        simp [third]
      · intro some'
        obtain ⟨g₃,third⟩ := Option.isSome_iff_exists.mp some'
        rw [third,Option.bind_some]
        exact snameServes long (terminated₃ g₃ third)
  · rw [shortFails (by omega)]
    simp only [Option.bind_none,reduceCtorEq,false_and,exists_false,false_iff]
    exact fun sound => long sound.magic

def initial : Globals where
  ipver := 0
  myip := 0
  serverip := 0
  gateway := 0
  netmask := 0
  overLoad := 0
  dnsServer := fun _ => 0
  localDomain := fun _ => 0
  macLen := 0
  macType := 0
  mac := fun _ => 0
  bootFile := fun _ => 0
  haveUuid := false
  uuidType := 0
  uuid := fun _ => 0
  dhcpMagic := 0
  configName := fun _ => 0
  pathPrefix := fun _ => 0
  rebootTime := 0

theorem initialTerminated : Terminated initial.bootFile := ⟨0,by decide,rfl⟩

/- A file name, the type of the message, a netmask and the name of another file. -/
def ackPacket : Bytes := List.replicate 108 0 ++ ([112,120,101,46,48] ++ (List.replicate 123 0 ++
  [0x63,0x82,0x53,0x63,53,1,5,1,4,255,255,255,0,67,3,97,46,98,255]))

set_option maxRecDepth 8000 in
theorem ackPacketArea : area ackPacket = [53,1,5,1,4,255,255,255,0,67,3,97,46,98,255] := by decide

set_option maxRecDepth 8000 in
theorem ackPacketSound : Sound ackPacket where
  magic := by decide
  uuid := by
    rintro ⟨first,_,same⟩
    have last := congrArg List.getLast? same
    rw [ackPacketArea,List.getLast?_append] at last
    simp at last
  name := fun _ _ => by decide

theorem parseDhcpIffAck : ∃ g', parseDhcp ackPacket initial = some g' ∧ Terminated g'.bootFile :=
  (parseDhcpIff ackPacket (Nat.le_trans (by decide) ackPacketSound.magic) initial initialTerminated).mpr ackPacketSound

def longName : Bytes := List.replicate 108 0 ++ List.replicate 132 97

theorem longNameLong : options ≤ longName.length := by
  rw [longName,List.length_append,List.length_replicate,List.length_replicate]
  decide

set_option maxRecDepth 8000 in
theorem longNameRead : ¬ ∀ pkt : Bytes, options ≤ pkt.length → ∀ g : Globals, Terminated g.bootFile →
    ∃ g', parseDhcp pkt g = some g' ∧ Terminated g'.bootFile := by
  intro all
  obtain ⟨g',ran,_⟩ := all longName longNameLong initial initialTerminated
  have none' : (parseDhcp longName initial).isNone := by decide
  simp [ran] at none'

end Syslinux.DhcpParse
