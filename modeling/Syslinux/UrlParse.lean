import Syslinux.UrlEscape

/-! url_type and parse_url of core/fs/pxe/urlparse.c. The string is cut in place: a NUL in place of a
delimiter leaves two strings, the one in front of it and the one behind. -/
namespace Syslinux.UrlParse
open UrlEscape (Bytes)

def slash : UInt8 := 47
def colon : UInt8 := 58
def hash : UInt8 := 35
def atSign : UInt8 := 64

@[grind =] def cut (c : UInt8) : Bytes → Option (Bytes × Bytes)
  | [] => none
  | d::s => if d = c then some ([],s) else (cut c s).map fun parts => (d::parts.1,parts.2)

inductive UrlType where
  | normal | oldTftp | suffix
  deriving DecidableEq, Repr

/- struct url_info; none is NULL. -/
structure UrlInfo where
  scheme : Option Bytes
  user : Option Bytes
  passwd : Option Bytes
  host : Option Bytes
  port : Nat
  path : Option Bytes
  type : UrlType
  deriving DecidableEq, Repr

def TwoSlashes (q : Bytes) : Prop := q.take 2 = [slash,slash]
def SecondColon (q : Bytes) : Prop := q.head? = some colon

instance (q) : Decidable (TwoSlashes q) := by unfold TwoSlashes; infer_instance
instance (q) : Decidable (SecondColon q) := by unfold SecondColon; infer_instance

def urlType (url : Bytes) : UrlType :=
  match cut colon url with
  | none => .suffix
  | some (_,q) => if TwoSlashes q then .normal else if SecondColon q then .oldTftp else .suffix

def signed (c : UInt8) : Int := if c < 128 then c.toNat else (c.toNat : Int) - 256

def portLoop : Bytes → Nat → Nat
  | [],port => port
  | c::r,port =>
      let c := signed c - 48
      if 9 < c then port else portLoop r (((port : Int)*10 + c) % 2^32).toNat

def parsePath (p : Bytes) : Bytes × Bytes :=
  match cut slash p with
  | some (p,q) => (p,((cut hash q).map Prod.fst).getD q)
  | none => (p,[])

def parseUser (p : Bytes) : Option Bytes × Option Bytes × Bytes :=
  match cut atSign p with
  | none => (none,none,p)
  | some (user,r) => match cut colon user with
      | some (user,s) => (some user,some s,r)
      | none => (some user,none,r)

def parseHost (p : Bytes) : Bytes × Nat :=
  match cut colon p with
  | some (host,r) => (host,portLoop r 0)
  | none => (p,0)

def parseNormal (scheme p : Bytes) : UrlInfo :=
  let (p,path) := parsePath p
  let (user,passwd,p) := parseUser p
  let (host,port) := parseHost p
  ⟨some scheme,user,passwd,some host,port,some path,.normal⟩

def tftp : Bytes := [116,102,116,112]

def parseUrl (url : Bytes) : UrlInfo :=
  match cut colon url with
  | none => ⟨none,none,none,none,0,some url,.suffix⟩
  | some (p,q) =>
      if TwoSlashes q then parseNormal p (q.drop 2)
      else if SecondColon q then ⟨some tftp,none,none,some p,0,some (q.drop 1),.oldTftp⟩
      else ⟨none,none,none,none,0,some url,.suffix⟩

/- The parts of a URL as they are written. -/
structure Url where
  scheme : Bytes
  login : Option (Bytes × Option Bytes)
  host : Bytes
  port : Option Bytes
  path : Option Bytes
  fragment : Option Bytes

def behind (c : UInt8) (part : Option Bytes) : Bytes := (part.map (c::·)).getD []

def Url.user (u : Url) : Bytes := (u.login.map fun l => l.1 ++ behind colon l.2 ++ [atSign]).getD []
def Url.authority (u : Url) : Bytes := u.user ++ (u.host ++ behind colon u.port)
def Url.text (u : Url) : Bytes :=
  u.scheme ++ colon::slash::slash::(u.authority ++ (behind slash u.path ++ behind hash u.fragment))

structure Url.Delimited (u : Url) : Prop where
  noNul : 0 ∉ u.text
  scheme : colon ∉ u.scheme
  user : ∀ l, u.login = some l → colon ∉ l.1 ∧ atSign ∉ l.1 ∧ slash ∉ l.1
  passwd : ∀ l s, u.login = some l → l.2 = some s → atSign ∉ s ∧ slash ∉ s
  host : colon ∉ u.host ∧ slash ∉ u.host
  port : ∀ t, u.port = some t → slash ∉ t
  path : ∀ t, u.path = some t → hash ∉ t

def decimal (digits : Bytes) : Nat := digits.foldl (fun n d => n*10 + (d.toNat - 48)) 0
def isDigit (c : UInt8) : Bool := 48 ≤ c && c ≤ 57
def digits (t : Bytes) : Bytes := t.takeWhile isDigit

/- What parse_url is to return for these parts. -/
def Url.parts (u : Url) : UrlInfo :=
  ⟨some u.scheme,u.login.map Prod.fst,u.login.bind Prod.snd,some u.host,(u.port.map fun t => decimal (digits t)).getD 0,
    some (u.path.getD []),.normal⟩

section
variable {c d : UInt8} {a b s : Bytes}

theorem cutAt (free : c ∉ a) : cut c (a ++ c::b) = some (a,b) := by
  induction a with
  | nil => simp [cut]
  | cons d a ih =>
    have other : d ≠ c := fun same => free (by simp [same])
    simp [cut,other,ih fun mem => free (by simp [mem])]

theorem cutNone (free : c ∉ a) : cut c a = none := by
  induction a with
  | nil => rfl
  | cons d a ih =>
    have other : d ≠ c := fun same => free (by simp [same])
    simp [cut,other,ih fun mem => free (by simp [mem])]

theorem cutNoneFree (parts : cut c a = none) : c ∉ a := by
  induction a with
  | nil => simp
  | cons d a ih =>
    unfold cut at parts
    split at parts
    next same => cases parts
    next other => simpa [Ne.symm other] using ih (Option.map_eq_none_iff.mp parts)

theorem cutSome (parts : cut c s = some (a,b)) : s = a ++ c::b ∧ c ∉ a := by
  induction s generalizing a with
  | nil => cases parts
  | cons d s ih =>
    unfold cut at parts
    split at parts
    next same => cases parts; exact ⟨by simp [same],by simp⟩
    next other =>
      obtain ⟨⟨a',b'⟩,parts',eq⟩ := Option.map_eq_some_iff.mp parts
      cases eq
      obtain ⟨rfl,free⟩ := ih parts'
      exact ⟨rfl,by simp [free,Ne.symm other]⟩

theorem cutWhile (c : UInt8) (s : Bytes) :
    ((cut c s).map Prod.fst).getD s = s.takeWhile (· ≠ c) := by
  induction s with
  | nil => rfl
  | cons d s ih =>
    unfold cut
    by_cases same : d = c
    · simp [same]
    · rw [if_neg same,List.takeWhile_cons,if_pos (by simpa using same),← ih]
      cases cut c s <;> rfl

theorem frontOf (free : c ∉ a) : (a ++ c::b).takeWhile (· ≠ c) = a := by
  rw [← cutWhile,cutAt free]
  rfl

theorem frontAll (free : c ∉ a) : a.takeWhile (· ≠ c) = a := by
  rw [← cutWhile,cutNone free]
  rfl

end

/- A fragment that no path comes before is not seen as one: up to its first slash it ends up behind
the host or the port, and what follows is taken for the path. -/
def Url.extra (u : Url) : Bytes :=
  match u.path,u.fragment with
  | none,some f => hash::f.takeWhile (· ≠ slash)
  | _,_ => []

def Url.pathSeen (u : Url) : Bytes :=
  match u.path with
  | some t => t
  | none => ((cut slash (u.fragment.getD [])).map fun parts => parts.2.takeWhile (· ≠ hash)).getD []

/- The characters of a port that are read, and their value with the ones below the digits counted
as negative. -/
def portRun (t : Bytes) : Bytes := t.takeWhile fun c => decide (signed c - 48 ≤ 9)
def signedDecimal (t : Bytes) (n : Int) : Int := t.foldl (fun n c => n*10 + (signed c - 48)) n

def PortAgrees (t extra : Bytes) : Prop :=
  decimal (digits t) < 2^32 ∧ (2^32 : Int) ∣ signedDecimal (portRun (t ++ extra)) 0 - decimal (digits t)

structure Url.Plain (u : Url) : Prop where
  user : u.login = none → atSign ∉ u.host ++ (behind colon u.port ++ u.extra)
  port : ∀ t, u.port = some t → PortAgrees t u.extra
  noPort : u.port = none → u.extra = []
  path : u.pathSeen = u.path.getD []

section
variable {u : Url}

theorem signedDecimalCons (c : UInt8) (t : Bytes) (n : Int) :
    signedDecimal (c::t) n = signedDecimal t (n*10 + (signed c - 48)) := rfl

theorem signedDecimalMod (t : Bytes) {n m : Int} (same : n % 2^32 = m % 2^32) :
    signedDecimal t n % 2^32 = signedDecimal t m % 2^32 := by
  induction t generalizing n m with
  | nil => exact same
  | cons c t ih =>
    rw [signedDecimalCons,signedDecimalCons]
    exact ih (by omega)

theorem portLoopValue (t : Bytes) {port : Nat} (small : port < 2^32) :
    (portLoop t port : Int) = signedDecimal (portRun t) port % 2^32 := by
  induction t generalizing port with
  | nil =>
    show (port : Int) = (port : Int) % 2^32
    omega
  | cons c t ih =>
    unfold portLoop portRun
    rw [List.takeWhile_cons]
    by_cases above : 9 < signed c - 48
    · rw [if_pos above,if_neg (by simp; omega)]
      show (port : Int) = (port : Int) % 2^32
      omega
    · rw [if_neg above,if_pos (by simp; omega),ih (by omega),signedDecimalCons]
      exact signedDecimalMod _ (by omega)

theorem portLoopAgrees (t extra : Bytes) : portLoop (t ++ extra) 0 = decimal (digits t) ↔ PortAgrees t extra := by
  have value := portLoopValue (t ++ extra) (show 0 < 2^32 by decide)
  unfold PortAgrees
  rw [Int.natCast_zero] at value
  constructor
  · intro same
    rw [same] at value
    exact ⟨by omega,by omega⟩
  · rintro ⟨small,divides⟩
    omega

theorem behindFree {c d : UInt8} {part : Option Bytes} (other : d ≠ c) (free : ∀ t, part = some t → d ∉ t) : d ∉ behind c part := by
  cases part with
  | none => simp [behind]
  | some t => simpa [behind,other] using free t rfl

theorem authorityFree (ok : u.Delimited) : slash ∉ u.authority := by
  have user : slash ∉ u.user := by
    unfold Url.user
    cases login : u.login with
    | none => simp
    | some l =>
      have passwd := behindFree (by decide : slash ≠ colon) fun s passwd => (ok.passwd l s login passwd).2
      simpa [passwd,(ok.user l login).2.2] using (by decide : slash ≠ atSign)
  have port := behindFree (by decide : slash ≠ colon) ok.port
  simp [Url.authority,user,port,ok.host.2]

theorem parsePathSeen (ok : u.Delimited) :
    parsePath (u.authority ++ (behind slash u.path ++ behind hash u.fragment)) = (u.authority ++ u.extra,u.pathSeen) := by
  have free := authorityFree ok
  unfold Url.extra Url.pathSeen parsePath
  cases path : u.path with
  | some t =>
    have noHash := ok.path t path
    rw [show behind slash (some t) = slash::t from rfl,List.cons_append,cutAt free]
    simp only [List.append_nil]
    rw [cutWhile]
    cases u.fragment with
    | none => rw [show behind hash none = [] from rfl,List.append_nil,frontAll noHash]
    | some f => rw [show behind hash (some f) = hash::f from rfl,frontOf noHash]
  | none =>
    rw [show behind slash none = [] from rfl,List.nil_append]
    cases u.fragment with
    | none =>
      rw [show behind hash none = [] from rfl,List.append_nil,cutNone free]
      rfl
    | some f =>
      rw [show behind hash (some f) = hash::f from rfl,Option.getD_some]
      have noHash : slash ∉ u.authority ++ [hash] := by simpa [free] using (by decide : slash ≠ hash)
      cases parts : cut slash f with
      | none =>
        have noSlash := cutNoneFree parts
        rw [cutNone (by simp_all)]
        dsimp only
        rw [frontAll noSlash]
        rfl
      | some parts' =>
        obtain ⟨rfl,noSlash⟩ := cutSome parts
        rw [show u.authority ++ hash::(parts'.1 ++ slash::parts'.2) =
          (u.authority ++ hash::parts'.1) ++ slash::parts'.2 by simp,cutAt (by simp_all)]
        dsimp only
        rw [frontOf noSlash,cutWhile]
        simp

theorem parseUserLogin (ok : u.Delimited) (rest : Bytes) (login : u.login ≠ none ∨ atSign ∉ rest) :
    parseUser (u.user ++ rest) = (u.login.map Prod.fst,u.login.bind Prod.snd,rest) := by
  unfold parseUser Url.user
  cases here : u.login with
  | none =>
    have free := login.resolve_left (by simp [here])
    rw [Option.map_none,Option.getD_none,List.nil_append,cutNone free]
    rfl
  | some l =>
    obtain ⟨noColon,noAt,_⟩ := ok.user l here
    have free : atSign ∉ l.1 ++ behind colon l.2 := by
      have := behindFree (by decide : atSign ≠ colon) fun s passwd => (ok.passwd l s here passwd).1
      simp [this,noAt]
    rw [Option.map_some,Option.getD_some,List.append_assoc,List.singleton_append,cutAt free]
    simp only
    cases passwd : l.2 with
    | none => simp [behind,cutNone noColon,passwd]
    | some s => simp [show behind colon (some s) = colon::s from rfl,cutAt noColon,passwd]

theorem parseUserWrong {rest : Bytes} (here : atSign ∈ rest) : (parseUser rest).1 ≠ none := by
  unfold parseUser
  cases parts : cut atSign rest with
  | none => exact absurd here (cutNoneFree parts)
  | some parts' =>
    simp only
    cases cut colon parts'.1 <;> simp

theorem parseHostPort (ok : u.Delimited) :
    (u.port = none → u.extra = [] → parseHost (u.host ++ (behind colon u.port ++ u.extra)) = (u.host,0)) ∧
    (∀ t, u.port = some t → parseHost (u.host ++ (behind colon u.port ++ u.extra)) = (u.host,portLoop (t ++ u.extra) 0)) := by
  refine ⟨fun none' nothing => ?_,fun t some' => ?_⟩
  · rw [none',nothing,parseHost,show behind colon none = [] from rfl,List.append_nil,List.append_nil,cutNone ok.host.1]
  · rw [some',parseHost,show behind colon (some t) = colon::t from rfl,List.cons_append,cutAt ok.host.1]

theorem parseHostWrong {rest : Bytes} (some' : rest ≠ []) (noColon : rest.head? ≠ some colon) : (parseHost (u.host ++ rest)).1 ≠ u.host := by
  unfold parseHost
  cases parts : cut colon (u.host ++ rest) with
  | none => simpa using some'
  | some parts' =>
    obtain ⟨same,free⟩ := cutSome parts
    simp only
    intro eq
    rw [eq] at same
    have := List.append_cancel_left same
    rw [this] at noColon
    simp at noColon

theorem parseUrlText (ok : u.Delimited) : parseUrl u.text =
    parseNormal u.scheme (u.authority ++ (behind slash u.path ++ behind hash u.fragment)) := by
  unfold parseUrl Url.text
  rw [cutAt ok.scheme]
  simp [TwoSlashes]

theorem extraHead (u : Url) : u.extra.head? ≠ some colon := by
  unfold Url.extra
  split
  · simpa using (by decide : hash ≠ colon)
  · simp

/- The parts come back just when the URL is a plain one. -/
theorem partsIff (ok : u.Delimited) : parseUrl u.text = u.parts ↔ u.Plain := by
  have whole : u.authority ++ u.extra = u.user ++ (u.host ++ (behind colon u.port ++ u.extra)) := by simp [Url.authority]
  obtain ⟨noPort,port⟩ := parseHostPort ok
  rw [parseUrlText ok,parseNormal,parsePathSeen ok]
  dsimp only
  rw [whole]
  by_cases login : u.login ≠ none ∨ atSign ∉ u.host ++ (behind colon u.port ++ u.extra)
  · have free : u.login = none → atSign ∉ u.host ++ (behind colon u.port ++ u.extra) := fun none' =>
      login.resolve_left (not_not.mpr none')
    rw [parseUserLogin ok _ login]
    dsimp only
    cases here : u.port with
    | some t =>
      rw [← here,port t here]
      simp only [Url.parts,UrlInfo.mk.injEq,here,true_and,Option.map_some,Option.getD_some,portLoopAgrees,Option.some.injEq,and_true]
      refine ⟨fun ⟨agrees,path⟩ => ⟨free,?_,?_,path⟩,fun plain => ⟨plain.port t here,plain.path⟩⟩
      · intro t' here'
        rw [here] at here'
        cases here'
        exact agrees
      · intro none'
        rw [here] at none'
        cases none'
    | none =>
      rw [← here]
      by_cases nothing : u.extra = []
      · rw [noPort here nothing]
        simp only [Url.parts,UrlInfo.mk.injEq,here,true_and,Option.map_none,Option.getD_none,Option.some.injEq,and_true]
        refine ⟨fun path => ⟨free,?_,fun _ => nothing,path⟩,fun plain => plain.path⟩
        intro t some'
        rw [here] at some'
        cases some'
      · have wrong := parseHostWrong (u := u) nothing (extraHead u)
        rw [show behind colon u.port = [] by rw [here]; rfl,List.nil_append]
        refine ⟨fun same => absurd (Option.some.inj (congrArg UrlInfo.host same)) wrong,fun plain => ?_⟩
        exact absurd (plain.noPort here) nothing
  · rw [not_or,not_not,not_not] at login
    obtain ⟨none',here⟩ := login
    have user : u.user = [] := by simp [Url.user,none']
    have wrong := parseUserWrong here
    rw [user,List.nil_append]
    refine ⟨fun same => absurd ?_ wrong,fun plain => absurd here (plain.user none')⟩
    have := congrArg UrlInfo.user same
    simpa [Url.parts,none'] using this

end

theorem parseOldTftp {host path : Bytes} (free : colon ∉ host) :
    parseUrl (host ++ colon::colon::path) = ⟨some tftp,none,none,some host,0,some path,.oldTftp⟩ := by
  unfold parseUrl
  rw [cutAt free]
  simp [TwoSlashes,SecondColon,show colon ≠ slash by decide]

theorem parseSuffix {url : Bytes} (normal : ∀ scheme rest, colon ∉ scheme → url ≠ scheme ++ colon::slash::slash::rest)
    (oldTftp : ∀ host path, colon ∉ host → url ≠ host ++ colon::colon::path) :
    parseUrl url = ⟨none,none,none,none,0,some url,.suffix⟩ := by
  unfold parseUrl
  cases parts : cut colon url with
  | none => rfl
  | some parts' =>
    obtain ⟨rfl,free⟩ := cutSome parts
    dsimp only
    rw [if_neg,if_neg]
    · intro second
      obtain ⟨rest,eq⟩ : ∃ rest, parts'.2 = colon::rest := List.head?_eq_some_iff.mp second
      exact oldTftp _ _ free (by rw [eq])
    · intro slashes
      have eq := List.take_append_drop 2 parts'.2
      rw [slashes] at eq
      exact normal _ (parts'.2.drop 2) free (by rw [← eq]; simp)

theorem typeSame (url : Bytes) : (parseUrl url).type = urlType url := by
  unfold parseUrl urlType
  cases cut colon url with
  | none => rfl
  | some parts =>
    dsimp only
    split
    · rfl
    · split <;> rfl

/- Where the parts come back, and what else parse_url tells apart. -/
theorem parseUrlIff (u : Url) (host path url : Bytes) : (u.Delimited → (parseUrl u.text = u.parts ↔ u.Plain)) ∧
    (colon ∉ host → parseUrl (host ++ colon::colon::path) = ⟨some tftp,none,none,some host,0,some path,.oldTftp⟩) ∧
    ((∀ scheme rest, colon ∉ scheme → url ≠ scheme ++ colon::slash::slash::rest) →
      (∀ before after, colon ∉ before → url ≠ before ++ colon::colon::after) →
      parseUrl url = ⟨none,none,none,none,0,some url,.suffix⟩) ∧
    (parseUrl url).type = urlType url :=
  ⟨partsIff,parseOldTftp,parseSuffix,typeSame url⟩

/- ftp://h:8-0/ -/
def dashedPort : Url := ⟨[102,116,112],none,[104],some [56,45,48],some [],none⟩

theorem dashedDelimited : dashedPort.Delimited where
  noNul := by decide
  scheme := by decide
  user := by rintro l ⟨⟩
  passwd := by rintro l s ⟨⟩
  host := by decide
  port := by rintro t ⟨⟩; decide
  path := by rintro t ⟨⟩; decide

theorem dashCounts : ¬ ∀ u : Url, u.Delimited → parseUrl u.text = u.parts := fun all =>
  absurd (all dashedPort dashedDelimited) (by decide)

end Syslinux.UrlParse
