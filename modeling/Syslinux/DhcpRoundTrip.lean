import Syslinux.Dhcp

/-! Packing a set of options and unpacking the packet again. The three fields are encoded
alike, so one lemma says what a packed field holds and one what unpacking gives back. -/
namespace Syslinux.Dhcp

def encode (options : List (Nat × List UInt8)) : List UInt8 := options.flatMap (fun x => emit x.1 x.2)

def decode (bytes : List UInt8) (opt : Options) : Options := unpackFrom bytes.length bytes opt

theorem unpackFuel {fuel bytes opt} (enough : bytes.length ≤ fuel) : unpackFrom fuel bytes opt = decode bytes opt := by
  unfold decode
  induction fuel using Nat.strong_induction_on generalizing bytes opt with
  | _ fuel ih =>
    match fuel,bytes with
    | 0,[] => rfl
    | _+1,[] => rfl
    | _+1,[op] => rfl
    | fuel+1,op::next::rest =>
      simp only [List.length_cons] at enough
      simp only [unpackFrom,List.length_cons]
      have shorter := List.length_drop (i := next.toNat) (l := rest)
      have whole : (rest.drop next.toNat).length ≤ rest.length + 1 := by omega
      rw [ih fuel (by omega) (by simp only [List.length_cons]; omega),ih fuel (by omega) (by omega),
        ih (rest.length + 1) (by omega) whole]
      simp only [List.length_cons]

theorem decodeCons (op next : UInt8) (rest : List UInt8) (opt : Options) :
    decode (op::next::rest) opt =
      if op = 0 then decode (next::rest) opt
      else if op = 255 then opt
      else if rest.length < next.toNat then opt
      else decode (rest.drop next.toNat) (opt.append op.toNat (rest.take next.toNat)) := by
  have shorter := List.length_drop (i := next.toNat) (l := rest)
  conv => lhs; unfold decode
  simp only [List.length_cons,unpackFrom]
  rw [unpackFuel (by simp),unpackFuel (by omega)]

theorem decodeEnd (rest : List UInt8) (opt : Options) : decode (255::rest) opt = opt := by
  cases rest with
  | nil => rfl
  | cons next rest => rw [decodeCons]; simp

theorem appendAppend {opt : Options} {i : Nat} {a b : List UInt8} :
    (opt.append i a).append i b = opt.append i (a ++ b) := by
  funext j
  unfold Options.append Options.set
  split <;> simp

theorem decodeChunks {i fuel : Nat} (low : 1 ≤ i) (high : i < 255) {data rest : List UInt8} {opt : Options}
    (enough : data.length ≤ fuel) :
    decode (chunks (UInt8.ofNat i) (fuel + 1) data ++ rest) opt = decode rest (opt.append i data) := by
  have number : (UInt8.ofNat i).toNat = i := by simp [UInt8.toNat_ofNat']; omega
  have proper : UInt8.ofNat i ≠ 0 ∧ UInt8.ofNat i ≠ 255 := by
    constructor <;> intro h <;> have := congrArg UInt8.toNat h <;> rw [number] at this <;> simp at this <;> omega
  induction fuel generalizing data opt with
  | zero =>
    have empty := List.length_eq_zero_iff.mp (Nat.le_zero.mp enough)
    subst empty
    simp only [chunks,List.length_nil,Nat.zero_le,if_true,List.append_nil,List.take_nil,List.nil_append,
      List.cons_append,Nat.zero_min]
    rw [decodeCons]
    simp [proper,number]
  | succ fuel ih =>
    rw [chunks]
    simp only [List.cons_append,List.append_assoc]
    rw [decodeCons,if_neg proper.1,if_neg proper.2]
    have size : (UInt8.ofNat (min data.length 255)).toNat = min data.length 255 := by simp [UInt8.toNat_ofNat']
    have taken : (data.take (min data.length 255)).length = min data.length 255 := by simp
    rw [size,number,if_neg (by simp only [List.length_append,taken]; omega)]
    rw [List.drop_append_of_le_length (by omega),List.take_append_of_le_length (by omega),
      List.drop_eq_nil_of_le (by omega),List.take_of_length_le (by omega),List.nil_append]
    by_cases short : data.length ≤ 255
    · rw [if_pos short,List.nil_append,List.take_of_length_le (by omega)]
    · rw [if_neg short,ih (by simp only [List.length_drop]; omega),appendAppend,List.take_append_drop]

theorem decodeEmit {i : Nat} (low : 1 ≤ i) (high : i < 255) (data rest : List UInt8) (opt : Options) :
    decode (emit i data ++ rest) opt = decode rest (opt.append i data) :=
  decodeChunks low high (Nat.le_refl _)

theorem decodeEncode {options : List (Nat × List UInt8)} (numbers : ∀ x ∈ options, 1 ≤ x.1 ∧ x.1 < 255)
    (rest : List UInt8) (opt : Options) :
    decode (encode options ++ rest) opt = decode rest (options.foldl (fun o x => o.append x.1 x.2) opt) := by
  induction options generalizing opt with
  | nil => rfl
  | cons x options ih =>
    obtain ⟨low,high⟩ := numbers x List.mem_cons_self
    simp only [encode,List.flatMap_cons,List.append_assoc,List.foldl_cons] at ih ⊢
    rw [decodeEmit low high]
    exact ih (fun y m => numbers y (List.mem_cons_of_mem _ m)) _

theorem chunksLength {op : UInt8} {fuel : Nat} {data : List UInt8} (enough : data.length ≤ fuel) :
    (chunks op (fuel + 1) data).length =
      if data.length ≤ 255 then data.length + 2 else data.length + 2 * ((data.length + 254) / 255) := by
  induction fuel generalizing data with
  | zero =>
    have empty := List.length_eq_zero_iff.mp (Nat.le_zero.mp enough)
    subst empty
    simp [chunks]
  | succ fuel ih =>
    rw [chunks]
    by_cases short : data.length ≤ 255
    · simp [short]
    · simp only [short,if_false,List.length_cons,List.length_append,List.length_take]
      rw [ih (by simp only [List.length_drop]; omega)]
      simp only [List.length_drop]
      split <;> omega

theorem emitLength {i x : Nat} {data : List UInt8} (ok : xlenOf data.length = some x) : (emit i data).length = x := by
  unfold emit
  rw [chunksLength (Nat.le_refl _)]
  unfold xlenOf at ok
  split at ok
  · rename_i short
    rw [if_pos short]; exact Option.some.inj ok
  · rename_i long
    split at ok
    · contradiction
    · rw [if_neg long]; exact Option.some.inj ok

theorem emitLonger (i : Nat) (data : List UInt8) : data.length < (emit i data).length := by
  unfold emit
  rw [chunksLength (Nat.le_refl _)]
  split <;> omega

theorem copyOk {mem q bytes mem'} (ok : copy mem q bytes = some mem') : mem' = store mem q bytes := by
  unfold copy at ok
  split at ok
  · exact (Option.some.inj ok).symm
  · contradiction

theorem clearOk {mem q n mem'} (ok : clear mem q n = some mem') :
    mem' = store mem q (List.replicate n 0) ∧ q + n ≤ 2^32 := by
  unfold clear at ok
  split at ok
  · rename_i fits
    refine ⟨?_,fits⟩
    rw [← Option.some.inj ok]
    funext a
    unfold store
    by_cases below : a < q
    · rw [if_pos below,if_neg (by omega)]
    · rw [if_neg below]
      by_cases inside : a < q + n
      · rw [if_pos ⟨by omega,inside⟩]
        simp [show a - q < n by omega]
      · rw [if_neg (by omega),List.getElem?_eq_none (by simp; omega)]
        rfl
  · contradiction

/- The options a field has taken, in the order written, and the options left over. -/
structure Placed (opt : Options) (placed : List (Nat × List UInt8)) (left : Options) : Prop where
  found : ∀ x ∈ placed, opt x.1 = some x.2 ∧ 1 ≤ x.1 ∧ x.1 < 255
  once : (placed.map Prod.fst).Nodup
  rest : ∀ i, left i = if i ∈ placed.map Prod.fst then none else opt i

theorem Placed.decoded {opt placed left} {o : Options} (h : Placed opt placed left) (fresh : ∀ x ∈ placed, o x.1 = none) (i : Nat) :
    (placed.foldl (fun o x => o.append x.1 x.2) o) i = if i ∈ placed.map Prod.fst then opt i else o i := by
  have found := h.found
  have once := h.once
  clear h
  induction placed generalizing o with
  | nil => simp
  | cons x placed ih =>
    simp only [List.map_cons,List.nodup_cons] at once
    have here := found x List.mem_cons_self
    have step : ∀ y ∈ placed, (o.append x.1 x.2) y.1 = none := by
      intro y m
      have differ : y.1 ≠ x.1 := fun same => once.1 (same ▸ List.mem_map_of_mem m)
      simp only [Options.append,Options.set,differ,if_false]
      exact fresh y (List.mem_cons_of_mem _ m)
    rw [List.foldl_cons,ih step (fun y m => found y (List.mem_cons_of_mem _ m)) once.2]
    simp only [List.map_cons,List.mem_cons]
    by_cases same : i = x.1
    · subst same
      simp [once.1,Options.append,Options.set,fresh x List.mem_cons_self,here.1]
    · simp only [same,false_or,Options.append,Options.set,if_false]

structure Filling (mem : Memory) (field len : Nat) (opt : Options) (visited : List Nat)
    (placed : List (Nat × List UInt8)) (s : Packing) : Prop where
  options : Placed opt placed s.opt
  numbers : ∀ i ∈ placed.map Prod.fst, i ∈ visited
  written : s.mem = store mem field (encode placed)
  at' : s.q = field + (encode placed).length
  room : s.spc + (encode placed).length = len
  some' : 0 < s.spc
  errors : s.err = 0 ↔ ∀ i ∈ visited, s.opt i = none

theorem packOptionOk {mem field len opt visited placed s i s'} (h : Filling mem field len opt visited placed s)
    (low : 1 ≤ i) (high : i < 255) (fresh : i ∉ visited) (ok : packOption s i = some s') :
    ∃ placed', Filling mem field len opt (visited ++ [i]) placed' s' := by
  have unplaced : i ∉ placed.map Prod.fst := fun m => fresh (h.numbers i m)
  have own : s.opt i = opt i := by rw [h.options.rest i,if_neg unplaced]
  unfold packOption at ok
  cases data' : s.opt i with
  | none =>
    rw [data'] at ok
    cases Option.some.inj ok
    refine ⟨placed,h.options,fun j m => List.mem_append_left _ (h.numbers j m),h.written,h.at',h.room,h.some',?_⟩
    rw [h.errors]
    simp only [List.forall_mem_append,List.forall_mem_singleton,data',and_true]
  | some data =>
    rw [data'] at ok
    obtain ⟨xlen,size,ok⟩ := Option.bind_eq_some_iff.mp ok
    split at ok
    · cases Option.some.inj ok
      refine ⟨placed,h.options,fun j m => List.mem_append_left _ (h.numbers j m),h.written,h.at',h.room,h.some',?_⟩
      simp [data']
    · rename_i fits
      obtain ⟨mem',copied,ok⟩ := Option.bind_eq_some_iff.mp ok
      cases Option.some.inj ok
      have length := emitLength (i := i) size
      have room := h.room
      have bytes : encode (placed ++ [(i,data)]) = encode placed ++ emit i data := by simp [encode]
      refine ⟨placed ++ [(i,data)],⟨?_,?_,?_⟩,?_,?_,?_,?_,?_,?_⟩
      · intro x m
        rcases List.mem_append.mp m with old | new
        · exact h.options.found x old
        · cases List.mem_singleton.mp new
          exact ⟨own.symm.trans data',low,high⟩
      · rw [List.map_append,List.nodup_append]
        refine ⟨h.options.once,by simp,?_⟩
        intro a m b mb same
        have : b = i := by simpa using mb
        exact unplaced (this ▸ same ▸ m)
      · intro j
        simp only [Options.set,List.map_append,List.mem_append,List.map_cons,List.map_nil,List.mem_singleton]
        by_cases same : j = i
        · simp [same]
        · simp only [same,or_false,if_false,h.options.rest j]
      · intro j m
        simp only [List.map_append,List.mem_append,List.map_cons,List.map_nil] at m ⊢
        exact m.imp_left (h.numbers j)
      · rw [copyOk copied,h.written,h.at',storeAppend,bytes]
      · simp only [bytes,List.length_append,h.at']; omega
      · simp only [bytes,List.length_append]
        rw [sub32Eq (by omega)]; omega
      · simp only
        rw [sub32Eq (by omega)]; omega
      · simp only [List.forall_mem_append,List.forall_mem_singleton,h.errors]
        constructor
        · intro all
          refine ⟨?_,by simp [Options.set]⟩
          intro j m
          simp only [Options.set]
          split
          · rfl
          · exact all j m
        · intro all j m
          have differ : j ≠ i := fun same => fresh (same ▸ m)
          simpa [Options.set,differ] using all.1 j m

theorem packLoopOk {mem field len opt visited placed s indices s'} (h : Filling mem field len opt visited placed s)
    (range : ∀ i ∈ indices, 1 ≤ i ∧ i < 255) (fresh : (visited ++ indices).Nodup)
    (ok : indices.foldlM packOption s = some s') : ∃ placed', Filling mem field len opt (visited ++ indices) placed' s' := by
  induction indices generalizing visited placed s with
  | nil =>
    rw [List.append_nil]
    cases Option.some.inj ok
    exact ⟨placed,h⟩
  | cons i indices ih =>
    obtain ⟨s1,first,later⟩ := Option.bind_eq_some_iff.mp ok
    obtain ⟨low,high⟩ := range i List.mem_cons_self
    have away : i ∉ visited := by
      intro m
      exact (List.nodup_append.mp fresh).2.2 i m i List.mem_cons_self rfl
    obtain ⟨placed1,h1⟩ := packOptionOk h low high away first
    have same : visited ++ i::indices = (visited ++ [i]) ++ indices := by simp
    rw [same] at fresh ⊢
    exact ih h1 (fun j m => range j (List.mem_cons_of_mem _ m)) fresh later

/- What a packed field holds: the options placed, the end marker, and zeros up to and
including the byte behind the field. -/
structure FieldOk (mem : Memory) (field len : Nat) (opt : Options) (placed : List (Nat × List UInt8))
    (r : Packed) : Prop where
  options : Placed opt placed r.opt
  written : r.mem = store mem field (encode placed ++ 255::List.replicate (len - (encode placed).length) 0)
  room : (encode placed).length < len
  used : r.len = (encode placed).length + 1
  bound : field + len + 1 ≤ 2^32
  errors : r.err = 0 ↔ ∀ i, 1 ≤ i → i < 255 → r.opt i = none

theorem packFieldOk {mem field len opt r} (some' : len ≠ 0) (ok : dhcpPackFieldZero mem field len opt = some r) :
    ∃ placed, FieldOk mem field len opt placed r := by
  unfold dhcpPackFieldZero at ok
  rw [if_neg some'] at ok
  obtain ⟨s,loop,ok⟩ := Option.bind_eq_some_iff.mp ok
  obtain ⟨mem1,marked,ok⟩ := Option.bind_eq_some_iff.mp ok
  obtain ⟨mem2,zeroed,ok⟩ := Option.bind_eq_some_iff.mp ok
  cases Option.some.inj ok
  have start : Filling mem field len opt [] [] ⟨mem,field,len,opt,0⟩ := by
    refine ⟨⟨by simp,by simp,by simp⟩,by simp,?_,rfl,rfl,Nat.pos_of_ne_zero some',by simp⟩
    funext a
    simp [encode,store]
  obtain ⟨placed,h⟩ := packLoopOk start
    (by intro i m; simp only [List.mem_range'_1] at m; omega) (by simp [List.nodup_range']) loop
  obtain ⟨zeros,bound⟩ := clearOk zeroed
  have room := h.room
  have positive := h.some'
  have at' := h.at'
  refine ⟨placed,h.options,?_,by omega,by simp only; omega,by omega,?_⟩
  · have size : s.spc = len - (encode placed).length := by omega
    simp only
    rw [zeros,copyOk marked,h.written,at',storeAppend,Nat.add_assoc,
      show (encode placed).length + 1 = (encode placed ++ [255]).length by simp,storeAppend,size]
    simp
  · rw [h.errors]
    simp only [List.nil_append,List.mem_range'_1]
    constructor
    · intro all i low high
      exact all i (by omega)
    · intro all i m
      exact all i (by omega) (by omega)

/- Between two fields: every option has been read back or is still left to pack. The
overload option and option 67 travel beside them. -/
structure Shared (opt o left : Options) : Prop where
  either : ∀ i, i ≠ 52 → i ≠ 67 → (o i = opt i ∧ left i = none) ∨ (o i = none ∧ left i = opt i)
  beside : ∀ i, i = 52 ∨ i = 67 → left i = none

theorem Shared.placed {opt o left placed left'} (h : Shared opt o left) (p : Placed left placed left') :
    Shared opt (placed.foldl (fun o x => o.append x.1 x.2) o) left' ∧
      ∀ i, i = 52 ∨ i = 67 → (placed.foldl (fun o x => o.append x.1 x.2) o) i = o i := by
  have proper : ∀ i ∈ placed.map Prod.fst, ¬ (i = 52 ∨ i = 67) ∧ left i ≠ none := by
    intro i m
    obtain ⟨x,mem,rfl⟩ := List.mem_map.mp m
    have value := (p.found x mem).1
    refine ⟨?_,by simp [value]⟩
    intro same
    rw [h.beside x.1 same] at value
    contradiction
  have fresh : ∀ x ∈ placed, o x.1 = none := by
    intro x m
    obtain ⟨other,given⟩ := proper x.1 (List.mem_map_of_mem m)
    rcases h.either x.1 (fun e => other (Or.inl e)) (fun e => other (Or.inr e)) with ⟨_,empty⟩ | ⟨empty,_⟩
    · exact absurd empty given
    · exact empty
  have value := p.decoded fresh
  refine ⟨⟨?_,?_⟩,?_⟩
  · intro i h52 h67
    rw [value i,p.rest i]
    by_cases m : i ∈ placed.map Prod.fst
    · rw [if_pos m,if_pos m]
      rcases h.either i h52 h67 with ⟨_,empty⟩ | ⟨_,same⟩
      · exact absurd empty (proper i m).2
      · exact Or.inl ⟨same,rfl⟩
    · rw [if_neg m,if_neg m]
      exact h.either i h52 h67
  · intro i own
    rw [p.rest i]
    split
    · rfl
    · exact h.beside i own
  · intro i own
    rw [value i,if_neg (fun m => (proper i m).1 own)]

theorem Shared.congr {opt o o' left} (h : Shared opt o left) (same : ∀ i, i ≠ 52 → i ≠ 67 → o' i = o i) :
    Shared opt o' left :=
  ⟨fun i h52 h67 => same i h52 h67 ▸ h.either i h52 h67,h.beside⟩

theorem putTypeOk {mem spc ox r} (ok : putType mem spc ox = some r) :
    ∃ placed, Placed ox placed r.2.2.2 ∧ r.1 = store mem offOptions (encode placed) ∧
      r.2.1 = offOptions + (encode placed).length ∧
      ((encode placed).length = 0 ∧ r.2.2.1 = spc ∨ (encode placed).length = 3 ∧ r.2.2.1 = sub32 spc 3) := by
  unfold putType at ok
  split at ok
  · rename_i type is53
    obtain ⟨mem',copied,ok⟩ := Option.bind_eq_some_iff.mp ok
    cases Option.some.inj ok
    refine ⟨[(53,[type])],⟨?_,by simp,?_⟩,copyOk copied,rfl,Or.inr ⟨rfl,rfl⟩⟩
    · intro x m
      cases List.mem_singleton.mp m
      exact ⟨is53,by simp,by simp⟩
    · intro i
      simp [Options.set]
  · cases Option.some.inj ok
    refine ⟨[],⟨by simp,by simp,by simp⟩,?_,rfl,Or.inl ⟨rfl,rfl⟩⟩
    funext a
    simp [encode,store]

def flag (overload : Nat) : List (Nat × List UInt8) := if overload = 0 then [] else [(52,[UInt8.ofNat overload])]

theorem putOverloadOk {mem q spc overload r} (ok : putOverload mem q spc overload = some r) :
    r.1 = store mem q (encode (flag overload)) ∧ r.2.1 = q + (encode (flag overload)).length ∧
      r.2.2 = if overload = 0 then spc else sub32 spc 3 := by
  unfold putOverload at ok
  unfold flag
  split at ok
  · rename_i set
    obtain ⟨mem',copied,ok⟩ := Option.bind_eq_some_iff.mp ok
    cases Option.some.inj ok
    rw [if_neg set,if_neg set]
    exact ⟨copyOk copied,rfl,rfl⟩
  · rename_i clear
    cases Option.some.inj ok
    rw [if_pos (not_not.mp clear),if_pos (not_not.mp clear)]
    refine ⟨?_,rfl,rfl⟩
    funext a
    simp [encode,store]

theorem fieldOptionsBeside {opt : Options} (short : ¬ 128 < opt.size 67) {i : Nat} (own : i = 52 ∨ i = 67) :
    fieldOptions opt i = none := by
  unfold fieldOptions
  simp only [short,if_false]
  rcases own with rfl | rfl
  · simp [Options.set]
  · split <;> simp [Options.set]

structure OptionsOk (mem : Memory) (opt : Options) (q : Nat) (r : Packed) (bytes : List UInt8) (o : Options) : Prop where
  written : ∃ n, r.mem = store mem offOptions (bytes ++ List.replicate n 0)
  length : add32 r.len q = 240 + bytes.length
  decoded : decode bytes (fun _ => none) = o
  shared : Shared (fieldOptions opt) o r.opt
  flag : o 52 = if overloadOf opt = 0 then none else some [UInt8.ofNat (overloadOf opt)]
  errors : r.err = 0 ↔ ∀ i, 1 ≤ i → i < 255 → r.opt i = none

theorem packOptionsOk {mem spc opt r1 r2 r} (short : ¬ 128 < opt.size 67) (typed : putType mem spc (fieldOptions opt) = some r1)
    (flagged : putOverload r1.1 r1.2.1 r1.2.2.1 (overloadOf opt) = some r2) (some' : r2.2.2 ≠ 0)
    (packed : dhcpPackFieldZero r2.1 r2.2.1 r2.2.2 r1.2.2.2 = some r) :
    ∃ bytes o, OptionsOk mem opt r2.2.1 r bytes o := by
  obtain ⟨first,p1,mem1,q1,_⟩ := putTypeOk typed
  obtain ⟨mem2,q2,_⟩ := putOverloadOk flagged
  obtain ⟨rest,f⟩ := packFieldOk some' packed
  have start : Shared (fieldOptions opt) (fun _ => none) (fieldOptions opt) :=
    ⟨fun i _ _ => Or.inr ⟨rfl,rfl⟩,fun i own => fieldOptionsBeside short own⟩
  obtain ⟨shared1,flag1⟩ := start.placed p1
  generalize set1 : first.foldl (fun o x => Options.append o x.1 x.2) (fun _ => none) = o1 at shared1 flag1
  generalize set2 : (flag (overloadOf opt)).foldl (fun o x => Options.append o x.1 x.2) o1 = o2
  have shared2 : Shared (fieldOptions opt) o2 r1.2.2.2 := by
    refine shared1.congr ?_
    intro i h52 _
    rw [← set2]
    unfold flag
    split
    · rfl
    · simp [Options.append,Options.set,h52]
  have flag2 : o2 52 = if overloadOf opt = 0 then none else some [UInt8.ofNat (overloadOf opt)] := by
    rw [← set2]
    unfold flag
    split
    · exact flag1 52 (Or.inl rfl)
    · simp [Options.append,Options.set,flag1 52 (Or.inl rfl)]
  obtain ⟨shared3,flag3⟩ := shared2.placed f.options
  have numbers : ∀ x ∈ flag (overloadOf opt), 1 ≤ x.1 ∧ x.1 < 255 := by
    intro x m
    unfold flag at m
    split at m
    · simp at m
    · rw [List.mem_singleton.mp m]; simp
  refine ⟨encode first ++ (encode (flag (overloadOf opt)) ++ (encode rest ++ [255])),_,?_,?_,?_,shared3,
    (flag3 52 (Or.inl rfl)).trans flag2,f.errors⟩
  · refine ⟨r2.2.2 - (encode rest).length,?_⟩
    rw [f.written,mem2,mem1,q2,q1,storeAppend,storeAppend]
    simp
  · have bound := f.bound
    have room := f.room
    have used := f.used
    rw [add32Eq (by omega)]
    simp only [List.length_append,List.length_singleton,offOptions] at q1 ⊢
    omega
  · rw [decodeEncode (fun x m => (p1.found x m).2),decodeEncode numbers,
      decodeEncode (fun x m => (f.options.found x m).2),decodeEnd,set1,set2]

theorem plainFieldOk {mem field size data mem'} (fits : data.length ≤ size)
    (ok : plainField mem field size data = some mem') :
    mem' = store mem field (data ++ List.replicate (size - data.length) 0) := by
  obtain ⟨mem1,zeroed,ok⟩ := Option.bind_eq_some_iff.mp ok
  rw [copyOk ok,(clearOk zeroed).1]
  funext a
  unfold store
  by_cases below : a < field
  · simp [below]
  · simp only [below,if_false]
    by_cases inside : a - field < data.length
    · rw [List.getElem?_append_left inside,List.getElem?_eq_getElem inside]; rfl
    · rw [List.getElem?_append_right (by omega),List.getElem?_eq_none (by omega : data.length ≤ a - field)]
      simp only [List.getElem?_replicate,Option.getD_none]
      split <;> split <;> first | rfl | omega

theorem putFieldStore {long : Prop} [Decidable long] {field size data r r'} (some' : size ≠ 0)
    (fits : ¬ long → data.length ≤ size) (ok : putField long field size data r = some r') :
    ∃ bytes, r'.mem = store r.mem field bytes ∧
      (if long then bytes.length = size + 1 ∧ bytes[size]? = some 0 ∧
        ∃ placed, FieldOk r.mem field size r.opt placed r'
      else bytes = data ++ List.replicate (size - data.length) 0 ∧ r'.opt = r.opt ∧ r'.err = r.err) := by
  unfold putField at ok
  by_cases isLong : long
  · rw [if_pos isLong] at ok
    obtain ⟨placed,f⟩ := packFieldOk some' ok
    have room := f.room
    refine ⟨_,f.written,?_⟩
    rw [if_pos isLong]
    refine ⟨by simp; omega,?_,placed,f⟩
    rw [List.getElem?_append_right (by omega),List.getElem?_cons,if_neg (by omega),List.getElem?_replicate,
      if_pos (by omega)]
  · rw [if_neg isLong] at ok
    obtain ⟨mem',plain,ok⟩ := Option.bind_eq_some_iff.mp ok
    cases Option.some.inj ok
    refine ⟨_,plainFieldOk (fits isLong) plain,?_⟩
    rw [if_neg isLong]
    exact ⟨rfl,rfl,rfl⟩

structure Packable (opt : Options) : Prop where
  numbers : ∀ i, opt i ≠ none → 1 ≤ i ∧ i < 255 ∧ i ≠ 52
  text66 : (0 : UInt8) ∉ (opt 66).getD []
  text67 : (0 : UInt8) ∉ (opt 67).getD []

/- For the two options with a field of their own, absent and empty are the same. -/
def RoundTrips (opt o : Options) : Prop :=
  ∀ i, if i = 66 ∨ i = 67 then (o i).getD [] = (opt i).getD [] else o i = opt i

theorem fieldOptionsOther {opt : Options} {i : Nat} (h52 : i ≠ 52) (h66 : i ≠ 66) (h67 : i ≠ 67) :
    fieldOptions opt i = opt i := by
  simp only [fieldOptions,Options.set,h52,if_false]
  split <;> split <;> simp [Options.set,h66,h67]

theorem Shared.complete {opt o left} (h : Shared (fieldOptions opt) o left) (p : Packable opt)
    (done : ∀ i, 1 ≤ i → i < 255 → left i = none) {i : Nat} (h52 : i ≠ 52) (h67 : i ≠ 67) :
    o i = fieldOptions opt i := by
  rcases h.either i h52 h67 with ⟨same,_⟩ | ⟨empty,same⟩
  · exact same
  · by_cases inside : 1 ≤ i ∧ i < 255
    · rw [empty,← same,done i inside.1 inside.2]
    · have absent : opt i = none := by
        by_contra given
        exact inside ⟨(p.numbers i given).1,(p.numbers i given).2.1⟩
      rw [empty,fieldOptionsOther h52 (by omega) (by omega),absent]

theorem takeText {data : List UInt8} (text : (0 : UInt8) ∉ data) (n : Nat) :
    (data ++ List.replicate n 0).takeWhile (· ≠ 0) = data := by
  induction data with
  | nil => cases n <;> simp [List.replicate]
  | cons b data ih =>
    simp only [List.mem_cons,not_or] at text
    have nonzero : b ≠ 0 := fun h => text.1 h.symm
    rw [List.cons_append,List.takeWhile_cons_of_pos (by simpa using nonzero),ih text.2]

theorem prefixOfPadded {a b : List UInt8} {n : Nat} (text : (0 : UInt8) ∉ a) (fits : a.length ≤ b.length + n) :
    (b ++ List.replicate n 0).take a.length = a ↔ a <+: b := by
  constructor
  · intro same
    have start : a <+: b ++ List.replicate n 0 := same ▸ List.take_prefix _ _
    by_cases short : a.length ≤ b.length
    · exact List.prefix_of_prefix_length_le start (List.prefix_append _ _) short
    · exfalso
      have zero : a[b.length]? = some 0 := by
        rw [← same,List.getElem?_take_of_lt (by omega),List.getElem?_append_right (by omega),
          List.getElem?_replicate,if_pos (by omega)]
      exact text (List.mem_of_getElem? zero)
  · rintro ⟨c,rfl⟩
    rw [List.append_assoc,List.take_left]

/- A packet that was packed, field by field; the options field has room for its end
marker unless the buffer ends with the overload option. -/
structure Stages (mem : Memory) (len : Nat) (opt : Options) (r : Packet) (options file sname : Packed) (q : Nat) : Prop where
  big : sizeofPacket ≤ len
  result : r = ⟨sname.err,sname.mem,add32 options.len q⟩
  optionsPacked : ∃ r1 r2, putType (store mem offMagic vendorMagic) (len - 240) (fieldOptions opt) = some r1 ∧
    putOverload r1.1 r1.2.1 r1.2.2.1 (overloadOf opt) = some r2 ∧
    dhcpPackFieldZero r2.1 r2.2.1 r2.2.2 r1.2.2.2 = some options ∧ q = r2.2.1
  filePacked : putField (128 < opt.size 67) offFile 128 ((opt 67).getD []) options = some file
  snamePacked : putField (64 < opt.size 66) offSname 64 ((opt 66).getD []) file = some sname

theorem packStages {mem len opt r} (ok : dhcpPackPacket mem len opt = some r) (zero : r.err = 0) :
    ∃ options file sname q, Stages mem len opt r options file sname q := by
  unfold dhcpPackPacket at ok
  by_cases small : len < sizeofPacket
  · rw [if_pos small] at ok
    cases Option.some.inj ok
    exact absurd zero (by simp [enospc])
  · rw [if_neg small] at ok
    obtain ⟨mem0,magic,ok⟩ := Option.bind_eq_some_iff.mp ok
    obtain ⟨r1,typed,ok⟩ := Option.bind_eq_some_iff.mp ok
    obtain ⟨r2,flagged,ok⟩ := Option.bind_eq_some_iff.mp ok
    obtain ⟨options,packed,ok⟩ := Option.bind_eq_some_iff.mp ok
    obtain ⟨file,fileOk,ok⟩ := Option.bind_eq_some_iff.mp ok
    obtain ⟨sname,snameOk,ok⟩ := Option.bind_eq_some_iff.mp ok
    have big : sizeofPacket ≤ len := Nat.le_of_not_lt small
    rw [copyOk magic,sub32Eq (by unfold sizeofPacket at big; omega)] at typed
    exact ⟨options,file,sname,r2.2.1,big,(Option.some.inj ok).symm,⟨r1,r2,typed,flagged,packed,rfl⟩,fileOk,snameOk⟩

theorem Stages.fileStore {mem len opt r options file sname q} (h : Stages mem len opt r options file sname q) :
    ∃ bytes, file.mem = store options.mem offFile bytes ∧
      (if 128 < opt.size 67 then bytes.length = 128 + 1 ∧ bytes[128]? = some 0 ∧
        ∃ placed, FieldOk options.mem offFile 128 options.opt placed file
      else bytes = (opt 67).getD [] ++ List.replicate (128 - ((opt 67).getD []).length) 0 ∧
        file.opt = options.opt ∧ file.err = options.err) :=
  putFieldStore (by decide) (by unfold Options.size; omega) h.filePacked

theorem Stages.snameStore {mem len opt r options file sname q} (h : Stages mem len opt r options file sname q) :
    ∃ bytes, sname.mem = store file.mem offSname bytes ∧
      (if 64 < opt.size 66 then bytes.length = 64 + 1 ∧ bytes[64]? = some 0 ∧
        ∃ placed, FieldOk file.mem offSname 64 file.opt placed sname
      else bytes = (opt 66).getD [] ++ List.replicate (64 - ((opt 66).getD []).length) 0 ∧
        sname.opt = file.opt ∧ sname.err = file.err) :=
  putFieldStore (by decide) (by unfold Options.size; omega) h.snamePacked

theorem longFileRejected {mem len opt r} (ok : dhcpPackPacket mem len opt = some r) (zero : r.err = 0)
    (long : 128 < opt.size 67) : dhcpUnpackPacket r.mem r.len = .error einval := by
  obtain ⟨options,file,sname,q,h⟩ := packStages ok zero
  obtain ⟨bytes,written,content⟩ := h.fileStore
  rw [if_pos long] at content
  obtain ⟨bytes',written',content'⟩ := h.snameStore
  have short : bytes'.length ≤ 65 := by
    split at content'
    · omega
    · rw [content'.1]; unfold Options.size at *; simp; omega
  have byte : r.mem 236 = 0 := by
    rw [h.result]
    simp only
    rw [written',storeOutside (by unfold offSname; omega),written,show (236 : Nat) = offFile + 128 from rfl,
      storeInside (by omega)]
    exact (List.getElem?_eq_some_iff.mp content.2.1).2
  have wrong : read r.mem offMagic 4 ≠ vendorMagic := by
    intro same
    have first := congrArg List.head? same
    simp [read,offMagic,byte,vendorMagic,List.range_succ_eq_map] at first
  unfold dhcpUnpackPacket
  rw [if_pos (Or.inr wrong)]

theorem encodeLonger {placed : List (Nat × List UInt8)} {x} (m : x ∈ placed) : x.2.length < (encode placed).length := by
  induction placed with
  | nil => simp at m
  | cons y placed ih =>
    simp only [encode,List.flatMap_cons,List.length_append] at ih ⊢
    rcases List.mem_cons.mp m with rfl | later
    · have := emitLonger x.1 x.2; omega
    · have := ih later; omega

theorem tooLong {mem field len opt placed r i data} (f : FieldOk mem field len opt placed r) (given : opt i = some data)
    (long : len ≤ data.length) : r.opt i = some data := by
  rw [f.options.rest i,if_neg,given]
  intro m
  obtain ⟨x,mem,rfl⟩ := List.mem_map.mp m
  have value := (f.options.found x mem).1
  rw [given] at value
  have := encodeLonger mem
  have := f.room
  rw [← Option.some.inj value] at *
  omega

theorem option66Kept {opt : Options} (long : 64 < opt.size 66) : fieldOptions opt 66 = opt 66 := by
  unfold fieldOptions
  simp only [long,if_true]
  split <;> simp [Options.set]

theorem given66 {opt : Options} (long : 64 < opt.size 66) : ∃ data, opt 66 = some data ∧ 64 < data.length := by
  unfold Options.size at long
  cases value : opt 66 with
  | none => simp [value] at long
  | some data => exact ⟨data,rfl,by simpa [value] using long⟩

/- An options field without room for anything cannot hold the option that asked for the
overload, and neither can the sname field. -/
theorem optionsRoom {mem len opt r options file sname q} (h : Stages mem len opt r options file sname q)
    (zero : r.err = 0) (short : ¬ 128 < opt.size 67) :
    ∃ bytes o, OptionsOk (store mem offMagic vendorMagic) opt q options bytes o := by
  obtain ⟨r1,r2,typed,flagged,packed,rfl⟩ := h.optionsPacked
  by_cases room : r2.2.2 = 0
  · exfalso
    obtain ⟨first,p1,_,_,spc1⟩ := putTypeOk typed
    obtain ⟨_,_,spc2⟩ := putOverloadOk flagged
    have big := h.big
    unfold sizeofPacket at big
    have long : 64 < opt.size 66 := by
      by_contra notLong
      have plain : overloadOf opt = 0 := by simp [overloadOf,short,notLong]
      rw [if_pos plain,room] at spc2
      rcases spc1 with ⟨_,eq⟩ | ⟨_,eq⟩
      · omega
      · rw [sub32Eq (by omega)] at eq; omega
    obtain ⟨data,value,size⟩ := given66 long
    obtain ⟨_,_,content⟩ := h.fileStore
    rw [if_neg short] at content
    obtain ⟨_,_,content'⟩ := h.snameStore
    rw [if_pos long] at content'
    obtain ⟨placed,f⟩ := content'.2.2
    have kept : file.opt 66 = some data := by
      unfold dhcpPackFieldZero at packed
      rw [if_pos room] at packed
      rw [content.2.1,← Option.some.inj packed]
      simp only
      rw [p1.rest 66,if_neg,option66Kept long,value]
      intro m
      obtain ⟨x,mx,is66⟩ := List.mem_map.mp m
      have found := encodeLonger mx
      have own := (p1.found x mx).1
      rw [is66,option66Kept long,value] at own
      rw [← Option.some.inj own] at found
      omega
    have err : sname.err = 0 := by rw [h.result] at zero; exact zero
    have left := f.errors.mp err 66 (by decide) (by decide)
    rw [tooLong f kept (by omega)] at left
    contradiction
  · exact packOptionsOk short typed flagged room packed

theorem packetRead {mem len opt r options file sname q} (h : Stages mem len opt r options file sname q)
    (short : ¬ 128 < opt.size 67) {bytes o} (ok : OptionsOk (store mem offMagic vendorMagic) opt q options bytes o) :
    read r.mem offMagic 4 = vendorMagic ∧ r.len = 240 + bytes.length ∧ read r.mem offOptions bytes.length = bytes := by
  obtain ⟨fileBytes,fileMem,content⟩ := h.fileStore
  rw [if_neg short] at content
  obtain ⟨snameBytes,snameMem,content'⟩ := h.snameStore
  have length : fileBytes.length ≤ 128 := by rw [content.1]; unfold Options.size at short; simp; omega
  have length' : snameBytes.length ≤ 65 := by
    split at content'
    · omega
    · rw [content'.1]; unfold Options.size at *; simp; omega
  obtain ⟨n,written⟩ := ok.written
  rw [h.result]
  refine ⟨?_,ok.length,?_⟩
  · rw [snameMem,readApart (by unfold offMagic offSname; omega),fileMem,readApart (by unfold offMagic offFile; omega),
      written,readApart (by unfold offMagic offOptions; omega),readInside (by decide)]
    rfl
  · rw [snameMem,readApart (by unfold offOptions offSname; omega),fileMem,
      readApart (by unfold offOptions offFile; omega),written,readInside (by simp)]
    simp

theorem unpackStart {r : Packet} {bytes o} (magic : read r.mem offMagic 4 = vendorMagic)
    (length : r.len = 240 + bytes.length) (options : read r.mem offOptions bytes.length = bytes)
    (decoded : decode bytes (fun _ => none) = o) (flags : UInt8)
    (is52 : o 52 = if flags = 0 then none else some [flags]) (noFile : flags &&& 1 = 0) :
    dhcpUnpackPacket r.mem r.len = .ok (
      let opt := (o.set 52 none).set 67 (some (read r.mem offFile (strnlen r.mem offFile 128)))
      if flags &&& 2 ≠ 0 then dhcpUnpackField r.mem offSname 64 opt
      else opt.set 66 (some (read r.mem offFile (strnlen r.mem offSname 64)))) := by
  have size : r.len - 240 = bytes.length := by omega
  have field : dhcpUnpackField r.mem offOptions (r.len - 240) (fun _ => none) = o := by
    unfold dhcpUnpackField
    rw [size,options]
    exact decoded
  unfold dhcpUnpackPacket
  rw [if_neg (by simp only [not_or,not_not]; exact ⟨by omega,magic⟩),field]
  by_cases none' : flags = 0
  · have same : o.set 52 none = o := by
      funext i
      unfold Options.set
      split
      · rename_i eq
        rw [eq,is52,if_pos none']
      · rfl
    rw [if_pos none'] at is52
    simp [is52,none',same]
  · rw [if_neg none'] at is52
    simp [is52,noFile]

theorem shortRoundTrip {mem len opt r} (p : Packable opt) (ok : dhcpPackPacket mem len opt = some r) (zero : r.err = 0)
    (short : ¬ 128 < opt.size 67) (short' : ¬ 64 < opt.size 66) :
    (∃ o, dhcpUnpackPacket r.mem r.len = .ok o ∧ RoundTrips opt o) ↔ (opt 66).getD [] <+: (opt 67).getD [] := by
  obtain ⟨options,file,sname,q,h⟩ := packStages ok zero
  obtain ⟨bytes,o,ready⟩ := optionsRoom h zero short
  obtain ⟨magic,length,read'⟩ := packetRead h short ready
  obtain ⟨fileBytes,fileMem,content⟩ := h.fileStore
  rw [if_neg short] at content
  obtain ⟨snameBytes,snameMem,content'⟩ := h.snameStore
  rw [if_neg short'] at content'
  have plain : overloadOf opt = 0 := by simp [overloadOf,short,short']
  have fits : ((opt 67).getD []).length ≤ 128 := by unfold Options.size at short; omega
  have fits' : ((opt 66).getD []).length ≤ 64 := by unfold Options.size at short'; omega
  have same : r.mem = sname.mem := by rw [h.result]
  have fileRead : ∀ n, n ≤ 128 → read r.mem offFile n =
      ((opt 67).getD [] ++ List.replicate (128 - ((opt 67).getD []).length) 0).take n := by
    intro n small
    rw [same,snameMem,readApart (by rw [content'.1]; unfold offFile offSname; simp; omega),fileMem,content.1,
      readInside (by simp; omega)]
  have text67 : strnlen r.mem offFile 128 = ((opt 67).getD []).length := by
    unfold strnlen
    rw [fileRead 128 (by omega),List.take_of_length_le (by simp; omega),takeText p.text67]
  have text66 : strnlen r.mem offSname 64 = ((opt 66).getD []).length := by
    unfold strnlen
    rw [same,snameMem,content'.1,readInside (by simp; omega),List.take_of_length_le (by simp; omega),takeText p.text66]
  have unpacked := unpackStart magic length read' ready.decoded 0 (by rw [ready.flag,plain]; rfl) rfl
  simp only [show (0 : UInt8) &&& 2 = 0 from rfl,ne_eq,not_true_eq_false,if_false] at unpacked
  rw [text67,text66,fileRead _ fits,fileRead _ (by omega),List.take_left] at unpacked
  have done : ∀ i, 1 ≤ i → i < 255 → options.opt i = none := by
    refine ready.errors.mp ?_
    rw [h.result] at zero
    simp only at zero
    rw [← content.2.2,← content'.2.2]
    exact zero
  rw [unpacked]
  simp only [Except.ok.injEq,exists_eq_left']
  rw [← prefixOfPadded p.text66 (b := (opt 67).getD []) (n := 128 - ((opt 67).getD []).length) (by omega)]
  constructor
  · intro trip
    simpa [Options.set] using trip 66
  · intro data66 i
    by_cases is66 : i = 66
    · simp [is66,Options.set,data66]
    · by_cases is67 : i = 67
      · simp [is67,Options.set]
      · simp only [is66,is67,or_self,if_false,Options.set]
        by_cases is52 : i = 52
        · subst is52
          by_contra given
          exact (p.numbers 52 (fun h => given h.symm)).2.2 rfl
        · rw [if_neg is52,ready.shared.complete p done is52 is67,fieldOptionsOther is52 is66 is67]

theorem headZero {mem : Memory} {a n : Nat} (zero : mem a = 0) : strnlen mem a n = 0 := by
  unfold strnlen
  cases n with
  | zero => rfl
  | succ n => simp [read,List.range_succ_eq_map,zero]

/- Packing options into the sname field zeroes the first byte of the file field. -/
theorem longSnameRoundTrip {mem len opt r} (p : Packable opt) (ok : dhcpPackPacket mem len opt = some r)
    (zero : r.err = 0) (short : ¬ 128 < opt.size 67) (long : 64 < opt.size 66) :
    (∃ o, dhcpUnpackPacket r.mem r.len = .ok o ∧ RoundTrips opt o) ↔ opt.size 67 = 0 := by
  obtain ⟨options,file,sname,q,h⟩ := packStages ok zero
  obtain ⟨bytes,o,ready⟩ := optionsRoom h zero short
  obtain ⟨magic,length,read'⟩ := packetRead h short ready
  obtain ⟨fileBytes,fileMem,content⟩ := h.fileStore
  rw [if_neg short] at content
  obtain ⟨snameBytes,snameMem,content'⟩ := h.snameStore
  rw [if_pos long] at content'
  obtain ⟨size,last,placed,f⟩ := content'
  have two : overloadOf opt = 2 := by simp [overloadOf,short,long]
  have same : r.mem = sname.mem := by rw [h.result]
  have text67 : strnlen r.mem offFile 128 = 0 := by
    refine headZero ?_
    rw [same,snameMem,show offFile = offSname + 64 from rfl,storeInside (by omega)]
    exact (List.getElem?_eq_some_iff.mp last).2
  have unpacked := unpackStart magic length read' ready.decoded 2 (by rw [ready.flag,two]; rfl) rfl
  simp only [show (2 : UInt8) &&& 2 = 2 from rfl,ne_eq,show ¬ (2 : UInt8) = 0 by decide,not_false_eq_true,if_true,
    text67] at unpacked
  -- the rest of the options lie in the sname field
  have room := f.room
  have field : read r.mem offSname 64 = encode placed ++ 255::List.replicate (63 - (encode placed).length) 0 := by
    rw [same,f.written,readInside (by simp; omega),List.take_append,List.take_of_length_le (by omega),
      show 64 - (encode placed).length = (63 - (encode placed).length) + 1 by omega,List.take_succ_cons,
      List.take_replicate]
    congr 3
    omega
  have same' : ∀ i, i ≠ 52 → i ≠ 67 → ((o.set 52 none).set 67 (some [])) i = o i := by
    intro i h52 h67
    simp [Options.set,h52,h67]
  have shared := ready.shared.congr same'
  rw [← content.2.1] at shared
  obtain ⟨shared',beside⟩ := shared.placed f.options
  have decoded : dhcpUnpackField r.mem offSname 64 ((o.set 52 none).set 67 (some [])) =
      placed.foldl (fun o x => o.append x.1 x.2) ((o.set 52 none).set 67 (some [])) := by
    unfold dhcpUnpackField
    rw [unpackFuel (by simp),field,decodeEncode (fun x m => (f.options.found x m).2),decodeEnd]
  have none' : read r.mem offFile 0 = [] := rfl
  rw [none',decoded] at unpacked
  generalize placed.foldl (fun o x => Options.append o x.1 x.2) ((o.set 52 none).set 67 (some [])) = out at *
  have done : ∀ i, 1 ≤ i → i < 255 → sname.opt i = none := f.errors.mp (by rw [h.result] at zero; exact zero)
  rw [unpacked]
  simp only [Except.ok.injEq,exists_eq_left']
  have out67 : out 67 = some [] := by rw [beside 67 (Or.inr rfl)]; simp [Options.set]
  constructor
  · intro trip
    have empty := trip 67
    simp only [or_true,if_true,out67,Option.getD_some] at empty
    unfold Options.size
    rw [← empty]; rfl
  · intro empty i
    have data67 : (opt 67).getD [] = [] := List.length_eq_zero_iff.mp empty
    by_cases is67 : i = 67
    · simp [is67,out67,data67]
    · by_cases is52 : i = 52
      · subst is52
        rw [if_neg (by decide),beside 52 (Or.inl rfl)]
        simp only [Options.set]
        by_contra given
        exact (p.numbers 52 (fun h => given (by simp [h]))).2.2 rfl
      · rw [shared'.complete p done is52 is67]
        by_cases is66 : i = 66
        · simp [is66,option66Kept long]
        · simp [is66,is67,fieldOptionsOther is52 is66 is67]

/- The exact condition: option 67 fits its field, and the bytes the decoder takes for
option 66 from the file field are right by chance or not taken. -/
def RoundTripCondition (opt : Options) : Prop :=
  opt.size 67 ≤ 128 ∧ if opt.size 66 ≤ 64 then (opt 66).getD [] <+: (opt 67).getD [] else opt.size 67 = 0

theorem packUnpack {mem len opt r} (p : Packable opt) (ok : dhcpPackPacket mem len opt = some r) (zero : r.err = 0) :
    (∃ o, dhcpUnpackPacket r.mem r.len = .ok o ∧ RoundTrips opt o) ↔ RoundTripCondition opt := by
  unfold RoundTripCondition
  by_cases long67 : 128 < opt.size 67
  · rw [longFileRejected ok zero long67]
    constructor
    · rintro ⟨o,wrong,_⟩
      contradiction
    · intro ⟨fits,_⟩
      omega
  · by_cases long66 : 64 < opt.size 66
    · rw [longSnameRoundTrip p ok zero long67 long66,if_neg (by omega)]
      omega
    · rw [shortRoundTrip p ok zero long67 long66,if_pos (by omega)]
      exact ⟨fun h => ⟨by omega,h⟩,And.right⟩

/- A packet type, a host name and a boot file named "pxe". -/
def bootOptions : Options := fun i =>
  if i = 53 then some [1] else if i = 12 then some [97,98] else if i = 67 then some [112,120,101] else none

set_option maxRecDepth 10000 in
theorem packUnpackBoot :
    ∃ r, dhcpPackPacket (fun _ => 0) 300 bootOptions = some r ∧ r.err = 0 ∧
      ∃ o, dhcpUnpackPacket r.mem r.len = .ok o ∧ RoundTrips bootOptions o := by
  have p : Packable bootOptions := by
    refine ⟨?_,by decide,by decide⟩
    intro i given
    unfold bootOptions at given
    split at given
    · omega
    · split at given
      · omega
      · split at given
        · omega
        · contradiction
  have packed : (dhcpPackPacket (fun _ => 0) 300 bootOptions).map Packet.err = some 0 := by rfl
  obtain ⟨r,ok,zero⟩ := Option.map_eq_some_iff.mp packed
  exact ⟨r,ok,zero,(packUnpack p ok zero).mpr ⟨by decide,by decide⟩⟩

/- A server name alone: the decoder reads its one byte from the empty file field. -/
set_option maxRecDepth 10000 in
theorem packUnpackLosesServerName :
    ¬ ∀ (mem : Memory) (len : Nat) (opt : Options) (r : Packet), Packable opt →
      dhcpPackPacket mem len opt = some r → r.err = 0 →
      ∃ o, dhcpUnpackPacket r.mem r.len = .ok o ∧ RoundTrips opt o := by
  intro claim
  have p : Packable (fun i => if i = 66 then some [97] else none) := by
    refine ⟨?_,by decide,by decide⟩
    intro i given
    simp only [ne_eq,ite_eq_right_iff,reduceCtorEq,imp_false,not_not] at given
    omega
  obtain ⟨o,unpacked,trip⟩ := claim (fun _ => 0) 244 _ _ p rfl rfl
  have value : o 66 = some [0] := by
    have same := Except.ok.inj unpacked
    rw [← same]
    rfl
  have wrong := trip 66
  rw [value] at wrong
  exact absurd wrong (by decide)

end Syslinux.Dhcp
