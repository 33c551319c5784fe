import Syslinux.Tftp

/-! The OACK of a server that offers what it was asked for: the client reads the block
size that the server means. -/
namespace Syslinux.Tftp

section
variable {offer : List Opt} {o : Opt}

theorem lowerZero : lower 0 = 32 := by decide

theorem nameNotZero (known : o.name.map lower = tsizeName ∨ o.isBlksize) : ∀ c ∈ o.name, c ≠ 0 := by
  intro c m zero
  subst zero
  have here : lower 0 ∈ o.name.map lower := List.mem_map_of_mem m
  rw [lowerZero] at here
  rcases known with eq | eq
  · rw [eq] at here
    exact absurd here (by decide)
  · rw [show o.name.map lower = blksizeName from eq] at here
    exact absurd here (by decide)

theorem nameNotEmpty (known : o.name.map lower = tsizeName ∨ o.isBlksize) : o.name ≠ [] := by
  intro empty
  unfold Opt.isBlksize at known
  rw [empty] at known
  exact absurd known (by decide)

theorem takeName {name : List UInt8} (rest : List UInt8) (h : ∀ c ∈ name, c ≠ 0) :
    (name ++ 0::rest).takeWhile (fun c => c ≠ 0) = name ∧ (name ++ 0::rest).dropWhile (fun c => c ≠ 0) = 0::rest := by
  induction name with
  | nil => simp
  | cons c name ih =>
    have ne := h c (by simp)
    obtain ⟨taken,dropped⟩ := ih (fun d m => h d (by simp [m]))
    simpa [ne] using And.intro taken dropped

/- The digits as the client reads them, in 64 bits. -/
def readNumber (digits : List UInt8) (n : Nat) : Nat := digits.foldl (fun n d => (n*10 + (d.toNat - 48)) % 2^64) n

theorem parseNumberDigits {digits : List UInt8} (rest : List UInt8) (h : ∀ d ∈ digits, 48 ≤ d.toNat ∧ d.toNat ≤ 57) (n : Nat) :
    parseNumber (digits ++ 0::rest) n = .value (readNumber digits n) rest := by
  induction digits generalizing n with
  | nil => simp [parseNumber,readNumber]
  | cons d digits ih =>
    obtain ⟨above,below⟩ := h d (by simp)
    have notZero : d ≠ 0 := by
      rintro rfl
      exact absurd above (by decide)
    have value : (d - 48).toNat = d.toNat - 48 := UInt8.toNat_sub_of_le d 48 (UInt8.le_iff_toNat_le.mpr above)
    have digit : ¬ (9 : UInt8) < d - 48 := by
      rw [UInt8.lt_iff_toNat_lt,value]
      show ¬ 9 < d.toNat - 48
      omega
    rw [List.cons_append,parseNumber,if_neg notZero,if_neg digit,ih (fun e m => h e (by simp [m])),value]
    rfl

theorem decimalGrows (digits : List UInt8) (n : Nat) :
    n ≤ digits.foldl (fun n d => n*10 + (d.toNat - 48)) n := by
  induction digits generalizing n with
  | nil => exact Nat.le_refl n
  | cons d digits ih => exact Nat.le_trans (by omega) (ih (n*10 + (d.toNat - 48)))

theorem readNumberEq (digits : List UInt8) (n : Nat) (small : digits.foldl (fun n d => n*10 + (d.toNat - 48)) n < 2^64) :
    readNumber digits n = digits.foldl (fun n d => n*10 + (d.toNat - 48)) n := by
  induction digits generalizing n with
  | nil => rfl
  | cons d digits ih =>
    have here := decimalGrows digits (n*10 + (d.toNat - 48))
    simp only [List.foldl_cons] at small
    rw [readNumber,List.foldl_cons,Nat.mod_eq_of_lt (by omega)]
    exact ih _ small

structure SameButSizes (sock sock' : Socket) : Prop where
  filepos : sock'.filepos = sock.filepos
  bytesleft : sock'.bytesleft = sock.bytesleft
  lastpkt : sock'.lastpkt = sock.lastpkt
  goteof : sock'.goteof = sock.goteof

theorem parseOffer (wellFormed : ∀ o ∈ offer, o.WellFormed) (sock : Socket) {turns : Nat} (enough : offer.length ≤ turns) :
    ∃ sock', parseOptions turns (offer.flatMap Opt.encode) sock = some (.accepted sock') ∧ SameButSizes sock sock' ∧
      sock'.blksize = offer.foldl (fun blksize o => if o.isBlksize then decimal o.value else blksize) sock.blksize := by
  induction offer generalizing sock turns with
  | nil =>
    refine ⟨sock,?_,⟨rfl,rfl,rfl,rfl⟩,rfl⟩
    cases turns <;> rfl
  | cons o offer ih =>
    obtain ⟨turns,rfl⟩ : ∃ k, turns = k + 1 := ⟨turns - 1,by simp at enough; omega⟩
    obtain ⟨known,digits,inRange⟩ := wellFormed o (by simp)
    have fewer : offer.length ≤ turns := by simp at enough; omega
    have later := fun sock => ih (fun p m => wellFormed p (by simp [m])) sock fewer
    have notZero := nameNotZero known
    obtain ⟨c,name,eq⟩ := List.exists_cons_of_ne_nil (nameNotEmpty known)
    have cNotZero : c ≠ 0 := notZero c (by simp [eq])
    have bytes : (o::offer).flatMap Opt.encode = o.name ++ 0::(o.value ++ 0::offer.flatMap Opt.encode) := by
      simp [Opt.encode]
    obtain ⟨taken,dropped⟩ := takeName (o.value ++ 0::offer.flatMap Opt.encode) notZero
    obtain ⟨v,vs,valueEq⟩ : ∃ v vs, o.value ++ 0::offer.flatMap Opt.encode = v::vs :=
      List.exists_cons_of_ne_nil (by simp)
    have number := parseNumberDigits (offer.flatMap Opt.encode) digits 0
    rw [valueEq] at number dropped taken
    have start : parseOptions (turns + 1) ((o::offer).flatMap Opt.encode) sock =
        if o.name.map lower = tsizeName then
          parseOptions turns (offer.flatMap Opt.encode) { sock with size := readNumber o.value 0 }
        else if o.name.map lower = blksizeName then
          parseOptions turns (offer.flatMap Opt.encode) { sock with blksize := readNumber o.value 0 % 2^32 }
        else some (.refused sock) := by
      have first : o.name ++ 0::v::vs = c::(name ++ 0::v::vs) := by simp [eq]
      rw [bytes,valueEq,first,parseOptions]
      simp only [if_neg cNotZero]
      rw [← first,taken,dropped]
      simp only [number]
    rw [start]
    by_cases tsize : o.name.map lower = tsizeName
    · have other : ¬ o.isBlksize := by
        unfold Opt.isBlksize
        rw [tsize]
        decide
      obtain ⟨sock',ran,same,blksize⟩ := later { sock with size := readNumber o.value 0 }
      rw [if_pos tsize]
      exact ⟨sock',ran,⟨same.filepos,same.bytesleft,same.lastpkt,same.goteof⟩,by rw [blksize,List.foldl_cons,if_neg other]⟩
    · have isBlksize : o.isBlksize := known.resolve_left tsize
      obtain ⟨_,small⟩ := inRange isBlksize
      unfold pktbufSize at small
      have value : readNumber o.value 0 % 2^32 = decimal o.value := by
        rw [readNumberEq o.value 0 (by show decimal o.value < _; omega)]
        exact Nat.mod_eq_of_lt (by show decimal o.value < _; omega)
      obtain ⟨sock',ran,same,blksize⟩ := later { sock with blksize := readNumber o.value 0 % 2^32 }
      rw [if_neg tsize,if_pos (show o.name.map lower = blksizeName from isBlksize)]
      refine ⟨sock',ran,⟨same.filepos,same.bytesleft,same.lastpkt,same.goteof⟩,?_⟩
      rw [blksize,List.foldl_cons,if_pos isBlksize,value]

theorem negotiatedRange (wellFormed : ∀ o ∈ offer, o.WellFormed) : 64 ≤ negotiated offer ∧ negotiated offer ≤ pktbufSize := by
  have keeps : ∀ (offer : List Opt) (n : Nat), (∀ o ∈ offer, o.WellFormed) → 64 ≤ n → n ≤ pktbufSize →
      64 ≤ offer.foldl (fun blksize o => if o.isBlksize then decimal o.value else blksize) n ∧
      offer.foldl (fun blksize o => if o.isBlksize then decimal o.value else blksize) n ≤ pktbufSize := by
    intro offer
    induction offer with
    | nil => exact fun n _ low high => ⟨low,high⟩
    | cons o offer ih =>
      intro n wellFormed low high
      rw [List.foldl_cons]
      by_cases isBlksize : o.isBlksize
      · rw [if_pos isBlksize]
        obtain ⟨low,high⟩ := (wellFormed o (by simp)).inRange isBlksize
        exact ih _ (fun p m => wellFormed p (by simp [m])) low high
      · rw [if_neg isBlksize]
        exact ih _ (fun p m => wellFormed p (by simp [m])) low high
  exact keeps offer tftpBlocksize wellFormed (by decide) (by decide)

theorem offerLength (offer : List Opt) : offer.length ≤ (oackPacket offer).length := by
  have options : offer.length ≤ (offer.flatMap Opt.encode).length := by
    induction offer with
    | nil => simp
    | cons o offer ih =>
      simp only [List.flatMap_cons,List.length_append,List.length_cons,Opt.encode]
      omega
  simp only [oackPacket,List.length_append]
  omega

end
end Syslinux.Tftp
