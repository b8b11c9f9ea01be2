import CueSheet.Proofs.Source.Lexing

/-!
Numbers as they are written. A negative double is written as the double without its sign, behind a
minus sign; to take the sign away and put it back changes nothing. The decimal text of a double
without a sign is a numeral.
-/

namespace CueSheet

namespace Decimal

open Float.Model (Format)
open Float.Model.UnpackedFloat (Sign packComponents unpackSign unpackExponent unpackMantissa)

section Bits

variable {b : BitVec Format.binary64.numBits}

theorem toNat_append {n k : Nat} (a : BitVec n) (c : BitVec k) :
    (a ++ c).toNat = a.toNat * 2 ^ k + c.toNat := by
  rw [BitVec.toNat_append, ← Nat.shiftLeft_add_eq_or_of_lt c.isLt, Nat.shiftLeft_eq]

theorem toNat_packComponents (s : Sign) (e : BitVec 11) (m : BitVec 52) :
    (packComponents Format.binary64 s e m).toNat =
      s.toBitVec.toNat * 2 ^ 63 + e.toNat * 2 ^ 52 + m.toNat := by
  rw [packComponents, toNat_append, toNat_append]
  omega

theorem toNat_unpackMantissa : (unpackMantissa b).toNat = b.toNat % 2 ^ 52 := by
  simp [unpackMantissa, BitVec.extractLsb, BitVec.extractLsb']

theorem toNat_unpackExponent : (unpackExponent b).toNat = b.toNat / 2 ^ 52 % 2 ^ 11 := by
  simp [unpackExponent, BitVec.extractLsb, BitVec.extractLsb', Nat.shiftRight_eq_div_pow]

theorem toNat_unpackSign : (unpackSign b).toNat = b.toNat / 2 ^ 63 := by
  have hb : b.toNat < 2 ^ 64 := b.isLt
  simp [unpackSign, BitVec.extractLsb, BitVec.extractLsb', Nat.shiftRight_eq_div_pow]
  omega

theorem pack_neg_unpack (h : unpackExponent b ≠ -1#11) :
    Float.Model.UnpackedFloat.pack .binary64 (Float.Model.UnpackedFloat.unpack .binary64 b).neg =
      packComponents .binary64 (-(Sign.ofBitVec (unpackSign b))) (unpackExponent b)
        (unpackMantissa b) := by
  have hbias : ((Format.binary64.exponentBias : Nat) : Int) = 1023 := rfl
  have hwidth : ((Format.binary64.mantissaBitsWithoutImplicit : Nat) : Int) = 52 := rfl
  have hbits : Format.binary64.mantissaBits = 53 := rfl
  have hm : (unpackMantissa b).toNat < 2 ^ 52 := (unpackMantissa b).isLt
  have he : (unpackExponent b).toNat < 2 ^ 11 := (unpackExponent b).isLt
  rw [Float.Model.UnpackedFloat.unpack, if_neg h]
  split
  · next hzero =>
    split
    · next hmant =>
      rw [hzero, hmant]
      rfl
    · next hmant =>
      -- without the hidden bit the mantissa is too short to be normal, and is stored as it is
      have hpos : (unpackMantissa b).toNat ≠ 0 := fun h0 => hmant (BitVec.eq_of_toNat_eq h0)
      have hlog : (unpackMantissa b).toNat.log2 < 52 := (Nat.log2_lt hpos).2 hm
      simp only [Float.Model.UnpackedFloat.neg, Float.Model.UnpackedFloat.pack]
      rw [if_neg, if_neg]
      · rw [hzero, BitVec.ofNat_toNat, BitVec.setWidth_eq]
      · omega
      · rw [hzero]
        decide
  · next hzero =>
    -- the hidden bit makes the mantissa as long as a normal one has to be
    have hmax : (unpackExponent b).toNat ≠ 2047 := fun he => h (BitVec.eq_of_toNat_eq he)
    have hnorm : (1#1 ++ unpackMantissa b).toNat = 2 ^ 52 + (unpackMantissa b).toNat := by
      rw [toNat_append]
      rfl
    have hlog : (2 ^ 52 + (unpackMantissa b).toNat).log2 = 52 := by
      refine (Nat.log2_eq_iff (by omega)).2 ⟨?_, ?_⟩ <;> omega
    have hexp : ((unpackExponent b).toNat - (1023 + 52) + 1023 + 52 : Int).toNat =
        (unpackExponent b).toNat := by omega
    simp only [Float.Model.UnpackedFloat.neg, Float.Model.UnpackedFloat.pack, hnorm, hlog, hbias,
      hwidth, hexp]
    rw [if_neg, if_pos hbits.symm]
    · congr 1
      · rw [BitVec.ofNat_toNat, BitVec.setWidth_eq]
      · refine BitVec.eq_of_toNat_eq ?_
        rw [BitVec.toNat_ofNat]
        exact (Nat.add_mod_left _ _).trans (Nat.mod_eq_of_lt hm)
    · omega

end Bits

section Negation

variable {x : Float} {negative : Bool} {m : Nat} {e : Int}

theorem finite_of_binary (h : binary x = .finite negative m e) :
    x.toBits.toNat / hiddenBit % 0x800 ≠ 2047 ∧
      negative = (x.toBits.toNat / 0x8000000000000000 == 1) := by
  simp only [binary] at h
  split_ifs at h with hmax hzero hsub
  · exact ⟨hmax, (Binary.finite.inj h).1.symm⟩
  · exact ⟨hmax, (Binary.finite.inj h).1.symm⟩

theorem toNat_neg_sign (v : BitVec 1) : (-(Sign.ofBitVec v)).toBitVec.toNat = 1 - v.toNat := by
  revert v
  decide

theorem toNat_toBits_neg (h : x.toBits.toNat / hiddenBit % 0x800 ≠ 2047) :
    (-x).toBits.toNat = (1 - x.toBits.toNat / 2 ^ 63) * 2 ^ 63 + x.toBits.toNat % 2 ^ 63 := by
  let b : BitVec Format.binary64.numBits := x.toBits.toBitVec
  have hexp : unpackExponent b ≠ -1#11 := by
    intro he
    have hnat := congrArg BitVec.toNat he
    rw [toNat_unpackExponent] at hnat
    exact h hnat
  have hneg : (-x).toBits.toBitVec = Float.Model.UnpackedFloat.pack .binary64
      (Float.Model.UnpackedFloat.unpack .binary64 b).neg := rfl
  have hpack := congrArg BitVec.toNat (hneg.trans (pack_neg_unpack hexp))
  have hb : b.toNat = x.toBits.toNat := UInt64.toNat_toBitVec x.toBits
  rw [toNat_packComponents, toNat_neg_sign, toNat_unpackSign, toNat_unpackExponent,
    toNat_unpackMantissa, hb, UInt64.toNat_toBitVec] at hpack
  rw [hpack]
  generalize x.toBits.toNat = n
  omega

theorem eq_of_toNat_toBits {x y : Float} (h : x.toBits.toNat = y.toBits.toNat) : x = y := by
  obtain ⟨⟨bits, _⟩⟩ := x
  obtain ⟨⟨bits', _⟩⟩ := y
  obtain rfl : bits = bits' := UInt64.toNat_inj.1 h
  rfl

theorem binary_neg (h : binary x = .finite negative m e) : binary (-x) = .finite (!negative) m e := by
  obtain ⟨hexp, rfl⟩ := finite_of_binary h
  have hneg := toNat_toBits_neg hexp
  have hlt : x.toBits.toNat < 2 ^ 64 := x.toBits.toNat_lt
  have hexp' : (-x).toBits.toNat / hiddenBit % 0x800 = x.toBits.toNat / hiddenBit % 0x800 := by
    rw [hneg, hiddenBit]
    omega
  have hmant : (-x).toBits.toNat % hiddenBit = x.toBits.toNat % hiddenBit := by
    rw [hneg, hiddenBit]
    omega
  have hsign : ((-x).toBits.toNat / 0x8000000000000000 == 1) =
      !(x.toBits.toNat / 0x8000000000000000 == 1) := by
    rw [hneg, Bool.eq_iff_iff]
    simp only [beq_iff_eq, Bool.not_eq_true', beq_eq_false_iff_ne]
    omega
  simp only [binary, hexp, if_false] at h ⊢
  rw [hexp', hmant, hsign]
  split at h
  · next hzero =>
    rw [if_neg hexp, if_pos hzero]
    cases h
    rfl
  · next hzero =>
    rw [if_neg hexp, if_neg hzero]
    cases h
    rfl

theorem neg_neg_of_binary (h : binary x = .finite negative m e) : -(-x) = x := by
  obtain ⟨hexp, -⟩ := finite_of_binary h
  obtain ⟨hexp', -⟩ := finite_of_binary (binary_neg h)
  have hlt : x.toBits.toNat < 2 ^ 64 := x.toBits.toNat_lt
  refine eq_of_toNat_toBits ?_
  rw [toNat_toBits_neg hexp', toNat_toBits_neg hexp]
  omega

theorem eq_magnitude (h : binary x = .finite negative m e) :
    x = if isNegative x then -magnitude x else magnitude x := by
  unfold magnitude
  split
  · exact (neg_neg_of_binary h).symm
  · rfl

theorem binary_magnitude (h : binary x = .finite negative m e) :
    binary (magnitude x) = .finite false m e := by
  have hsign : isNegative x = negative := by rw [isNegative, h]
  cases negative with
  | false => simpa only [magnitude, hsign, Bool.false_eq_true, if_false] using h
  | true => simpa only [magnitude, hsign, if_true, Bool.not_true] using binary_neg h

end Negation

section Digits

theorem toString_ne_nil (n : Nat) : (toString n).toList ≠ [] := by
  rw [show (toString n).toList = _ from Nat.toList_repr]
  exact Nat.toDigits_ne_nil

theorem isDigit_of_mem_toString {n : Nat} {c : Char} (h : c ∈ (toString n).toList) :
    c.isDigit = true := by
  rw [show (toString n).toList = _ from Nat.toList_repr] at h
  exact Nat.isDigit_of_mem_toDigits (by decide) (by decide) h

theorem ofDigits_toString (n : Nat) : ofDigits (toString n).toList = n := by
  rw [show (toString n).toList = _ from Nat.toList_repr]
  exact Nat.ofDigitChars_eq_foldl.symm.trans Nat.ofDigitChars_ten_toDigits

theorem le_of_natural? {max n : Nat} {s : List Char} (h : natural? max s = some n) : n ≤ max := by
  obtain ⟨-, hle⟩ := Option.filter_eq_some_iff.1 h
  simpa using hle

theorem natural?_of_digits {s : List Char} (hne : s ≠ []) (hs : ∀ c ∈ s, c.isDigit = true)
    (max : Nat) : natural? max s = if ofDigits s ≤ max then some (ofDigits s) else none := by
  cases s with
  | nil => exact absurd rfl hne
  | cons c r =>
    have hplus : c ≠ '+' := by
      rintro rfl
      cases hs '+' List.mem_cons_self
    have hdigits : digits? (c :: r) = some (ofDigits (c :: r)) :=
      if_neg (by simp [List.all_eq_true.2 hs])
    simp [natural?, hplus, hdigits, Option.filter]

theorem natural?_toString (max n : Nat) :
    natural? max (toString n).toList = if n ≤ max then some n else none := by
  rw [natural?_of_digits (toString_ne_nil n) fun _ => isDigit_of_mem_toString, ofDigits_toString]

theorem positional_eq_spelling (d : Nat) (k : Int) :
    ∃ n : Numeral, (Token.number n).Spellable ∧ positional d k = n.spelling := by
  have hzero : ∀ n, ∀ c ∈ List.replicate n '0', c.isDigit = true := by
    intro n c hc
    rw [(List.mem_replicate.1 hc).2]
    rfl
  have hd := fun c => isDigit_of_mem_toString (n := d) (c := c)
  unfold positional
  dsimp only
  split
  · exact ⟨⟨_, none⟩, ⟨by simp, List.forall_mem_append.2 ⟨hd, hzero _⟩, by rintro f ⟨⟩⟩, rfl⟩
  · next hk =>
    generalize hpad : List.replicate ((-k).toNat + 1 - (toString d).toList.length) '0' ++
      (toString d).toList = padded
    have hdigits : ∀ c ∈ padded, c.isDigit = true := by
      rw [← hpad]
      exact List.forall_mem_append.2 ⟨hzero _, hd⟩
    have hlength : (-k).toNat < padded.length := by
      rw [← hpad, List.length_append, List.length_replicate]
      omega
    refine ⟨⟨_, some _⟩, ⟨?_, fun c hc => hdigits c (List.mem_of_mem_take hc), ?_⟩, rfl⟩
    · rw [Ne, List.take_eq_nil_iff, not_or, ← List.length_eq_zero_iff]
      omega
    · rintro f ⟨⟩ c hc
      exact hdigits c (List.mem_of_mem_drop hc)

theorem plain_eq_spelling {x : Float} {m : Nat} {e : Int} (h : binary x = .finite false m e) :
    ∃ n : Numeral, (Token.number n).Spellable ∧ plain x = n.spelling := by
  simp only [plain, h, Bool.false_eq_true, if_false]
  split
  · exact ⟨⟨['0'], none⟩, ⟨List.cons_ne_nil _ _, List.forall_mem_singleton.2 rfl, by rintro f ⟨⟩⟩, rfl⟩
  · exact positional_eq_spelling _ _

end Digits

/-- The double is finite, and the decimal text of its magnitude reads back. -/
structure Readable (x : Float) : Prop where
  finite : ∃ negative m e, binary x = .finite negative m e
  back : (Numeral.ofDouble (magnitude x)).value = magnitude x

end Decimal

namespace Numeral

theorem spellable_ofNat (n : Nat) : (Token.number (ofNat n)).Spellable :=
  ⟨Decimal.toString_ne_nil n, fun _ => Decimal.isDigit_of_mem_toString, by rintro f ⟨⟩⟩

theorem ofDouble_eq {x : Float} {n : Numeral} (hn : (Token.number n).Spellable)
    (h : Decimal.plain x = n.spelling) : ofDouble x = n := by
  obtain ⟨whole, fraction⟩ := n
  obtain ⟨-, hwhole, -⟩ := hn
  have hpoint : '.' ∉ whole := fun hp => by cases hwhole _ hp
  cases fraction with
  | none =>
    have hcut : Text.cut? '.' whole = none := by
      cases hc : Text.cut? '.' whole with
      | none => rfl
      | some p =>
        obtain ⟨rfl, -⟩ := Text.cut?_eq_some_iff.1 hc
        exact absurd (List.mem_append_right _ List.mem_cons_self) hpoint
    simp only [ofDouble, h, spelling, String.toList_ofList, hcut]
  | some fraction =>
    have hcut : Text.cut? '.' (whole ++ '.' :: fraction) = some (whole, fraction) :=
      Text.cut?_eq_some_iff.2 ⟨rfl, hpoint⟩
    simp only [ofDouble, h, spelling, String.toList_ofList, hcut]

theorem spellable_ofDouble {x : Float} {m : Nat} {e : Int}
    (h : Decimal.binary x = .finite false m e) : (Token.number (ofDouble x)).Spellable := by
  obtain ⟨n, hn, hplain⟩ := Decimal.plain_eq_spelling h
  rwa [ofDouble_eq hn hplain]

end Numeral

end CueSheet
