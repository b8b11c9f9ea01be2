import CueSheet.Proofs.Source.Number

/-!
Doubles as numerals. A finite double is a whole number of the least one, `2 ^ (-1074)`, so 1074 digits
behind the point spell it out, and nothing is left to round when they are read. What no numeral stands
for is a double that is not a number.
-/

namespace CueSheet

namespace Decimal

open Float.Model (Format UnpackedFloat totalExponent)
open Float.Model.UnpackedFloat (Sign ExtendedMantissa packComponents unpackExponent unpackMantissa)

section Rounding

variable {m : Nat} {e : Int}

def places : Nat := 1074

structure Canonical (m : Nat) (e : Int) : Prop where
  mantissa : m < 2 ^ 53
  least : -1074 ≤ e
  normal : e = -1074 ∨ 2 ^ 52 ≤ m

theorem Canonical.targetExponent (h : Canonical m e) (hm : 0 < m) :
    Format.binary64.targetExponent (totalExponent m e) = e := by
  have hlog : m.log2 < 53 := (Nat.log2_lt hm.ne').2 h.mantissa
  have hbits : ((Format.binary64.mantissaBits : Nat) : Int) = 53 := rfl
  have hmin : Format.binary64.minExponent = -1074 := rfl
  have hleast := h.least
  rw [Format.targetExponent, totalExponent, hbits, hmin]
  rcases h.normal with he | hnormal
  · omega
  · have hlog' : 52 ≤ m.log2 := (Nat.le_log2 hm.ne').2 hnormal
    omega

theorem log2_mul_two_pow (hm : 0 < m) (k : Nat) : (m * 2 ^ k).log2 = m.log2 + k := by
  induction k with
  | zero => rw [Nat.pow_zero, Nat.mul_one, Nat.add_zero]
  | succ k ih =>
    have hpos : m * 2 ^ k ≠ 0 := (Nat.mul_pos hm (Nat.two_pow_pos k)).ne'
    rw [Nat.pow_succ', Nat.mul_left_comm, Nat.log2_two_mul hpos, ih, Nat.add_assoc]

theorem totalExponent_shift (hm : 0 < m) (k : Nat) :
    totalExponent (m * 2 ^ k) (e - k) = totalExponent m e := by
  rw [totalExponent, totalExponent, log2_mul_two_pow hm]
  omega

theorem repeat_shiftRightOne (m k : Nat) :
    Nat.repeat ExtendedMantissa.shiftRightOne k ⟨m * 2 ^ k, false, false⟩ =
      ⟨m, false, false⟩ := by
  induction k generalizing m with
  | zero => rw [Nat.repeat, Nat.pow_zero, Nat.mul_one]
  | succ k ih =>
    rw [Nat.repeat, Nat.pow_succ', ← Nat.mul_assoc, ih (m * 2)]
    simp [ExtendedMantissa.shiftRightOne]

theorem shiftToTargetExponent_eq (h : Canonical m e) (hm : 0 < m) (k : Nat) :
    Float.Model.UnpackedFloat.shiftToTargetExponent .binary64 (m * 2 ^ k) (e - k) .exact =
      (⟨m, false, false⟩, e) := by
  have hamount : (e - (e - (k : Int))).toNat = k := by omega
  have hexponent : e - k + k = e := by omega
  rw [Float.Model.UnpackedFloat.shiftToTargetExponent, totalExponent_shift hm,
    h.targetExponent hm, Float.Model.UnpackedFloat.shiftToExponent, hamount, hexponent]
  exact congrArg (·, e) (repeat_shiftRightOne m k)

theorem roundWithAccuracy_eq (h : Canonical m e) (hm : 0 < m) (s : Sign) (k : Nat) :
    Float.Model.UnpackedFloat.roundWithAccuracy .binary64 s (m * 2 ^ k) (e - k) .exact =
      .finite s m e hm := by
  have hagain := shiftToTargetExponent_eq h hm 0
  rw [Nat.pow_zero, Nat.mul_one, Int.natCast_zero, Int.sub_zero] at hagain
  rw [Float.Model.UnpackedFloat.roundWithAccuracy, shiftToTargetExponent_eq h hm k]
  have hrounded : ExtendedMantissa.roundedMantissa ⟨m, false, false⟩ = m := rfl
  dsimp only
  rw [hrounded, hagain]
  exact dif_neg hm.ne'

theorem log2_add_le {m num den p q b : Nat} (hnum : 0 < num) (hm : m < 2 ^ b)
    (h : num * 2 ^ p = m * 2 ^ q * den) : num.log2 + p ≤ den.log2 + q + b := by
  have hlower : 2 ^ (num.log2 + p) ≤ num * 2 ^ p := by
    rw [Nat.pow_add]
    exact Nat.mul_le_mul_right _ (Nat.log2_self_le hnum.ne')
  have hupper : m * 2 ^ q * den < 2 ^ (b + q + (den.log2 + 1)) := by
    rw [Nat.pow_add, Nat.pow_add]
    exact Nat.mul_lt_mul'' (Nat.mul_lt_mul_of_pos_right hm (Nat.two_pow_pos _)) Nat.lt_log2_self
  have hpow := Nat.lt_of_le_of_lt (h ▸ hlower) hupper
  have hexponent := (Nat.pow_lt_pow_iff_right Nat.one_lt_two).1 hpow
  omega

theorem div_eq (h : Canonical m e) (hm : 0 < m) {num den : Nat} (hnum : 0 < num) (hden : 0 < den)
    (hquotient : num * 2 ^ places = m * 2 ^ (e + places).toNat * den) :
    Float.Model.UnpackedFloat.div .binary64 (.finite .positive num 0 hnum)
      (.finite .positive den 0 hden) = .finite .positive m e hm := by
  have hbits : ((Format.binary64.mantissaBits : Nat) : Int) = 53 := rfl
  have hmin : Format.binary64.minExponent = -1074 := rfl
  have hplaces : places = 1074 := rfl
  have hleast := h.least
  generalize htarget : min (0 - 0 : Int) (Format.binary64.targetExponent
    (totalExponent num 0 - totalExponent den 0)) = t
  have hlow : -1074 ≤ t := by
    rw [← htarget, Format.targetExponent, hbits, hmin]
    omega
  have hzero : t ≤ 0 := by omega
  have hlog := log2_add_le hnum h.mantissa hquotient
  have hle : t ≤ e := by
    rw [Format.targetExponent, totalExponent, totalExponent, hbits, hmin] at htarget
    omega
  obtain ⟨k, rfl⟩ : ∃ k : Nat, t = e - k := ⟨(e - t).toNat, by omega⟩
  have hshift : num <<< (0 - 0 - (e - k)).toNat = m * 2 ^ k * den := by
    refine Nat.eq_of_mul_eq_mul_right (Nat.two_pow_pos (e - k + places).toNat) ?_
    have hwhole : (0 - 0 - (e - k)).toNat + (e - k + places).toNat = places := by omega
    have hparts : (e + places).toNat = k + (e - k + places).toNat := by omega
    rw [Nat.shiftLeft_eq, Nat.mul_assoc, ← Nat.pow_add, hwhole, hquotient, hparts, Nat.pow_add]
    ring
  rw [Float.Model.UnpackedFloat.div, Float.Model.UnpackedFloat.divCore]
  dsimp only
  rw [htarget, hshift, Nat.mul_div_cancel _ hden, Nat.mul_mod_left]
  exact roundWithAccuracy_eq h hm _ k

theorem ofScientific_places (d : Nat) :
    Float.ofScientific d true places =
      .ofModel (.pack (Float.Model.UnpackedFloat.ofScientific .binary64 d (-1074))) := by
  have hslow : ¬ (d < 2 ^ 53 ∧ places ≤ 22) := fun hfast => absurd hfast.2 (by decide)
  rw [Float.ofScientific, dif_neg hslow]
  rfl

theorem ofScientific_zero :
    Float.ofScientific 0 true places = .ofModel (.pack (.zero .positive)) := by
  rw [ofScientific_places, Float.Model.UnpackedFloat.ofScientific, dif_pos rfl]

/-- A decimal whose value is a double stands for that double. -/
theorem ofScientific_eq (h : Canonical m e) (hm : 0 < m) {d : Nat} (hd : 0 < d)
    (hvalue : d * 2 ^ places = m * 2 ^ (e + places).toNat * 10 ^ places) :
    Float.ofScientific d true places = .ofModel (.pack (.finite .positive m e hm)) := by
  have hwidth : (2 : Int) ^ Format.binary64.exponentBits = 2048 := rfl
  have hsize : (-(-1074) : Int).toNat = places := rfl
  have hquotient := div_eq h hm hd (Nat.pow_pos (n := places) (by decide : 0 < 10)) hvalue
  rw [ofScientific_places, Float.Model.UnpackedFloat.ofScientific, dif_neg hd.ne', hwidth,
    if_neg (by omega), if_neg (by omega), if_neg (by omega)]
  simp only [hsize, hquotient]

end Rounding

section Bits

variable {x : Float} {negative : Bool} {m : Nat} {e : Int}

theorem toNat_toBits_pack (u : UnpackedFloat) :
    (Float.ofModel (.pack u)).toBits.toNat =
      (Float.Model.UnpackedFloat.pack .binary64 u).toNat := rfl

theorem canonical_of_binary (h : binary x = .finite negative m e) : Canonical m e := by
  have hfraction : x.toBits.toNat % hiddenBit < hiddenBit := Nat.mod_lt _ (by decide)
  simp only [binary] at h
  split_ifs at h with hmax hnan hzero
  · cases h
    exact ⟨Nat.lt_trans hfraction (by decide), by decide, .inl rfl⟩
  · cases h
    exact ⟨Nat.add_lt_add_left hfraction hiddenBit, by omega, .inr (Nat.le_add_right _ _)⟩

theorem toNat_pack_subnormal (hm : 0 < m) (hlt : m < hiddenBit) :
    (Float.Model.UnpackedFloat.pack .binary64 (.finite .positive m leastExponent hm)).toNat = m := by
  have hlog : m.log2 < 52 := (Nat.log2_lt hm.ne').2 hlt
  have hbits : Format.binary64.mantissaBits = 53 := rfl
  have hpack := toNat_packComponents .positive 0 (BitVec.ofNat 52 m)
  simp only [Float.Model.UnpackedFloat.pack]
  rw [if_neg (by decide), if_neg (by omega)]
  refine hpack.trans ?_
  rw [BitVec.toNat_ofNat, Nat.mod_eq_of_lt (show m < 2 ^ 52 from hlt)]
  exact Nat.zero_add m

theorem toNat_pack_normal {k : Nat} (hpos : 0 < k) (hk : k < 2047) (hm : 0 < hiddenBit + m)
    (hlt : m < hiddenBit) :
    (Float.Model.UnpackedFloat.pack .binary64
      (.finite .positive (hiddenBit + m) ((k : Int) - 1075) hm)).toNat = k * hiddenBit + m := by
  have hbias : ((Format.binary64.exponentBias : Nat) : Int) = 1023 := rfl
  have hwidth : ((Format.binary64.mantissaBitsWithoutImplicit : Nat) : Int) = 52 := rfl
  have hbits : Format.binary64.mantissaBits = 53 := rfl
  have hlog : (hiddenBit + m).log2 = 52 :=
    (Nat.log2_eq_iff hm.ne').2 ⟨Nat.le_add_right _ _, Nat.add_lt_add_left hlt hiddenBit⟩
  have hexp : ((k : Int) - 1075 + 1023 + 52).toNat = k := by omega
  have hsign : Sign.positive.toBitVec.toNat = 0 := rfl
  have hpack := toNat_packComponents .positive (BitVec.ofNat 11 k) (BitVec.ofNat 52 (hiddenBit + m))
  simp only [Float.Model.UnpackedFloat.pack, hlog, hbias, hwidth, hexp]
  rw [if_neg (by omega), if_pos hbits.symm]
  refine hpack.trans ?_
  rw [hsign, BitVec.toNat_ofNat, BitVec.toNat_ofNat]
  rw [hiddenBit] at hlt ⊢
  omega

theorem eq_ofModel_pack (h : binary x = .finite false m e) (hm : 0 < m) :
    x = .ofModel (.pack (.finite .positive m e hm)) := by
  have hlt : x.toBits.toNat < 2 ^ 64 := x.toBits.toNat_lt
  have hsign : x.toBits.toNat / 0x8000000000000000 ≠ 1 :=
    beq_eq_false_iff_ne.1 (finite_of_binary h).2.symm
  have hfraction : x.toBits.toNat % hiddenBit < hiddenBit := Nat.mod_lt _ (by decide)
  refine eq_of_toNat_toBits ?_
  rw [toNat_toBits_pack]
  simp only [binary] at h
  generalize x.toBits.toNat = b at h hlt hsign hfraction ⊢
  split_ifs at h with hmax hnan hzero
  · obtain ⟨-, rfl, rfl⟩ := Binary.finite.inj h
    rw [toNat_pack_subnormal hm hfraction]
    rw [hiddenBit] at hzero ⊢
    omega
  · obtain ⟨-, rfl, rfl⟩ := Binary.finite.inj h
    rw [toNat_pack_normal (Nat.pos_of_ne_zero hzero) (by omega) hm hfraction]
    rw [hiddenBit]
    omega

theorem eq_ofModel_zero (h : binary x = .finite false 0 e) :
    x = .ofModel (.pack (.zero .positive)) := by
  have hlt : x.toBits.toNat < 2 ^ 64 := x.toBits.toNat_lt
  have hsign : x.toBits.toNat / 0x8000000000000000 ≠ 1 :=
    beq_eq_false_iff_ne.1 (finite_of_binary h).2.symm
  refine eq_of_toNat_toBits ?_
  rw [toNat_toBits_pack]
  simp only [binary] at h
  generalize x.toBits.toNat = b at h hlt hsign ⊢
  split_ifs at h with hmax hnan hzero
  · have hm := (Binary.finite.inj h).2.1
    rw [hiddenBit] at hm hzero
    show b = 0
    omega
  · have hm := (Binary.finite.inj h).2.1
    rw [hiddenBit] at hm
    omega

end Bits

section Numbers

variable {x : Float}

theorem binary_eq_notANumber_iff :
    binary x = .notANumber ↔ x.toModel.unpack = .notANumber := by
  let b : BitVec Format.binary64.numBits := x.toBits.toBitVec
  have hexp : unpackExponent b = -1#11 ↔ x.toBits.toNat / hiddenBit % 0x800 = 2047 := by
    rw [← BitVec.toNat_inj, toNat_unpackExponent]
    rfl
  have hmant : unpackMantissa b = 0#52 ↔ x.toBits.toNat % hiddenBit = 0 := by
    rw [← BitVec.toNat_inj, toNat_unpackMantissa]
    rfl
  have hunpack : x.toModel.unpack = Float.Model.UnpackedFloat.unpack .binary64 b := rfl
  rw [hunpack, Float.Model.UnpackedFloat.unpack]
  simp only [binary, hexp, hmant]
  split_ifs <;> simp

theorem unpack_packComponents_ne {s : Sign} {e : BitVec 11} {m : BitVec 52}
    (h : e = -1#11 → m = 0#52) :
    Float.Model.UnpackedFloat.unpack .binary64 (packComponents .binary64 s e m) ≠ .notANumber := by
  rw [Float.Model.UnpackedFloat.unpack]
  simp only [Float.Model.UnpackedFloat.unpackExponent_packComponents,
    Float.Model.UnpackedFloat.unpackMantissa_packComponents]
  split_ifs <;> simp_all

theorem unpack_pack_ne {u : UnpackedFloat} (h : u ≠ .notANumber) :
    Float.Model.UnpackedFloat.unpack .binary64 (Float.Model.UnpackedFloat.pack .binary64 u) ≠
      .notANumber := by
  cases u with
  | notANumber => exact absurd rfl h
  | infinity s => exact unpack_packComponents_ne fun _ => rfl
  | zero s => exact unpack_packComponents_ne fun _ => rfl
  | finite s m e hm =>
    simp only [Float.Model.UnpackedFloat.pack]
    split_ifs with hmax hnormal
    · exact unpack_packComponents_ne fun _ => rfl
    · refine unpack_packComponents_ne fun hexp => absurd (congrArg BitVec.toNat hexp) ?_
      rw [BitVec.toNat_ofNat]
      show _ % 2 ^ 11 ≠ 2047
      omega
    · exact unpack_packComponents_ne fun hexp => absurd hexp (by decide)

theorem binary_pack_ne {u : UnpackedFloat} (h : u ≠ .notANumber) :
    binary (.ofModel (.pack u)) ≠ .notANumber := by
  have hunpack : (Float.ofModel (.pack u)).toModel.unpack =
      Float.Model.UnpackedFloat.unpack .binary64 (Float.Model.UnpackedFloat.pack .binary64 u) := rfl
  rw [Ne, binary_eq_notANumber_iff, hunpack]
  exact unpack_pack_ne h

theorem binary_neg_ne (h : binary x ≠ .notANumber) : binary (-x) ≠ .notANumber := by
  have hneg : -x = .ofModel (.pack x.toModel.unpack.neg) := rfl
  rw [hneg]
  refine binary_pack_ne fun hnan => h (binary_eq_notANumber_iff.2 ?_)
  cases hu : x.toModel.unpack with
  | notANumber => rfl
  | infinity s => rw [hu] at hnan; cases hnan
  | zero s => rw [hu] at hnan; cases hnan
  | finite s m e hm => rw [hu] at hnan; cases hnan

theorem roundWithAccuracy_ne (s : Sign) (m : Nat) (e : Int)
    (a : Float.Model.UnpackedFloat.Accuracy) :
    Float.Model.UnpackedFloat.roundWithAccuracy .binary64 s m e a ≠ .notANumber := by
  rw [Float.Model.UnpackedFloat.roundWithAccuracy]
  dsimp only
  split <;> exact UnpackedFloat.noConfusion

theorem ofScientific_ne (d : Nat) (k : Int) :
    Float.Model.UnpackedFloat.ofScientific .binary64 d k ≠ .notANumber := by
  rw [Float.Model.UnpackedFloat.ofScientific]
  split_ifs
  · simp
  · simp
  · simp
  · exact roundWithAccuracy_ne _ _ _ _
  · exact roundWithAccuracy_ne _ _ _ _

def isPositive : UnpackedFloat → Bool
  | .finite .positive .. => true
  | _ => false

theorem isPositive_of_mem {x : Float} (h : x ∈ Float.exactlyRepresentablePowersOfTen) :
    isPositive x.toModel.unpack = true := by
  have hall : Float.exactlyRepresentablePowersOfTen.all
      (fun x => isPositive x.toModel.unpack) = true := by decide +kernel
  exact Array.all_eq_true_iff_forall_mem.1 hall x h

theorem div_ne {u v : UnpackedFloat} (hu : u ≠ .notANumber) (hv : isPositive v = true) :
    Float.Model.UnpackedFloat.div .binary64 u v ≠ .notANumber := by
  unfold isPositive at hv
  split at hv
  · cases u with
    | notANumber => exact absurd rfl hu
    | infinity s => exact UnpackedFloat.noConfusion
    | zero s => exact UnpackedFloat.noConfusion
    | finite s m e hm => exact roundWithAccuracy_ne _ _ _ _
  · cases hv

theorem normalize_ne (m e : Int) (s : Sign) :
    Float.Model.UnpackedFloat.normalize .binary64 m e s ≠ .notANumber := by
  rw [Float.Model.UnpackedFloat.normalize]
  split
  · exact roundWithAccuracy_ne _ _ _ _
  · exact UnpackedFloat.noConfusion
  · exact roundWithAccuracy_ne _ _ _ _

theorem binary_ofScientific_ne (d k : Nat) :
    binary (Float.ofScientific d true k) ≠ .notANumber := by
  rw [Float.ofScientific]
  split
  · next hfast =>
    exact binary_pack_ne (div_ne (unpack_pack_ne (normalize_ne _ _ _))
      (isPositive_of_mem (Array.getElem_mem _)))
  · exact binary_pack_ne (ofScientific_ne d _)

end Numbers

section Digits

theorem ofDigits_zeros_append (n : Nat) (s : List Char) :
    ofDigits (List.replicate n '0' ++ s) = ofDigits s := by
  induction n with
  | zero => rfl
  | succ n ih => exact ih

def digits (m : Nat) (e : Int) : Nat := m * 2 ^ (e + places).toNat * 5 ^ places

theorem digits_pos {m : Nat} {e : Int} (hm : 0 < m) : 0 < digits m e :=
  Nat.mul_pos (Nat.mul_pos hm (Nat.two_pow_pos _)) (Nat.pow_pos (by decide))

theorem digits_mul_two_pow (m : Nat) (e : Int) :
    digits m e * 2 ^ places = m * 2 ^ (e + places).toNat * 10 ^ places := by
  rw [digits, Nat.mul_assoc, ← Nat.mul_pow]

end Digits

end Decimal

namespace Numeral

def ofDecimal (d k : Nat) : Numeral :=
  let digits := List.replicate (k + 1 - (toString d).toList.length) '0' ++ (toString d).toList
  ⟨digits.take (digits.length - k), some (digits.drop (digits.length - k))⟩

theorem value_ofDecimal (d k : Nat) : (ofDecimal d k).value = Float.ofScientific d true k := by
  simp only [ofDecimal, value, Option.getD_some, Decimal.value, List.take_append_drop,
    Decimal.ofDigits_zeros_append, Decimal.ofDigits_toString, List.length_drop,
    List.length_append, List.length_replicate]
  congr 1
  omega

def inFull (x : Float) : Numeral :=
  match Decimal.binary x with
  | .finite _ m e => ofDecimal (Decimal.digits m e) Decimal.places
  | _ => ⟨'1' :: List.replicate 400 '0', none⟩

variable {x : Float} {m : Nat} {e : Int}

theorem value_inFull (h : Decimal.binary x = .finite false m e) : (inFull x).value = x := by
  simp only [inFull, h, value_ofDecimal]
  rcases Nat.eq_zero_or_pos m with rfl | hm
  · have hzero : Decimal.digits 0 e = 0 := by rw [Decimal.digits, Nat.zero_mul, Nat.zero_mul]
    rw [hzero, Decimal.ofScientific_zero, ← Decimal.eq_ofModel_zero h]
  · rw [Decimal.ofScientific_eq (Decimal.canonical_of_binary h) hm (Decimal.digits_pos hm)
      (Decimal.digits_mul_two_pow m e), ← Decimal.eq_ofModel_pack h hm]

theorem inFull_neg {negative : Bool} (h : Decimal.binary x = .finite negative m e) :
    inFull (-x) = inFull x := by
  simp only [inFull, h, Decimal.binary_neg h]

theorem neg_value_inFull (h : Decimal.binary x = .finite true m e) : -(inFull x).value = x := by
  rw [← inFull_neg h, value_inFull (Decimal.binary_neg h), Decimal.neg_neg_of_binary h]

theorem toNat_of_infinite {negative : Bool} (h : Decimal.binary x = .infinite negative) :
    x.toBits.toNat = if negative then 0xFFF0000000000000 else 0x7FF0000000000000 := by
  have hlt : x.toBits.toNat < 2 ^ 64 := x.toBits.toNat_lt
  simp only [Decimal.binary] at h
  split_ifs at h with hmax hzero hsub
  obtain rfl := Decimal.Binary.infinite.inj h
  rw [Decimal.hiddenBit] at hmax hzero
  split
  · next hneg =>
    rw [beq_iff_eq] at hneg
    omega
  · next hpos =>
    rw [beq_iff_eq] at hpos
    omega

theorem value_inFull_infinite (h : Decimal.binary x = .infinite false) : (inFull x).value = x := by
  refine Decimal.eq_of_toNat_toBits ?_
  rw [toNat_of_infinite h]
  simp only [inFull, h]
  decide +kernel

theorem neg_value_inFull_infinite (h : Decimal.binary x = .infinite true) :
    -(inFull x).value = x := by
  refine Decimal.eq_of_toNat_toBits ?_
  rw [toNat_of_infinite h]
  simp only [inFull, h]
  decide +kernel

theorem value_ne_notANumber (n : Numeral) : Decimal.binary n.value ≠ .notANumber :=
  Decimal.binary_ofScientific_ne _ _

end Numeral

end CueSheet
