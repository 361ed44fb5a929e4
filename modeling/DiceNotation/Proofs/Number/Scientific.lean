/-
  DiceNotation.Proofs.Number.Scientific

  Digits with an exponent are read as the nearest double.

  Whole numbers of no more places than a mantissa and the powers of ten up to the
  twenty-second are doubles themselves (`Double.unpack_toFloat`, `Double.unpack_powers`).
  So whether digits are divided as doubles or as whole numbers of any size, the quotient
  is that of the exact numbers, and comes to the double that it is nearest to
  (`Double.ofScientific_nearest`).
-/

import DiceNotation.Proofs.Number.Rounding

namespace DiceNotation.Double

open Float.Model (Format UnpackedFloat totalExponent)
open Float.Model.UnpackedFloat (ExtendedMantissa Sign packComponents roundWithAccuracy
  unpackSign_packComponents unpackExponent_packComponents unpackMantissa_packComponents)

/-! ## Whole numbers -/

/-- A normal double has the parts that it is packed of. -/
theorem unpack_pack_normal {m : Nat} {e : Int} (hm : 0 < m) (hnormal : 2 ^ 52 ≤ m)
    (hplaces : m < 2 ^ 53) (hmin : -1074 ≤ e) (hmax : e ≤ 971) (s : Sign) :
    unpack (pack (.finite s m e hm)) = .finite s m e hm := by
  have hlog : m.log2 = 52 := (Nat.log2_eq_iff hm.ne').mpr ⟨hnormal, hplaces⟩
  obtain ⟨biased, hbiased⟩ : ∃ biased : Nat, (biased : Int) = e + 1075 :=
    ⟨(e + 1075).toNat, Int.toNat_of_nonneg (by omega)⟩
  have hexponent : (e + Format.binary64.exponentBias +
      Format.binary64.mantissaBitsWithoutImplicit).toNat = biased := by
    show (e + 1023 + 52).toNat = biased
    omega
  have hpack : UnpackedFloat.pack .binary64 (.finite s m e hm) =
      packComponents .binary64 s (BitVec.ofNat 11 biased) (BitVec.ofNat 52 m) := by
    rw [UnpackedFloat.pack]
    simp only [hexponent, hlog]
    rw [if_neg (show ¬ 2 ^ 11 ≤ biased + 1 by omega)]
    exact if_pos rfl
  have hvalue : (BitVec.ofNat 11 biased).toNat = biased := by
    rw [BitVec.toNat_ofNat]
    omega
  have hfinite : BitVec.ofNat 11 biased ≠ -1#11 := by
    intro heq
    have hones : biased = 2047 := hvalue.symm.trans (congrArg BitVec.toNat heq)
    omega
  have hnonzero : BitVec.ofNat 11 biased ≠ 0#11 := by
    intro heq
    have hzero : biased = 0 := hvalue.symm.trans (congrArg BitVec.toNat heq)
    omega
  have hmantissa : (1#1 ++ BitVec.ofNat 52 m).toNat = m := by
    rw [toNat_implicit, BitVec.toNat_ofNat]
    omega
  show UnpackedFloat.unpack .binary64 (UnpackedFloat.pack .binary64 (.finite s m e hm)) = _
  rw [hpack]
  simp only [UnpackedFloat.unpack, unpackSign_packComponents, unpackExponent_packComponents,
    unpackMantissa_packComponents, Sign.ofBitVec_toBitVec, hfinite, hnonzero, if_false, hmantissa,
    hvalue]
  congr 1
  show (biased : Int) - 1075 = e
  omega

/-- A mantissa that has no more places than a double is not rounded. -/
theorem roundWithAccuracy_small {m : Nat} {e : Int} (hm : 0 < m) (hplaces : m < 2 ^ 53)
    (he : -1074 ≤ e) : roundWithAccuracy .binary64 .positive m e .exact =
      .finite .positive m e hm := by
  have hround : (ExtendedMantissa.mk m false false).roundedMantissa = m := rfl
  simp only [roundWithAccuracy, shiftToTargetExponent_small hplaces he, hround, hm.ne', dite_false]

/-- A whole number of no more places than a mantissa is a double. -/
theorem unpack_toFloat {n : Nat} (hpos : 0 < n) (hplaces : n < 2 ^ 53) :
    ∃ m e, ∃ hm : 0 < m, unpack n.toUInt64.toFloat = .finite .positive m e hm ∧
      (m : ℚ) * 2 ^ e = n := by
  have hlog : n.log2 ≤ 52 := Nat.le_of_lt_succ ((Nat.log2_lt hpos.ne').mpr hplaces)
  obtain ⟨shift, hshift⟩ : ∃ shift, n.log2 + shift = 52 := Nat.le.dest hlog
  have hbounds := (Nat.log2_eq_iff hpos.ne').mp (rfl : n.log2 = n.log2)
  have hnormal : 2 ^ 52 ≤ n <<< shift ∧ n <<< shift < 2 ^ 53 := by
    rw [Nat.shiftLeft_eq, ← hshift]
    constructor
    · rw [pow_add]
      exact Nat.mul_le_mul_right _ hbounds.1
    · have hlt := Nat.mul_lt_mul_of_pos_right hbounds.2 (Nat.two_pow_pos shift)
      rw [← pow_add] at hlt
      rwa [show n.log2 + 1 + shift = 53 by omega] at hlt
  have hm : 0 < n <<< shift := by omega
  have hnormalize : UnpackedFloat.normalize .binary64 n 0 .positive =
      .finite .positive (n <<< shift) (-shift) hm := by
    have htarget : Format.binary64.targetExponent (totalExponent n 0) = -shift := by
      rw [targetExponent_eq, totalExponent]
      omega
    have hdecrease : UnpackedFloat.decreaseExponent n 0 (-shift) =
        (n <<< shift, -(shift : Int)) := by
      have hamount : (0 - -(shift : Int)).toNat = shift := by omega
      rw [UnpackedFloat.decreaseExponent, hamount, Int.zero_sub]
    have hcompare : compare (n : Int) 0 = .gt := compare_gt_iff_gt.mpr (by omega)
    simp only [UnpackedFloat.normalize, hcompare, UnpackedFloat.round, Int.toNat_natCast, htarget,
      hdecrease]
    exact roundWithAccuracy_small hm hnormal.2 (by omega)
  have htoNat : n.toUInt64.toNat = n := by
    show n % 2 ^ 64 = n
    omega
  have hpack : n.toUInt64.toFloat = pack (.finite .positive (n <<< shift) (-shift) hm) := by
    rw [← hnormalize]
    show pack (UnpackedFloat.normalize .binary64 n.toUInt64.toNat 0 .positive) = _
    rw [htoNat]
  refine ⟨n <<< shift, -shift, hm, ?_, ?_⟩
  · rw [hpack]
    exact unpack_pack_normal hm hnormal.1 hnormal.2 (by omega) (by omega) _
  · rw [Nat.shiftLeft_eq, zpow_neg, zpow_natCast]
    push_cast
    field_simp

/-! ## Powers of ten -/

/-- Whether a double is a power of ten. -/
def isPowerOfTen (x : Float) (k : Nat) : Bool :=
  match Decimal.decode x with
  | .finite b => !b.negative && b.mantissa != 0 &&
      b.mantissa * 2 ^ b.exponent.toNat == 10 ^ k * 2 ^ (-b.exponent).toNat
  | _ => false

theorem isPowerOfTen_powers :
    ∀ k : Fin 23, isPowerOfTen Float.exactlyRepresentablePowersOfTen[k.val] k.val = true := by
  decide +kernel

theorem unpack_of_decode {x : Float} {b : Decimal.Binary} (h : Decimal.decode x = .finite b)
    (hpositive : b.negative = false) (hm : 0 < b.mantissa) :
    unpack x = .finite .positive b.mantissa b.exponent hm := by
  rw [decode_eq] at h
  cases hx : unpack x with
  | notANumber | infinity s =>
    rw [hx] at h
    cases h
  | zero s =>
    rw [hx] at h
    cases h
    exact absurd hm (Nat.lt_irrefl 0)
  | finite s m e hm' =>
    rw [hx] at h
    cases h
    cases s with
    | positive => rfl
    | negative => cases hpositive

/-- The powers of ten up to the twenty-second are doubles. -/
theorem unpack_powers {k : Nat} (hk : k < Float.exactlyRepresentablePowersOfTen.size) :
    ∃ m e, ∃ hm : 0 < m, unpack Float.exactlyRepresentablePowersOfTen[k] =
      .finite .positive m e hm ∧ (m : ℚ) * 2 ^ e = 10 ^ k := by
  have hpower := isPowerOfTen_powers ⟨k, hk⟩
  simp only [isPowerOfTen] at hpower
  split at hpower
  · next b hb =>
    simp only [Bool.and_eq_true, Bool.not_eq_true', bne_iff_ne, beq_iff_eq] at hpower
    obtain ⟨⟨hpositive, hnonzero⟩, hvalue⟩ := hpower
    have hm := Nat.pos_of_ne_zero hnonzero
    refine ⟨b.mantissa, b.exponent, hm, unpack_of_decode hb hpositive hm, ?_⟩
    have hcast : (b.mantissa : ℚ) * 2 ^ b.exponent.toNat = 10 ^ k * 2 ^ (-b.exponent).toNat := by
      exact_mod_cast hvalue
    have hexp : (2 : ℚ) ^ b.exponent = 2 ^ b.exponent.toNat / 2 ^ (-b.exponent).toNat := by
      rw [← zpow_natCast, ← zpow_natCast, ← zpow_sub₀ two_ne_zero]
      congr 1
      omega
    rw [hexp, ← mul_div_assoc, hcast, mul_div_cancel_right₀ _ (by positivity)]
  · cases hpower

/-! ## Decimals -/

/-- A decimal that is nearest to a double has no more places than the least double needs. -/
theorem places_lt_of_nearest {b : Decimal.Binary} {digits k : Nat} {w : ℚ} (hm : 0 < b.mantissa)
    (hcanonical : b.Canonical) (hnear : b.Nearest w)
    (hw : (digits : ℚ) = w * 2 ^ b.exponent * 10 ^ k) : k < digits.log2 + 1076 := by
  have hleast : (1 : ℚ) ≤ w * 2 ^ b.exponent * 2 ^ 1075 := calc
    (1 : ℚ) = 2 ^ (-1075 : Int) * 2 ^ 1075 := by
      rw [← zpow_natCast, ← zpow_add₀ two_ne_zero]
      rfl
    _ ≤ w * 2 ^ b.exponent * 2 ^ 1075 :=
      mul_le_mul_of_nonneg_right (hnear.least_le hcanonical hm) (by positivity)
  have hlt : (2 : ℚ) ^ k < 2 ^ (digits.log2 + 1 + 1075) := calc
    (2 : ℚ) ^ k ≤ 10 ^ k := by
      gcongr
      norm_num
    _ ≤ 10 ^ k * (w * 2 ^ b.exponent * 2 ^ 1075) := le_mul_of_one_le_right (by positivity) hleast
    _ = digits * 2 ^ 1075 := by
      rw [hw, mul_left_comm, mul_assoc (w * 2 ^ b.exponent)]
    _ < 2 ^ (digits.log2 + 1) * 2 ^ 1075 := by
      gcongr
      exact_mod_cast Nat.lt_log2_self
    _ = 2 ^ (digits.log2 + 1 + 1075) := (pow_add _ _ _).symm
  have hexp := (pow_lt_pow_iff_right₀ (one_lt_two (α := ℚ))).mp hlt
  omega

/-- A decimal is read as the double that it is nearest to. -/
theorem ofScientific_nearest {x : Float} {b : Decimal.Binary} {digits k : Nat} {w : ℚ}
    (hx : Decimal.decode x = .finite b) (hpositive : b.negative = false) (hm : 0 < b.mantissa)
    (hcanonical : b.Canonical) (hnear : b.Nearest w) (hdigits : 0 < digits) (hk : 0 < k)
    (hw : (digits : ℚ) = w * 2 ^ b.exponent * 10 ^ k) :
    Float.ofScientific digits true k = x := by
  have hpack : pack (.finite .positive b.mantissa b.exponent hm) = x := by
    rw [← unpack_of_decode hx hpositive hm, pack_unpack]
  unfold Float.ofScientific
  split
  · next h =>
    have hbound : k < Float.exactlyRepresentablePowersOfTen.size := Nat.lt_succ_of_le h.2
    obtain ⟨m₁, e₁, h₁, hunpack₁, hvalue₁⟩ := unpack_toFloat hdigits h.1
    obtain ⟨m₂, e₂, h₂, hunpack₂, hvalue₂⟩ := unpack_powers hbound
    dsimp only
    rw [if_pos rfl]
    show pack (UnpackedFloat.div .binary64 (unpack digits.toUInt64.toFloat)
      (unpack Float.exactlyRepresentablePowersOfTen[k])) = x
    rw [hunpack₁, hunpack₂, div_nearest h₁ h₂ hcanonical hm hnear (by rw [hvalue₁, hvalue₂, hw]),
      hpack]
  · have hplaces := places_lt_of_nearest hm hcanonical hnear hw
    show pack (UnpackedFloat.ofScientific .binary64 digits (Int.negOfNat k)) = x
    have hnegative : Int.negOfNat k = -(k : Int) := Int.negOfNat_eq
    unfold UnpackedFloat.ofScientific
    rw [dif_neg hdigits.ne', if_neg, if_neg, if_neg]
    · have hexponent : (-Int.negOfNat k).toNat = k := by omega
      simp only [hexponent]
      have hvalue : (digits : ℚ) * 2 ^ (0 : Int) =
          w * 2 ^ b.exponent * ((10 ^ k : Nat) * 2 ^ (0 : Int)) := by
        rw [zpow_zero, mul_one, mul_one, hw, Nat.cast_pow, Nat.cast_ofNat]
      rw [div_nearest hdigits (Nat.pow_pos (by decide)) hcanonical hm hnear hvalue, hpack]
    · omega
    · show ¬ Int.negOfNat k < -((2 ^ 11 : Int) + digits.log2)
      omega
    · show ¬ Int.negOfNat k > 2 ^ 11
      omega

end DiceNotation.Double
