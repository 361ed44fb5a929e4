/-
  DiceNotation.Proofs.Number.Rounding

  Quotients of doubles are rounded to the nearest double.

  A mantissa with a round bit and a sticky bit stands for a number that is known up to
  half a place (`StandsFor`). Shifting keeps what it stands for, and rounding takes it to
  the nearest whole number, of two such to the even one. So a quotient that is
  nearest to a double (`Decimal.Binary.Nearest`) comes to that double
  (`Double.div_nearest`).
-/

import DiceNotation.Proofs.Number.Nonnegative

namespace DiceNotation

open Float.Model (Format UnpackedFloat totalExponent)
open Float.Model.UnpackedFloat (Accuracy ExtendedMantissa Sign accuracyOfFraction
  roundWithAccuracy shiftToExponent shiftToTargetExponent divCore)

/-- A whole number that a number is rounded to: none is nearer, and it is even if another one
    is as near. -/
structure RoundsTo (v : ℚ) (n : Nat) : Prop where
  near : |v - n| ≤ 1 / 2
  tie : |v - n| = 1 / 2 → n % 2 = 0

namespace Double

/-! ## Mantissas with further bits -/

/-- What is known of a number from a mantissa and its round bit. -/
def known (em : ExtendedMantissa) : ℚ := em.mantissa + em.roundBit.toNat / 2

/-- A mantissa with its further bits stands for a number. -/
structure StandsFor (em : ExtendedMantissa) (v : ℚ) : Prop where
  lower : known em ≤ v
  upper : v < known em + 1 / 2
  sticky : em.stickyBit = true ↔ v ≠ known em

section

variable {em : ExtendedMantissa} {v : ℚ}

theorem StandsFor.bounds (h : StandsFor em v) : (em.mantissa : ℚ) ≤ v ∧ v < em.mantissa + 1 := by
  obtain ⟨hlower, hupper, -⟩ := h
  rw [known] at hlower hupper
  have hle : (em.roundBit.toNat : ℚ) ≤ 1 := by exact_mod_cast Bool.toNat_le em.roundBit
  have hpos : (0 : ℚ) ≤ em.roundBit.toNat := Nat.cast_nonneg _
  constructor <;> linarith

/-- After a shift the last place of the mantissa is the round bit. -/
theorem known_shiftRightOne (em : ExtendedMantissa) :
    known em.shiftRightOne = em.mantissa / 2 := by
  have hbit : em.shiftRightOne.roundBit.toNat = em.mantissa % 2 := by
    rw [ExtendedMantissa.shiftRightOne]
    rcases Nat.mod_two_eq_zero_or_one em.mantissa with hmod | hmod <;> rw [hmod] <;> rfl
  have hm : (em.mantissa : ℚ) = 2 * (em.mantissa / 2 : Nat) + (em.mantissa % 2 : Nat) := by
    exact_mod_cast (Nat.div_add_mod em.mantissa 2).symm
  rw [known, hbit, hm, ExtendedMantissa.shiftRightOne]
  ring

/-- A number is its mantissa where neither further bit is set. -/
theorem StandsFor.eq_mantissa_iff (h : StandsFor em v) :
    v = em.mantissa ↔ (em.roundBit || em.stickyBit) = false := by
  obtain ⟨hlower, -, hsticky⟩ := h
  cases hround : em.roundBit with
  | false =>
    rw [known, hround, Bool.toNat_false, Nat.cast_zero, zero_div, add_zero] at hsticky
    rw [Bool.false_or, ← Bool.not_eq_true, hsticky, not_not]
  | true =>
    rw [known, hround, Bool.toNat_true, Nat.cast_one] at hlower
    refine ⟨fun heq => ?_, nofun⟩
    linarith

/-- A shift by one place halves the number. -/
theorem StandsFor.shiftRightOne (h : StandsFor em v) : StandsFor em.shiftRightOne (v / 2) where
  lower := by
    rw [known_shiftRightOne]
    linarith [h.bounds.1]
  upper := by
    rw [known_shiftRightOne]
    linarith [h.bounds.2]
  sticky := by
    have hhalf : v / 2 = em.mantissa / 2 ↔ v = em.mantissa := div_left_inj' two_ne_zero
    rw [known_shiftRightOne, ne_eq, hhalf, h.eq_mantissa_iff, Bool.not_eq_false]
    rfl

theorem StandsFor.shiftRight (h : StandsFor em v) (n : Nat) :
    StandsFor (em >>> n) (v / 2 ^ n) := by
  induction n with
  | zero =>
    rw [pow_zero, div_one]
    exact h
  | succ n ih =>
    rw [pow_succ, ← div_div]
    exact ih.shiftRightOne

/-- Rounding takes a number to the whole number nearest to it. -/
theorem StandsFor.roundedMantissa (h : StandsFor em v) {n : Nat} (hn : RoundsTo v n) :
    em.roundedMantissa = n := by
  obtain ⟨m, roundBit, stickyBit⟩ := em
  obtain ⟨hlower, hupper, hsticky⟩ := h
  obtain ⟨hnear, htie⟩ := hn
  obtain ⟨hbelow, habove⟩ := abs_le.mp hnear
  have heq : ∀ k : Nat, (n : ℚ) < k + 1 → (k : ℚ) < n + 1 → k = n := by
    intro k hle hge
    have hle : n < k + 1 := by exact_mod_cast hle
    have hge : k < n + 1 := by exact_mod_cast hge
    omega
  simp only [known] at hlower hupper hsticky
  cases roundBit with
  | false =>
    rw [Bool.toNat_false, Nat.cast_zero, zero_div, add_zero] at hlower hupper
    have hm : m = n := heq m (by linarith) (by linarith)
    cases stickyBit <;> exact hm
  | true =>
    rw [Bool.toNat_true, Nat.cast_one] at hlower hupper hsticky
    cases stickyBit with
    | true =>
      have hlt : (m : ℚ) + 1 / 2 < v := lt_of_le_of_ne hlower (hsticky.mp rfl).symm
      refine heq (m + 1) ?_ ?_ <;> push_cast <;> linarith
    | false =>
      -- half way between two whole numbers the even one is taken
      have hv : v = m + 1 / 2 := not_not.mp fun hne => Bool.false_ne_true (hsticky.mpr hne)
      show m + m % 2 = n
      have hm : m = n ∨ m + 1 = n := by
        have hlower : (m : ℚ) ≤ n := by linarith
        have hupper : (n : ℚ) ≤ m + 1 := by linarith
        have hlower : m ≤ n := by exact_mod_cast hlower
        have hupper : n ≤ m + 1 := by exact_mod_cast hupper
        omega
      have heven : n % 2 = 0 := by
        apply htie
        rw [hv]
        rcases hm with rfl | rfl <;> push_cast <;> norm_num
      omega

theorem standsFor_exact (m : Nat) : StandsFor (.ofMantissaAndAccuracy m .exact) m := by
  have hknown : known (.ofMantissaAndAccuracy m .exact) = m := by
    simp [known, ExtendedMantissa.ofMantissaAndAccuracy]
  refine ⟨hknown.le, by linarith, ?_⟩
  rw [hknown]
  exact ⟨nofun, fun h => absurd rfl h⟩

/-- The remainder of a division says what its quotient lacks. -/
theorem standsFor_div {n d : Nat} (hd : 0 < d) :
    StandsFor (.ofMantissaAndAccuracy (n / d) (accuracyOfFraction (n % d) d)) (n / d) := by
  have hpos : (0 : ℚ) < d := by exact_mod_cast hd
  have hn : (n : ℚ) / d = (n / d : Nat) + (n % d : Nat) / d := by
    rw [div_eq_iff hpos.ne', add_mul, div_mul_cancel₀ _ hpos.ne']
    exact_mod_cast (Nat.div_add_mod' n d).symm
  have hlt : ((n % d : Nat) : ℚ) / d < 1 := by
    rw [div_lt_one hpos]
    exact_mod_cast Nat.mod_lt n hd
  rw [hn]
  generalize n % d = r at hlt ⊢
  generalize n / d = q
  unfold accuracyOfFraction
  split
  · next hr =>
    rw [hr, Nat.cast_zero, zero_div, add_zero]
    exact standsFor_exact q
  · next hr =>
    have hfraction : (0 : ℚ) < r / d := div_pos (by exact_mod_cast Nat.pos_of_ne_zero hr) hpos
    cases hcompare : compare (2 * r) d with
    | lt =>
      have hless : 2 * r < d := compare_lt_iff_lt.mp hcompare
      have hhalf : (r : ℚ) / d < 1 / 2 := by
        rw [div_lt_div_iff₀ hpos two_pos]
        exact_mod_cast (show r * 2 < 1 * d by omega)
      have hknown : known (.ofMantissaAndAccuracy q (.inexact .lt)) = q := by
        simp [known, ExtendedMantissa.ofMantissaAndAccuracy]
      refine ⟨by linarith, by linarith, fun _ => ?_, fun _ => rfl⟩
      exact ne_of_gt (by linarith)
    | eq =>
      have hsame : 2 * r = d := compare_eq_iff_eq.mp hcompare
      have hhalf : (r : ℚ) / d = 1 / 2 := by
        rw [div_eq_div_iff hpos.ne' two_ne_zero]
        exact_mod_cast (show r * 2 = 1 * d by omega)
      have hknown : known (.ofMantissaAndAccuracy q (.inexact .eq)) = q + 1 / 2 := by
        simp [known, ExtendedMantissa.ofMantissaAndAccuracy]
      exact ⟨by linarith, by linarith, nofun, fun hne => absurd (by rw [hknown, hhalf]) hne⟩
    | gt =>
      have hmore : 2 * r > d := compare_gt_iff_gt.mp hcompare
      have hhalf : 1 / 2 < (r : ℚ) / d := by
        rw [div_lt_div_iff₀ two_pos hpos]
        exact_mod_cast (show 1 * d < r * 2 by omega)
      have hknown : known (.ofMantissaAndAccuracy q (.inexact .gt)) = q + 1 / 2 := by
        simp [known, ExtendedMantissa.ofMantissaAndAccuracy]
      refine ⟨by linarith, by linarith, fun _ => ?_, fun _ => rfl⟩
      exact ne_of_gt (by linarith)

end

/-! ## Rounding -/

theorem targetExponent_eq (places : Int) :
    Format.binary64.targetExponent places = max (places - 53) (-1074) := rfl

/-- The binary places of the whole part of a number. -/
theorem log2_of_bounds {q k : Nat} {v : ℚ} (hlower : (2 : ℚ) ^ k ≤ v)
    (hupper : v < (2 : ℚ) ^ (k + 1)) (hq : (q : ℚ) ≤ v) (hv : v < q + 1) : q.log2 = k := by
  have hle : 2 ^ k < q + 1 := by exact_mod_cast lt_of_le_of_lt hlower hv
  have hlt : q < 2 ^ (k + 1) := by exact_mod_cast lt_of_le_of_lt hq hupper
  have hpos : 0 < 2 ^ k := Nat.two_pow_pos k
  exact (Nat.log2_eq_iff (by omega)).mpr ⟨by omega, hlt⟩

/-- A mantissa that has no more places than a double is not shifted. -/
theorem shiftToTargetExponent_small {m : Nat} {e : Int} (hm : m < 2 ^ 53) (he : -1074 ≤ e) :
    shiftToTargetExponent .binary64 m e .exact = (⟨m, false, false⟩, e) := by
  have hlog : m.log2 < 53 := by
    by_cases hzero : m = 0
    · rw [hzero]
      decide
    · exact (Nat.log2_lt hzero).mpr hm
  have hshift : (Format.binary64.targetExponent (totalExponent m e) - e).toNat = 0 := by
    rw [targetExponent_eq, totalExponent]
    omega
  rw [shiftToTargetExponent, shiftToExponent, hshift]
  exact Prod.ext rfl (Int.add_zero e)

/-- A mantissa that rounding has made too large by one is shifted by one place. -/
theorem shiftToTargetExponent_carry {e : Int} (he : -1074 ≤ e) :
    shiftToTargetExponent .binary64 (2 ^ 53) e .exact = (⟨2 ^ 52, false, false⟩, e + 1) := by
  have hshift : (Format.binary64.targetExponent (totalExponent (2 ^ 53) e) - e).toNat = 1 := by
    rw [targetExponent_eq, totalExponent, Nat.log2_two_pow]
    omega
  rw [shiftToTargetExponent, shiftToExponent, hshift]
  rfl

section

variable {q k r : Nat} {e : Int} {w : ℚ} {accuracy : Accuracy}

/-- A number that has the places of a double with exponent `e + k` is shifted by `k` places. -/
theorem shift_eq (hq : (q : ℚ) ≤ w * 2 ^ k) (hw : w * 2 ^ k < q + 1) (hplaces : w < 2 ^ 53)
    (he : -1074 ≤ e + k) (hlow : 2 ^ 52 ≤ w ∨ e + k = -1074) :
    (Format.binary64.targetExponent (totalExponent q e) - e).toNat = k := by
  have hpos : (0 : ℚ) < 2 ^ k := by positivity
  have hupper : w * 2 ^ k < 2 ^ (52 + k + 1) := by
    rw [show 52 + k + 1 = 53 + k by omega, pow_add]
    exact mul_lt_mul_of_pos_right hplaces hpos
  have hlog : q.log2 ≤ 52 + k := by
    by_cases hzero : q = 0
    · rw [hzero]
      exact Nat.zero_le _
    · exact Nat.le_of_lt_succ ((Nat.log2_lt hzero).mpr (by exact_mod_cast lt_of_le_of_lt hq hupper))
  rw [targetExponent_eq, totalExponent]
  obtain hlow | hlow := hlow
  · have hlower : (2 : ℚ) ^ (52 + k) ≤ w * 2 ^ k := by
      rw [pow_add]
      exact mul_le_mul_of_nonneg_right hlow hpos.le
    rw [log2_of_bounds hlower hupper hq hw]
    omega
  · omega

/-- A number is rounded at the exponent that a double with its places has, and shifted once
    more if it becomes too large. -/
theorem roundWithAccuracy_eq
    (h : StandsFor (.ofMantissaAndAccuracy q accuracy) (w * 2 ^ k)) (hr : RoundsTo w r)
    (hplaces : w < 2 ^ 53) (he : -1074 ≤ e + k) (hlow : 2 ^ 52 ≤ w ∨ e + k = -1074) :
    roundWithAccuracy .binary64 .positive q e accuracy =
      if hzero : r = 0 then .zero .positive
      else if r < 2 ^ 53 then .finite .positive r (e + k) (Nat.pos_of_ne_zero hzero)
      else .finite .positive (2 ^ 52) (e + k + 1) (by decide) := by
  have hmantissa : (ExtendedMantissa.ofMantissaAndAccuracy q accuracy).mantissa = q := by
    rcases accuracy with _ | ⟨_ | _ | _⟩ <;> rfl
  have hbounds := h.bounds
  rw [hmantissa] at hbounds
  have hshift := shift_eq hbounds.1 hbounds.2 hplaces he hlow
  have hround : (ExtendedMantissa.ofMantissaAndAccuracy q accuracy >>> k).roundedMantissa = r := by
    have hstands := h.shiftRight k
    rw [mul_div_cancel_right₀ _ (by positivity)] at hstands
    exact hstands.roundedMantissa hr
  have hle : r ≤ 2 ^ 53 := by
    have hbelow := (abs_le.mp hr.near).1
    have hlt : (r : ℚ) < 2 ^ 53 + 1 := by linarith
    exact Nat.le_of_lt_succ (by exact_mod_cast hlt)
  have hfirst : shiftToTargetExponent .binary64 q e accuracy =
      (ExtendedMantissa.ofMantissaAndAccuracy q accuracy >>> k, e + k) := by
    rw [shiftToTargetExponent, shiftToExponent, hshift]
  by_cases hsmall : r < 2 ^ 53
  · simp only [roundWithAccuracy, hfirst, hround, shiftToTargetExponent_small hsmall he, hsmall,
      if_true]
  · obtain rfl : r = 2 ^ 53 := by omega
    simp only [roundWithAccuracy, hfirst, hround, shiftToTargetExponent_carry he]
    rfl

end

end Double

/-! ## Numbers next to a double -/

namespace Decimal.Binary

/-- The mantissa and the exponent of a finite double. -/
structure Canonical (b : Binary) : Prop where
  mantissa_lt : b.mantissa < 2 ^ 53
  exponent_ge : -1074 ≤ b.exponent
  exponent_le : b.exponent ≤ 971
  normal : 2 ^ 52 ≤ b.mantissa ∨ b.exponent = -1074

/-- A number, given in last binary places, that is rounded to the magnitude of a double. At a
    power of two the places below are half as wide. -/
structure Nearest (b : Binary) (w : ℚ) : Prop extends RoundsTo w b.mantissa where
  narrow : b.narrowBelow = true → (b.mantissa : ℚ) - 1 / 4 ≤ w

section

variable {b : Binary} {w : ℚ}

theorem Nearest.lt (h : b.Nearest w) (hcanonical : b.Canonical) : w < 2 ^ 53 := by
  have hle := (abs_le.mp h.near).2
  have hlt : (b.mantissa : ℚ) + 1 ≤ 2 ^ 53 := by exact_mod_cast hcanonical.mantissa_lt
  linarith

theorem Nearest.half_le (h : b.Nearest w) (hm : 0 < b.mantissa) : 1 / 2 ≤ w := by
  have hbelow := (abs_le.mp h.near).1
  have hone : (1 : ℚ) ≤ b.mantissa := by exact_mod_cast hm
  linarith

/-- A number that is rounded to a double is no less than half the least one. -/
theorem Nearest.least_le (h : b.Nearest w) (hcanonical : b.Canonical) (hm : 0 < b.mantissa) :
    (2 : ℚ) ^ (-1075 : Int) ≤ w * 2 ^ b.exponent := calc
  (2 : ℚ) ^ (-1075 : Int) = 1 / 2 * 2 ^ (-1074 : Int) := by
    rw [one_div, ← zpow_neg_one, ← zpow_add₀ two_ne_zero]
    rfl
  _ ≤ w * 2 ^ b.exponent :=
    mul_le_mul (h.half_le hm) (zpow_le_zpow_right₀ one_le_two hcanonical.exponent_ge)
      (by positivity) (le_trans (by norm_num) (h.half_le hm))

/-- Below the least mantissa a number is rounded to a power of two. -/
theorem Nearest.narrow_of_lt (h : b.Nearest w) (hcanonical : b.Canonical) (hw : w < 2 ^ 52)
    (hexponent : b.exponent ≠ -1074) :
    b.mantissa = 2 ^ 52 ∧ (2 : ℚ) ^ 52 - 1 / 4 ≤ w := by
  have hnormal := hcanonical.normal.resolve_right hexponent
  have hle := (abs_le.mp h.near).1
  have hlt : (b.mantissa : ℚ) < 2 ^ 52 + 1 := by linarith
  have hmantissa : b.mantissa = 2 ^ 52 :=
    Nat.le_antisymm (Nat.le_of_lt_succ (by exact_mod_cast hlt)) hnormal
  have hnarrow : b.narrowBelow = true := by
    have hge := hcanonical.exponent_ge
    rw [narrowBelow, hmantissa, Bool.and_eq_true, decide_eq_true_iff]
    exact ⟨rfl, by omega⟩
  have hbelow := h.narrow hnarrow
  rw [hmantissa] at hbelow
  exact ⟨hmantissa, by exact_mod_cast hbelow⟩

end

end Decimal.Binary

namespace Double

/-! ## Quotients -/

section

variable {b : Decimal.Binary} {w : ℚ}

/-- A number is rounded to the double that it is nearest to. -/
theorem roundWithAccuracy_nearest {q k : Nat} {e : Int} {accuracy : Accuracy}
    (hcanonical : b.Canonical) (hpos : 0 < b.mantissa) (hnear : b.Nearest w)
    (h : StandsFor (.ofMantissaAndAccuracy q accuracy) (w * 2 ^ k)) (he : e + k = b.exponent)
    (hk : w < 2 ^ 52 → b.exponent ≠ -1074 → 0 < k) :
    roundWithAccuracy .binary64 .positive q e accuracy =
      .finite .positive b.mantissa b.exponent hpos := by
  have hge := hcanonical.exponent_ge
  by_cases hlow : 2 ^ 52 ≤ w ∨ b.exponent = -1074
  · rw [roundWithAccuracy_eq h hnear.toRoundsTo (hnear.lt hcanonical) (by omega)
      (hlow.imp_right fun hexponent => by omega), dif_neg hpos.ne', if_pos hcanonical.mantissa_lt]
    simp only [he]
  · -- the places are half as wide, and rounding carries
    obtain ⟨hw, hexponent⟩ := not_or.mp hlow
    have hw := not_le.mp hw
    obtain ⟨hmantissa, hbelow⟩ := hnear.narrow_of_lt hcanonical hw hexponent
    obtain ⟨k, rfl⟩ := Nat.exists_eq_add_of_lt (hk hw hexponent)
    have hround : RoundsTo (2 * w) (2 ^ 53) := by
      have habs : |2 * w - (2 ^ 53 : Nat)| ≤ 1 / 2 := by
        rw [abs_le]
        push_cast
        constructor <;> linarith
      exact ⟨habs, fun _ => by decide⟩
    have hstands : StandsFor (.ofMantissaAndAccuracy q accuracy) (2 * w * 2 ^ k) := by
      have heq : 2 * w * 2 ^ k = w * 2 ^ (0 + k + 1) := by
        rw [Nat.zero_add, pow_succ]
        ring
      rwa [heq]
    rw [roundWithAccuracy_eq hstands hround (by linarith) (by omega) (.inl (by linarith)),
      dif_neg (by decide), if_neg (by decide)]
    have hexp : e + k + 1 = b.exponent := by omega
    simp only [hmantissa, hexp]

/-- A mantissa has the places that the logarithm to base two gives. -/
theorem places_bounds {m : Nat} (hm : 0 < m) (e : Int) :
    (2 : ℚ) ^ (totalExponent m e - 1) ≤ m * 2 ^ e ∧ (m : ℚ) * 2 ^ e < 2 ^ totalExponent m e := by
  have hpos : (0 : ℚ) < 2 ^ e := by positivity
  have hlower : (2 : ℚ) ^ m.log2 ≤ m := by exact_mod_cast Nat.log2_self_le hm.ne'
  have hupper : (m : ℚ) < 2 ^ (m.log2 + 1) := by exact_mod_cast Nat.lt_log2_self
  constructor
  · have hexp : totalExponent m e - 1 = m.log2 + e := by rw [totalExponent]; omega
    rw [hexp, zpow_add₀ two_ne_zero, zpow_natCast]
    exact mul_le_mul_of_nonneg_right hlower hpos.le
  · have hexp : totalExponent m e = (m.log2 + 1 : Nat) + e := by rw [totalExponent]; omega
    rw [hexp, zpow_add₀ two_ne_zero, zpow_natCast]
    exact mul_lt_mul_of_pos_right hupper hpos

/-- A quotient has as many places as its operands let it have, or one less. -/
theorem places_div_le {m₁ m₂ p : Nat} {e₁ e₂ e : Int} (h₁ : 0 < m₁) (h₂ : 0 < m₂)
    (hw : (m₁ : ℚ) * 2 ^ e₁ = w * 2 ^ e * (m₂ * 2 ^ e₂)) (hp : w < 2 ^ p) :
    totalExponent m₁ e₁ - totalExponent m₂ e₂ ≤ p + e := by
  have hpos : (0 : ℚ) < 2 ^ e * (m₂ * 2 ^ e₂) := by positivity
  have hlt : (2 : ℚ) ^ (totalExponent m₁ e₁ - 1) < 2 ^ (p + e + totalExponent m₂ e₂) := calc
    (2 : ℚ) ^ (totalExponent m₁ e₁ - 1) ≤ w * (2 ^ e * (m₂ * 2 ^ e₂)) := by
      rw [← mul_assoc, ← hw]
      exact (places_bounds h₁ e₁).1
    _ < 2 ^ p * (2 ^ e * (m₂ * 2 ^ e₂)) := mul_lt_mul_of_pos_right hp hpos
    _ ≤ 2 ^ p * (2 ^ e * 2 ^ totalExponent m₂ e₂) := by
      gcongr
      exact (places_bounds h₂ e₂).2.le
    _ = 2 ^ (p + e + totalExponent m₂ e₂) := by
      rw [zpow_add₀ two_ne_zero, zpow_add₀ two_ne_zero, zpow_natCast, mul_assoc]
  have hexp := (zpow_lt_zpow_iff_right₀ one_lt_two).mp hlt
  omega

/-- A quotient is the double that it is nearest to. -/
theorem div_nearest {m₁ m₂ : Nat} {e₁ e₂ : Int} (h₁ : 0 < m₁) (h₂ : 0 < m₂)
    (hcanonical : b.Canonical) (hpos : 0 < b.mantissa) (hnear : b.Nearest w)
    (hw : (m₁ : ℚ) * 2 ^ e₁ = w * 2 ^ b.exponent * (m₂ * 2 ^ e₂)) :
    UnpackedFloat.div .binary64 (.finite .positive m₁ e₁ h₁) (.finite .positive m₂ e₂ h₂) =
      .finite .positive b.mantissa b.exponent hpos := by
  have hge := hcanonical.exponent_ge
  have hplaces := places_div_le h₁ h₂ hw (hnear.lt hcanonical)
  have hnarrow : w < 2 ^ 52 → totalExponent m₁ e₁ - totalExponent m₂ e₂ ≤ (52 : Nat) + b.exponent :=
    places_div_le h₁ h₂ hw
  -- the quotient is taken with places enough
  obtain ⟨e, he⟩ : ∃ e, e = min (e₁ - e₂) (Format.binary64.targetExponent
    (totalExponent m₁ e₁ - totalExponent m₂ e₂)) := ⟨_, rfl⟩
  rw [targetExponent_eq] at he
  obtain ⟨k, hk⟩ : ∃ k : Nat, e + k = b.exponent :=
    ⟨(b.exponent - e).toNat, by omega⟩
  obtain ⟨shift, hshift⟩ : ∃ shift : Nat, e + shift = e₁ - e₂ :=
    ⟨(e₁ - e₂ - e).toNat, by omega⟩
  have hquotient : ((m₁ <<< shift : Nat) : ℚ) / m₂ = w * 2 ^ k := by
    have hscale : (2 : ℚ) ^ e * 2 ^ e₂ ≠ 0 := by positivity
    have hfirst : (2 : ℚ) ^ e₁ = 2 ^ shift * (2 ^ e * 2 ^ e₂) := by
      rw [show e₁ = e + shift + e₂ by omega, zpow_add₀ two_ne_zero, zpow_add₀ two_ne_zero,
        zpow_natCast]
      ring
    have hexp : (2 : ℚ) ^ b.exponent = 2 ^ k * 2 ^ e := by
      rw [← hk, zpow_add₀ two_ne_zero, zpow_natCast, mul_comm]
    rw [div_eq_iff (by exact_mod_cast h₂.ne'), Nat.shiftLeft_eq]
    push_cast
    rw [hfirst, hexp] at hw
    apply mul_right_cancel₀ hscale
    linear_combination hw
  have hstands := @standsFor_div (m₁ <<< shift) m₂ h₂
  rw [hquotient] at hstands
  have hcore : divCore .binary64 m₁ e₁ m₂ e₂ =
      ((m₁ <<< shift) / m₂, e, accuracyOfFraction ((m₁ <<< shift) % m₂) m₂) := by
    have hamount : (e₁ - e₂ - e).toNat = shift := by omega
    rw [divCore, targetExponent_eq, ← he, hamount]
  have hshifted : w < 2 ^ 52 → b.exponent ≠ -1074 → 0 < k := by
    intro hlow hexponent
    have hfewer := hnarrow hlow
    omega
  have hround := roundWithAccuracy_nearest hcanonical hpos hnear hstands hk hshifted
  rw [← hround, UnpackedFloat.div, hcore]
  rfl

end

end Double

end DiceNotation
