/-
  DiceNotation.Proofs.Number.Shortest

  The shortest digits of a double are nearest to it.

  The whole numbers that are compared on a grid of decimals are quarters of the last
  binary place (`point_eq`). So what rounds to a double there is nearest to it
  (`nearest_of_roundsTo`), and where no grid has such a decimal, the last one is fine
  enough (`nearest_floor`). Which decimals are tried first does not matter
  (`nearest_shortest`).
-/

import DiceNotation.Decimal.Layout
import DiceNotation.Proofs.Number.Scientific

namespace DiceNotation.Decimal

/-- The number that decimal digits with an exponent stand for. -/
def Scientific.value (s : Scientific) : ℚ := s.digits * 10 ^ s.exponent

/-- A power is the quotient of two powers with natural exponents, one of which is zero. -/
theorem zpow_toNat {a : ℚ} (ha : a ≠ 0) (n : Int) : a ^ n.toNat = a ^ n * a ^ (-n).toNat := by
  rw [← zpow_natCast, ← zpow_natCast, ← zpow_add₀ ha]
  congr 1
  omega

/-! ## Grids -/

section

variable {b : Binary} {c : Nat} {p : Int} {tie : Tie} {s : Scientific}

theorem canonical_of_decode {x : Float} (h : decode x = .finite b) : b.Canonical := by
  simp only [decode, beq_iff_eq] at h
  have hbiased : x.toBits.toNat / Nat.pow 2 52 % Nat.pow 2 11 < 2 ^ 11 := Nat.mod_lt _ (by decide)
  have hfraction : x.toBits.toNat % Nat.pow 2 52 < 2 ^ 52 := Nat.mod_lt _ (by decide)
  have hones : Nat.pow 2 11 - 1 = 2047 := rfl
  have himplicit : Nat.pow 2 52 = 2 ^ 52 := rfl
  generalize x.toBits.toNat / Nat.pow 2 52 % Nat.pow 2 11 = biased at h hbiased
  generalize x.toBits.toNat % Nat.pow 2 52 = fraction at h hfraction
  rw [hones, himplicit] at h
  split at h
  · split at h <;> cases h
  · split at h
    · cases h
      constructor <;> dsimp only <;> omega
    · cases h
      constructor <;> dsimp only [Int.ofNat_eq_natCast] <;> omega

theorem quarter_pos (b : Binary) (p : Int) : (0 : ℚ) < (scaleOf b p).quarter := by
  have hpos : 0 < (scaleOf b p).quarter :=
    Nat.mul_pos (Nat.two_pow_pos _) (Nat.pow_pos (by decide))
  exact_mod_cast hpos

/-- A grid step in quarters of the last binary place. -/
theorem step_eq (b : Binary) (p : Int) :
    ((scaleOf b p).step : ℚ) = 4 * (10 ^ p / 2 ^ b.exponent) * (scaleOf b p).quarter := by
  have htwo : (2 : ℚ) ^ (2 - b.exponent).toNat * 2 ^ b.exponent =
      4 * 2 ^ (b.exponent - 2).toNat := by
    have hfour : (4 : ℚ) = 2 ^ (2 : Int) := by norm_num
    rw [hfour, ← zpow_natCast, ← zpow_natCast, ← zpow_add₀ two_ne_zero, ← zpow_add₀ two_ne_zero]
    congr 1
    omega
  have hten : (10 : ℚ) ^ p.toNat = 10 ^ p * 10 ^ (-p).toNat := zpow_toNat (by norm_num) p
  have hpos : (2 : ℚ) ^ b.exponent ≠ 0 := by positivity
  simp only [scaleOf, Nat.pow_eq]
  push_cast
  rw [hten]
  field_simp
  exact htwo

/-- A decimal of a grid in last binary places. -/
def places (b : Binary) (s : Scientific) : ℚ := s.value / 2 ^ b.exponent

theorem point_eq (b : Binary) (c : Nat) (p : Int) :
    ((c * (scaleOf b p).step : Nat) : ℚ) = 4 * places b ⟨c, p⟩ * (scaleOf b p).quarter := by
  rw [Nat.cast_mul, step_eq, places, Scientific.value]
  ring

theorem le_point_iff {n : Nat} :
    n * (scaleOf b p).quarter ≤ c * (scaleOf b p).step ↔ (n : ℚ) ≤ 4 * places b ⟨c, p⟩ := by
  rw [← Nat.cast_le (α := ℚ), point_eq, Nat.cast_mul, mul_le_mul_iff_left₀ (quarter_pos b p)]

theorem point_le_iff {n : Nat} :
    c * (scaleOf b p).step ≤ n * (scaleOf b p).quarter ↔ 4 * places b ⟨c, p⟩ ≤ n := by
  rw [← Nat.cast_le (α := ℚ), point_eq, Nat.cast_mul, mul_le_mul_iff_left₀ (quarter_pos b p)]

/-- What rounds to a double on a grid is nearest to it. -/
theorem nearest_of_roundsTo (hm : 0 < b.mantissa) (h : roundsTo b (scaleOf b p) c = true) :
    b.Nearest (places b ⟨c, p⟩) := by
  have hlow : ((4 * b.mantissa - (if b.narrowBelow then 1 else 2) : Nat) : ℚ) =
      4 * b.mantissa - if b.narrowBelow then 1 else 2 := by
    split <;> push_cast [show 1 ≤ 4 * b.mantissa by omega, show 2 ≤ 4 * b.mantissa by omega] <;> rfl
  have hle : (1 : ℚ) ≤ (if b.narrowBelow then 1 else 2) ∧
      (if b.narrowBelow then 1 else 2) ≤ (2 : ℚ) := by
    split <;> norm_num
  have habs : ∀ w : ℚ, |w - b.mantissa| = 1 / 2 →
      w = b.mantissa + 1 / 2 ∨ w = b.mantissa - 1 / 2 := by
    intro w hw
    rcases abs_eq (by norm_num) |>.mp hw with h | h
    · exact .inl (by linarith)
    · exact .inr (by linarith)
  simp only [roundsTo, beq_iff_eq] at h
  split at h
  · next heven =>
    simp only [Bool.and_eq_true, decide_eq_true_iff, le_point_iff, point_le_iff, hlow] at h
    push_cast at h
    refine ⟨⟨abs_le.mpr ⟨by linarith, by linarith⟩, fun _ => heven⟩, fun hnarrow => ?_⟩
    rw [if_pos hnarrow] at h
    linarith
  · simp only [Bool.and_eq_true, decide_eq_true_iff, ← not_le, le_point_iff, point_le_iff, hlow]
      at h
    push_cast at h
    rw [not_le, not_le] at h
    refine ⟨⟨abs_le.mpr ⟨by linarith, by linarith⟩, fun htie => ?_⟩, fun hnarrow => ?_⟩
    · rcases habs _ htie with heq | heq <;> linarith
    · rw [if_pos hnarrow] at h
      linarith

/-- A decimal that is found on a grid is one of the grid and rounds to the double. -/
theorem roundsTo_of_onGrid? (h : onGrid? tie b p = some s) :
    s.exponent = p ∧ roundsTo b (scaleOf b p) s.digits = true := by
  simp only [onGrid?] at h
  generalize 4 * b.mantissa * (scaleOf b p).quarter / (scaleOf b p).step = below at h
  split at h
  · next hboth =>
    simp only [Bool.and_eq_true] at hboth
    obtain ⟨⟨-, hbelow⟩, habove⟩ := hboth
    split at h
    · cases h
      exact ⟨rfl, hbelow⟩
    · split at h
      · cases h
        exact ⟨rfl, habove⟩
      · split at h <;> cases h
        · exact ⟨rfl, habove⟩
        · dsimp only
          split
          · exact ⟨rfl, hbelow⟩
          · exact ⟨rfl, habove⟩
  · split at h
    · next hlow =>
      cases h
      exact ⟨rfl, (Bool.and_eq_true_iff.mp hlow).2⟩
    · split at h
      · next habove =>
        cases h
        exact ⟨rfl, habove⟩
      · cases h

/-! ## The search -/

/-- The greatest number of a fine grid that is at most a double is near enough to it. -/
theorem nearest_floor (hcanonical : b.Canonical) {top : Int}
    (htop : (10 : ℚ) ^ top ≤ b.mantissa * 2 ^ b.exponent) :
    b.Nearest (places b ⟨4 * b.mantissa * (scaleOf b (top - 18)).quarter /
      (scaleOf b (top - 18)).step, top - 18⟩) := by
  have hstep : 0 < (scaleOf b (top - 18)).step :=
    Nat.mul_pos (Nat.two_pow_pos _) (Nat.pow_pos (by decide))
  have hbelow := Nat.div_mul_le_self (4 * b.mantissa * (scaleOf b (top - 18)).quarter)
    (scaleOf b (top - 18)).step
  have habove := (Nat.lt_mul_div_succ (4 * b.mantissa * (scaleOf b (top - 18)).quarter) hstep).le
  rw [Nat.mul_comm _ (_ + 1)] at habove
  generalize 4 * b.mantissa * (scaleOf b (top - 18)).quarter / (scaleOf b (top - 18)).step = c
    at hbelow habove ⊢
  rw [point_le_iff] at hbelow
  rw [le_point_iff] at habove
  have hgap : (10 : ℚ) ^ (top - 18) / 2 ^ b.exponent < 1 / 4 := by
    have hlt : (b.mantissa : ℚ) < 2 ^ 53 := by exact_mod_cast hcanonical.mantissa_lt
    have hpos : (0 : ℚ) < 2 ^ b.exponent := by positivity
    have hten : (10 : ℚ) ^ (top - 18) = 10 ^ top / 10 ^ 18 := by
      rw [zpow_sub₀ (by norm_num)]
      norm_num
    rw [div_lt_iff₀ hpos, hten, div_lt_iff₀ (by positivity)]
    nlinarith
  have hnext : places b ⟨c + 1, top - 18⟩ =
      places b ⟨c, top - 18⟩ + 10 ^ (top - 18) / 2 ^ b.exponent := by
    simp only [places, Scientific.value]
    push_cast
    ring
  rw [hnext] at habove
  push_cast at hbelow habove
  have habs : |places b ⟨c, top - 18⟩ - b.mantissa| < 1 / 4 := abs_lt.mpr ⟨by linarith, by linarith⟩
  exact ⟨⟨by linarith, fun htie => by linarith⟩, fun _ => by linarith⟩

theorem nearest_searchGrids (hcanonical : b.Canonical) (hm : 0 < b.mantissa) {top : Int}
    (htop : (10 : ℚ) ^ top ≤ b.mantissa * 2 ^ b.exponent) {fuel digits : Nat}
    (h : digits + fuel = 18) : b.Nearest (places b (searchGrids tie b top fuel digits)) := by
  induction fuel generalizing digits with
  | zero =>
    obtain rfl : digits = 18 := h
    exact nearest_floor hcanonical htop
  | succ fuel ih =>
    unfold searchGrids
    split
    · next s hs =>
      obtain ⟨hp, hrounds⟩ := roundsTo_of_onGrid? hs
      have hnear := nearest_of_roundsTo hm hrounds
      rwa [← hp] at hnear
    · exact ih (by omega)

theorem value_stripZeros (fuel : Nat) (s : Scientific) : (stripZeros fuel s).value = s.value := by
  induction fuel generalizing s with
  | zero => rfl
  | succ fuel ih =>
    unfold stripZeros
    split
    · next h =>
      rw [ih]
      have hdvd : 10 ∣ s.digits := by
        simp only [Bool.and_eq_true, beq_iff_eq] at h
        exact Nat.dvd_of_mod_eq_zero h.2
      obtain ⟨d, hd⟩ := hdvd
      simp only [Scientific.value, hd]
      rw [Nat.mul_div_cancel_left _ (by decide), zpow_add_one₀ (by norm_num)]
      push_cast
      ring
    · rfl

/-! ## The first digit -/

theorem le_of_reachesPower {e : Int} (h : reachesPower b e = true) :
    (10 : ℚ) ^ e ≤ b.mantissa * 2 ^ b.exponent := by
  have h : Nat.pow 2 (-b.exponent).toNat * Nat.pow 10 e.toNat ≤
      b.mantissa * Nat.pow 2 b.exponent.toNat * Nat.pow 10 (-e).toNat := of_decide_eq_true h
  have htwo : (2 : ℚ) ^ b.exponent.toNat = 2 ^ b.exponent * 2 ^ (-b.exponent).toNat :=
    zpow_toNat two_ne_zero _
  have hten : (10 : ℚ) ^ e.toNat = 10 ^ e * 10 ^ (-e).toNat := zpow_toNat (by norm_num) _
  have hscale : (0 : ℚ) < 2 ^ (-b.exponent).toNat * 10 ^ (-e).toNat := by positivity
  rw [← Nat.cast_le (α := ℚ)] at h
  simp only [Nat.pow_eq] at h
  push_cast at h
  rw [htwo, hten] at h
  refine le_of_mul_le_mul_right ?_ hscale
  linarith

/-- The logarithm to base ten is estimated within one from that to base two, by the powers
    `10^59 ≤ 2^196` and `2^93 ≤ 10^28`. -/
theorem ten_zpow_le {x g : Int} (hg : 100000 * g ≤ 30103 * x) (hmin : -1074 ≤ x) (hmax : x < 1024) :
    (10 : ℚ) ^ (g - 1) ≤ 2 ^ x := by
  obtain hone | hone := le_or_gt 1 g
  · obtain ⟨n, hn⟩ := Int.eq_ofNat_of_zero_le (show 0 ≤ g - 1 by omega)
    obtain ⟨y, hy⟩ := Int.eq_ofNat_of_zero_le (show 0 ≤ x by omega)
    have hpow : ((10 : ℚ) ^ n) ^ 59 ≤ (2 ^ y) ^ 59 := calc
      ((10 : ℚ) ^ n) ^ 59 = (10 ^ 59) ^ n := by rw [← pow_mul, ← pow_mul, mul_comm]
      _ ≤ (2 ^ 196) ^ n := by
        gcongr
        norm_num
      _ = 2 ^ (196 * n) := (pow_mul _ _ _).symm
      _ ≤ 2 ^ (y * 59) := pow_le_pow_right₀ one_le_two (by omega)
      _ = (2 ^ y) ^ 59 := pow_mul _ _ _
    rw [hn, hy, zpow_natCast, zpow_natCast]
    exact le_of_pow_le_pow_left₀ (by decide) (by positivity) hpow
  · obtain hx | hx := le_or_gt 0 x
    · exact (zpow_le_one_of_nonpos₀ (by norm_num) (by omega)).trans (one_le_zpow₀ one_le_two hx)
    · obtain ⟨n, hn⟩ := Int.eq_ofNat_of_zero_le (show 0 ≤ -(g - 1) by omega)
      obtain ⟨y, hy⟩ := Int.eq_ofNat_of_zero_le (show 0 ≤ -x by omega)
      have hpow : ((2 : ℚ) ^ y) ^ 28 ≤ (10 ^ n) ^ 28 := calc
        ((2 : ℚ) ^ y) ^ 28 = 2 ^ (y * 28) := (pow_mul _ _ _).symm
        _ ≤ 2 ^ (93 * n) := pow_le_pow_right₀ one_le_two (by omega)
        _ = (2 ^ 93) ^ n := pow_mul _ _ _
        _ ≤ (10 ^ 28) ^ n := by
          gcongr
          norm_num
        _ = (10 ^ n) ^ 28 := by rw [← pow_mul, ← pow_mul, mul_comm]
      rw [show g - 1 = -(n : Int) by omega, show x = -(y : Int) by omega, zpow_neg, zpow_neg,
        zpow_natCast, zpow_natCast]
      exact inv_anti₀ (by positivity) (le_of_pow_le_pow_left₀ (by decide) (by positivity) hpow)

theorem power_le_decimalExponent (hcanonical : b.Canonical) (hm : 0 < b.mantissa) :
    (10 : ℚ) ^ decimalExponent b ≤ b.mantissa * 2 ^ b.exponent := by
  simp only [decimalExponent]
  split
  · next h => exact le_of_reachesPower h
  · split
    · next h => exact le_of_reachesPower h
    · have hlog : b.mantissa.log2 < 53 := (Nat.log2_lt hm.ne').mpr hcanonical.mantissa_lt
      have hmin := hcanonical.exponent_ge
      have hmax := hcanonical.exponent_le
      have hself : (2 : ℚ) ^ b.mantissa.log2 ≤ b.mantissa := by
        exact_mod_cast Nat.log2_self_le hm.ne'
      calc (10 : ℚ) ^ (((b.mantissa.log2 : Int) + b.exponent) * 30103 / 100000 - 1)
        _ ≤ 2 ^ ((b.mantissa.log2 : Int) + b.exponent) :=
          ten_zpow_le (by omega) (by omega) (by omega)
        _ = 2 ^ b.mantissa.log2 * 2 ^ b.exponent := by
          rw [zpow_add₀ two_ne_zero, zpow_natCast]
        _ ≤ b.mantissa * 2 ^ b.exponent := by gcongr

/-- The shortest digits of a double are nearest to it. -/
theorem nearest_shortest (hcanonical : b.Canonical) (hm : 0 < b.mantissa) (tie : Tie) :
    b.Nearest (places b (shortest tie b)) := by
  have hnear := @nearest_searchGrids b tie hcanonical hm _
    (power_le_decimalExponent hcanonical hm) 17 1 rfl
  rw [shortest, if_neg (by simpa using hm.ne'), places, value_stripZeros]
  exact hnear

end

end DiceNotation.Decimal
