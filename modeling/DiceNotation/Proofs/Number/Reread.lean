/-
  DiceNotation.Proofs.Number.Reread

  Numbers that are written and read again.

  A double with a fraction is written with digits around a point, and the double
  nearest to them is the one that was written (`Decimal.exists_renderChars`). So the
  number of every literal can be written as a literal again, as long as its whole part
  has 64 bits (`Formula.isLegible_of_literal`). A double beyond is written without a
  point, as a whole number that is too large to be read.
-/

import DiceNotation.Proofs.Formula.Position
import DiceNotation.Proofs.Number.Opposite
import DiceNotation.Proofs.Number.Shortest
import DiceNotation.Proofs.Number.Written

namespace DiceNotation.Decimal

open Text

section

variable {x : Float} {b : Binary} {s : Scientific}

theorem exponent_neg_of_fraction (hfraction : b.isWhole = false) : b.exponent < 0 := by
  by_contra hge
  have hzero : (-b.exponent).toNat = 0 := by omega
  rw [Binary.isWhole, hzero] at hfraction
  simp [Nat.mod_one] at hfraction

/-- The digits of a double with a fraction have one, too. -/
theorem exponent_neg_of_nearest (h : b.Nearest (places b s)) (hfraction : b.isWhole = false) :
    s.exponent < 0 := by
  by_contra hge
  have hneg := exponent_neg_of_fraction hfraction
  obtain ⟨k, hk⟩ := Int.eq_ofNat_of_zero_le (show 0 ≤ -b.exponent by omega)
  obtain ⟨n, hn⟩ := Int.eq_ofNat_of_zero_le (show 0 ≤ s.exponent by omega)
  have hplaces : places b s = (s.digits * 10 ^ n * 2 ^ k : Nat) := by
    rw [places, Scientific.value, hn, show b.exponent = -(k : Int) by omega, zpow_neg, zpow_natCast,
      zpow_natCast, div_inv_eq_mul]
    push_cast
    rfl
  -- two whole numbers are not apart by a half
  have heq : s.digits * 10 ^ n * 2 ^ k = b.mantissa := by
    have hnear := abs_le.mp h.near
    rw [hplaces] at hnear
    generalize s.digits * 10 ^ n * 2 ^ k = m at hnear
    have hlt : (m : ℚ) < b.mantissa + 1 := by linarith
    have hgt : (b.mantissa : ℚ) < m + 1 := by linarith
    have hlt : m < b.mantissa + 1 := by exact_mod_cast hlt
    have hgt : b.mantissa < m + 1 := by exact_mod_cast hgt
    omega
  rw [Binary.isWhole, hk, ← heq, Int.toNat_natCast, Nat.pow_eq, Nat.mul_mod_left] at hfraction
  cases hfraction

/-- The decimal places of a whole number. -/
theorem natChars_bounds {n : Nat} (hn : 0 < n) :
    10 ^ ((natChars n).length - 1) ≤ n ∧ n < 10 ^ (natChars n).length := by
  have hpos : 0 < (natChars n).length := Nat.length_toDigits_pos
  refine ⟨?_, (Nat.length_toDigits_le_iff (by decide) hpos).mp (Nat.le_refl _)⟩
  obtain hone | hmore := Nat.eq_zero_or_pos ((natChars n).length - 1)
  · rw [hone]
    exact hn
  · have hfewer := mt (Nat.length_toDigits_le_iff (n := n) (b := 10) (by decide) hmore).mpr
    have hlonger : ¬ (natChars n).length ≤ (natChars n).length - 1 := by omega
    exact Nat.not_lt.mp (hfewer hlonger)

theorem value_eq (b : Binary) (s : Scientific) : s.value = places b s * 2 ^ b.exponent := by
  rw [places, div_mul_cancel₀ _ (by positivity)]

/-- No double is below the places that are read. -/
theorem le_leading (hcanonical : b.Canonical) (hm : 0 < b.mantissa) (h : b.Nearest (places b s))
    (hdigits : 0 < s.digits) : -400 ≤ (natChars s.digits).length + s.exponent := by
  obtain ⟨-, hupper⟩ := natChars_bounds hdigits
  have hleast : (10 : ℚ) ^ (-325 : Int) ≤ 2 ^ (-1075 : Int) := by
    have hpow : (2 : ℚ) ^ 1075 ≤ 10 ^ 325 := calc
      (2 : ℚ) ^ 1075 = (2 ^ 215) ^ 5 := pow_mul _ 215 5
      _ ≤ (10 ^ 65) ^ 5 := pow_le_pow_left₀ (by positivity) (by norm_num) 5
      _ = 10 ^ 325 := (pow_mul _ 65 5).symm
    exact inv_anti₀ (by positivity) hpow
  have hpos : (0 : ℚ) < 10 ^ s.exponent := by positivity
  have hlt : (10 : ℚ) ^ (-325 : Int) < 10 ^ ((natChars s.digits).length + s.exponent) := calc
    (10 : ℚ) ^ (-325 : Int) ≤ places b s * 2 ^ b.exponent :=
      hleast.trans (h.least_le hcanonical hm)
    _ = s.digits * 10 ^ s.exponent := (value_eq b s).symm
    _ < 10 ^ (natChars s.digits).length * 10 ^ s.exponent := by
      gcongr
      exact_mod_cast hupper
    _ = 10 ^ ((natChars s.digits).length + s.exponent) := by
      rw [zpow_add₀ (by norm_num), zpow_natCast]
  have hexp := (zpow_lt_zpow_iff_right₀ (by norm_num)).mp hlt
  omega

/-- No double with a fraction is beyond the places that are read. -/
theorem leading_le (hcanonical : b.Canonical) (h : b.Nearest (places b s))
    (hfraction : b.isWhole = false) (hdigits : 0 < s.digits) :
    (natChars s.digits).length + s.exponent ≤ 400 := by
  obtain ⟨hlower, -⟩ := natChars_bounds hdigits
  have hone : (2 : ℚ) ^ b.exponent ≤ 1 :=
    zpow_le_one_of_nonpos₀ one_le_two (exponent_neg_of_fraction hfraction).le
  have hlt : (10 : ℚ) ^ (((natChars s.digits).length - 1 : Nat) + s.exponent) <
      10 ^ (16 : Int) := calc
    (10 : ℚ) ^ (((natChars s.digits).length - 1 : Nat) + s.exponent)
      = 10 ^ ((natChars s.digits).length - 1) * 10 ^ s.exponent := by
      rw [zpow_add₀ (by norm_num), zpow_natCast]
    _ ≤ s.digits * 10 ^ s.exponent := by
      gcongr
      exact_mod_cast hlower
    _ = places b s * 2 ^ b.exponent := value_eq b s
    _ ≤ 2 ^ 53 * 1 := mul_le_mul (h.lt hcanonical).le hone (by positivity) (by positivity)
    _ < 10 ^ (16 : Int) := by norm_num
  have hexp := (zpow_lt_zpow_iff_right₀ (by norm_num)).mp hlt
  omega

/-- The shortest digits of a double with a fraction are read as the double. -/
theorem nearest_eq (hx : decode x = .finite b) (hpositive : b.negative = false)
    (hm : 0 < b.mantissa) (h : b.Nearest (places b s)) (hfraction : b.isWhole = false) :
    nearest s.digits s.exponent = x := by
  have hcanonical := canonical_of_decode hx
  have hneg := exponent_neg_of_nearest h hfraction
  have hdigits : 0 < s.digits := by
    have hhalf := h.half_le hm
    by_contra hzero
    rw [places, Scientific.value, Nat.eq_zero_of_not_pos hzero, Nat.cast_zero, zero_mul,
      zero_div] at hhalf
    linarith
  have hmin := le_leading hcanonical hm h hdigits
  have hmax := leading_le hcanonical h hfraction hdigits
  simp only [natChars] at hmin hmax
  simp only [nearest]
  rw [if_neg (by simpa using hdigits.ne'), if_neg (by omega), if_neg (by omega),
    decide_eq_true hneg]
  refine Double.ofScientific_nearest hx hpositive hm hcanonical h hdigits (by omega) ?_
  have hexponent : s.exponent = -(s.exponent.natAbs : Int) := by omega
  rw [← value_eq, Scientific.value, hexponent, zpow_neg, Int.natAbs_neg, Int.natAbs_natCast,
    zpow_natCast, inv_mul_cancel_right₀ (by positivity)]

end

/-! ## Layout -/

theorem ofDigits_natChars (n : Nat) : ofDigits (natChars n) = n := Nat.ofDigitChars_ten_toDigits

theorem ofDigits_zeros (n : Nat) (cs : List Char) : ofDigits (zeros n ++ cs) = ofDigits cs := by
  induction n with
  | zero => rfl
  | succ n ih => exact ih

/-- Digits with a point among them or before them. -/
structure Laid (s : Scientific) (whole fraction : List Char) : Prop where
  ne_nil : whole ≠ []
  isDigit : ∀ c ∈ whole ++ fraction, c.isDigit = true
  digits : ofDigits (whole ++ fraction) = s.digits
  exponent : -(fraction.length : Int) = s.exponent

/-- Digits with a negative exponent are laid out with a point. -/
theorem exists_laid {s : Scientific} (h : s.exponent < 0) :
    ∃ whole fraction, plain.positionalText (natChars s.digits)
      (s.exponent + (natChars s.digits).length - 1) = whole ++ '.' :: fraction ∧
        Laid s whole fraction := by
  have hdigits : ∀ {c}, c ∈ natChars s.digits → c.isDigit = true := isDigit_of_mem_natChars
  unfold Layout.positionalText
  split
  · next hbelow =>
    refine ⟨['0'], zeros (-(s.exponent + (natChars s.digits).length - 1) - 1).toNat ++
      natChars s.digits, rfl, List.cons_ne_nil _ _, fun c hc => ?_, ?_, ?_⟩
    · rw [← List.append_assoc] at hc
      exact (List.mem_append.mp hc).elim (isDigit_of_mem_zeros (n := _ + 1)) hdigits
    · rw [← List.append_assoc]
      exact (ofDigits_zeros (_ + 1) _).trans (ofDigits_natChars _)
    · rw [List.length_append, zeros, List.length_replicate]
      omega
  · next hbelow =>
    have hlength : ((s.exponent + (natChars s.digits).length - 1).toNat + 1 : Int) =
        s.exponent + (natChars s.digits).length := by omega
    rw [if_neg (by omega)]
    refine ⟨_, _, rfl, ?_, fun c hc => ?_, ?_, ?_⟩
    · rw [ne_eq, List.take_eq_nil_iff]
      simp [natChars_ne_nil]
    · rw [List.take_append_drop] at hc
      exact hdigits hc
    · rw [List.take_append_drop, ofDigits_natChars]
    · rw [List.length_drop]
      omega

/-- A double with a fraction is written with digits around a point, and read again. -/
theorem exists_renderChars {x : Float} {b : Binary} (hx : decode x = .finite b)
    (hpositive : b.negative = false) (hfraction : b.isWhole = false) :
    ∃ whole fraction, plain.renderChars x = whole ++ '.' :: fraction ∧ whole ≠ [] ∧
      (∀ c ∈ whole ++ fraction, c.isDigit = true) ∧ positional whole fraction = x := by
  have hm : 0 < b.mantissa := by
    refine Nat.pos_of_ne_zero fun hzero => ?_
    rw [Binary.isWhole, hzero, Nat.zero_mod] at hfraction
    cases hfraction
  have hnear := nearest_shortest (canonical_of_decode hx) hm plain.tie
  obtain ⟨whole, fraction, htext, hlaid⟩ := exists_laid (exponent_neg_of_nearest hnear hfraction)
  have hmagnitude : plain.magnitude b = whole ++ '.' :: fraction := by
    rw [← htext]
    simp only [Layout.magnitude, Layout.leading, plain, Bool.or_true, if_true]
  refine ⟨whole, fraction, ?_, hlaid.ne_nil, hlaid.isDigit, ?_⟩
  · simp only [Layout.renderChars, hx, hpositive, Bool.false_eq_true, if_false, List.nil_append,
      hmagnitude]
  · rw [positional, hlaid.digits, hlaid.exponent, nearest_eq hx hpositive hm hnear hfraction]

end DiceNotation.Decimal

namespace DiceNotation

open Formula Text

/-! ## Numbers of literals -/

theorem Decimal.searchGrids_opposite (tie : Tie) (b : Binary) (negative : Bool) (top : Int)
    (fuel digits : Nat) : searchGrids tie { b with negative } top fuel digits =
      searchGrids tie b top fuel digits := by
  induction fuel generalizing digits with
  | zero => rfl
  | succ fuel ih =>
    have hgrid : onGrid? tie { b with negative } (top + 1 - digits) =
        onGrid? tie b (top + 1 - digits) := rfl
    rw [searchGrids, searchGrids, hgrid, ih]

/-- The digits of a double do not depend on its sign. -/
theorem Decimal.magnitude_opposite (l : Layout) (b : Binary) (negative : Bool) :
    l.magnitude { b with negative } = l.magnitude b := by
  have hexponent : decimalExponent { b with negative } = decimalExponent b := rfl
  have hshortest : shortest l.tie { b with negative } = shortest l.tie b := by
    rw [shortest, shortest, hexponent, searchGrids_opposite]
  rw [Layout.magnitude, Layout.magnitude, Layout.leading, Layout.leading, hshortest]

/-- The opposite of a double is written behind a minus sign. -/
theorem Decimal.renderChars_neg {x : Float} {b : Binary} (hx : decode x = .finite b)
    (hpositive : b.negative = false) : plain.renderChars (-x) = '-' :: plain.renderChars x := by
  have hopposite : decode (-x) = .finite { b with negative := true } := by
    rw [Double.decode_neg, hx, Double.opposite, hpositive]
    rfl
  simp only [Layout.renderChars, hopposite, hx, hpositive, magnitude_opposite plain b true]
  rfl

namespace Number

/-- Whether the whole part of a number has 64 bits. -/
def wholeFits : Number → Bool
  | int _ => true
  | float x =>
    match Decimal.decode x with
    | .finite b => fitsInt64 b.whole
    | _ => false

theorem exists_of_wholeFits {x : Float} (h : (float x).wholeFits = true) :
    ∃ b, Decimal.decode x = .finite b ∧ fitsInt64 b.whole = true := by
  rcases hx : Decimal.decode x with _ | negative | b <;> rw [wholeFits, hx] at h
  · cases h
  · cases h
  · exact ⟨b, rfl, h⟩

/-- A number without a minus sign whose whole part has 64 bits can be written as a literal. -/
theorem isLegible_ofFloat {x : Float} (hsign : (Decimal.decode x).isNegative = false)
    (hfits : (ofFloat x).wholeFits = true) : IsLegible (ofFloat x) := by
  cases hwhole : isWhole x with
  | true =>
    have hint : ofFloat x = int (wholePart x) := if_pos hwhole
    obtain ⟨b, -, -, -, hmax⟩ := ofFloat_eq_int hint
    obtain ⟨n, hn⟩ := Int.eq_ofNat_of_zero_le (wholePart_nonneg hsign)
    rw [hn] at hint hmax
    rw [hint]
    refine .int ?_
    have hlt : (n : Int) < 2 ^ 63 := (fitsInt64_iff.mp hmax).2
    show n ≤ 2 ^ 63 - 1
    omega
  | false =>
    have hfloat : ofFloat x = float x := if_neg (Bool.not_eq_true _ ▸ hwhole)
    rw [hfloat] at hfits ⊢
    obtain ⟨b, hx, hfits⟩ := exists_of_wholeFits hfits
    have hpositive : b.negative = false := by rwa [hx] at hsign
    -- a whole double that fits would have been made whole
    have hfraction : b.isWhole = false := by
      cases hcase : b.isWhole with
      | false => rfl
      | true =>
        rw [isWhole_eq_true.mpr ⟨b, hx, hcase, hfits⟩] at hwhole
        cases hwhole
    obtain ⟨whole, fraction, hchars, hne, hdigits, hvalue⟩ :=
      Decimal.exists_renderChars hx hpositive hfraction
    have hread : ofFloat (Decimal.positional whole fraction) = float x := by rw [hvalue, hfloat]
    exact .float hchars hne hdigits hread (Decimal.renderChars_neg hx hpositive)

end Number

namespace Formula

/-- Whether the whole part of the number that a token stands for has 64 bits. -/
def Token.wholeFits (t : Token) : Bool :=
  match t.literal? with
  | some (.number v) => v.wholeFits
  | _ => true

/-- The number of a literal can be written as a literal again. -/
theorem isLegible_of_literal {w r : List Char} {v : Number}
    (h : longest (w ++ r) = (.number, w.length)) (hv : numberOfLiteral? w = some v)
    (hfits : v.wholeFits = true) : IsLegible v := by
  by_cases hpoint : '.' ∈ w
  · obtain ⟨whole, fraction, rfl, hwhole⟩ := List.eq_append_cons_of_mem hpoint
    rw [numberOfLiteral?_point hwhole] at hv
    obtain rfl := Option.some.inj hv
    exact Number.isLegible_ofFloat (Decimal.isNegative_positional whole fraction) hfits
  · exact isLegible_of_notMem h hpoint hv

/-- The numbers of a text can be written anew, as long as those with a point are not glued to
    what they would run together with. -/
theorem legible_tokens {source : List Char} (hfits : ∀ t ∈ tokens source, t.wholeFits = true)
    (hapart : (tokens source).IsChain Token.Apart) : Legible (tokens source) := by
  refine ⟨fun t ht v hv => ?_, hapart⟩
  obtain ⟨-, r, hlongest, hvalue⟩ := (lexed_tokens source t ht).number_inv hv
  have hnumber : v.wholeFits = true := by
    have ht := hfits t ht
    rwa [Token.wholeFits, hv] at ht
  exact isLegible_of_literal hlongest hvalue hnumber

end Formula

end DiceNotation
