/-
  DiceNotation.Proofs.Number.Opposite

  Numbers and their opposites in sums and products.

  A product, quotient or remainder whose left operand is replaced by its opposite
  becomes its opposite (`Opposite.apply`), and a sum becomes the difference
  (`Opposite.add`, `Opposite.sub`). That is so of whole numbers as long as the
  opposites have 64 bits, too (`Moderate`), and of the doubles that stand for
  products that were too large.
-/

import Mathlib.Algebra.Order.Ring.Int
import Mathlib.Data.Nat.Prime.Basic
import DiceNotation.Proofs.Infix.Arithmetic
import DiceNotation.Proofs.Number.Double

namespace DiceNotation

/-! ## Doubles that are whole numbers -/

theorem Decimal.whole_opposite (b : Decimal.Binary) :
    ({ b with negative := !b.negative } : Decimal.Binary).whole = -b.whole := by
  unfold Decimal.Binary.whole
  cases b.negative with
  | false => rfl
  | true => exact (Int.neg_neg _).symm

theorem isWhole_eq_true {x : Float} :
    isWhole x = true ↔
      ∃ b, Decimal.decode x = .finite b ∧ b.isWhole = true ∧ Text.fitsInt64 b.whole = true := by
  unfold isWhole
  cases Decimal.decode x <;> simp

namespace Text

theorem fitsInt64_iff {n : Int} : fitsInt64 n = true ↔ -2 ^ 63 ≤ n ∧ n < 2 ^ 63 := by
  have hmin : minInt64 = -2 ^ 63 := rfl
  have hmax : maxInt64 = 2 ^ 63 - 1 := rfl
  rw [fitsInt64, hmin, hmax, Bool.and_eq_true, decide_eq_true_iff, decide_eq_true_iff]
  omega

end Text

namespace Number

open Text

theorem wholePart_of_decode {x : Float} {b : Decimal.Binary} (hx : Decimal.decode x = .finite b)
    (h : fitsInt64 b.whole = true) : wholePart x = b.whole := by
  have hfits : minInt64 ≤ b.whole ∧ b.whole ≤ maxInt64 := by simpa [fitsInt64] using h
  unfold wholePart
  rw [hx]
  show max minInt64 (min maxInt64 b.whole) = b.whole
  rw [min_eq_right hfits.2, max_eq_right hfits.1]

theorem ofFloat_eq_int {x : Float} {n : Int} (h : ofFloat x = int n) :
    ∃ b, Decimal.decode x = .finite b ∧ b.isWhole = true ∧ b.whole = n ∧ fitsInt64 n = true := by
  unfold ofFloat at h
  split at h
  · rename_i hwhole
    obtain ⟨b, hb, hfraction, hfits⟩ := isWhole_eq_true.mp hwhole
    rw [wholePart_of_decode hb hfits] at h
    cases h
    exact ⟨b, hb, hfraction, rfl, hfits⟩
  · cases h

theorem ofFloat_of_decode {x : Float} {b : Decimal.Binary} (hx : Decimal.decode x = .finite b)
    (hfraction : b.isWhole = true) (hfits : fitsInt64 b.whole = true) :
    ofFloat x = int b.whole := by
  rw [ofFloat, if_pos (isWhole_eq_true.mpr ⟨b, hx, hfraction, hfits⟩),
    wholePart_of_decode hx hfits]

/-- The opposite of a double that is made whole is made whole, as long as it fits. -/
theorem ofFloat_neg {x : Float} {n : Int} (h : ofFloat x = int n)
    (hn : fitsInt64 (-n) = true) : ofFloat (-x) = int (-n) := by
  obtain ⟨b, hb, hfraction, rfl, -⟩ := ofFloat_eq_int h
  have hopposite : Decimal.decode (-x) = .finite { b with negative := !b.negative } := by
    rw [Double.decode_neg, hb]
    rfl
  have hwhole := Decimal.whole_opposite b
  rw [ofFloat_of_decode hopposite hfraction (hwhole ▸ hn), hwhole]

theorem whole?_ofFloat (x : Float) :
    (ofFloat x).whole? = if isWhole x then some (wholePart x) else none := by
  unfold ofFloat
  split
  · rfl
  · rename_i h
    simp [whole?, h]

/-! ## Moderate numbers -/

/-- A whole number strictly between `-2^63` and `2^63`. -/
def Moderate (v : Number) : Prop := ∃ n, v.whole? = some n ∧ -2 ^ 63 < n ∧ n < 2 ^ 63

instance : DecidablePred Moderate := fun v =>
  decidable_of_iff (∃ n ∈ v.whole?, -2 ^ 63 < n ∧ n < 2 ^ 63) Iff.rfl

theorem moderate_int {n : Int} : (int n).Moderate ↔ -2 ^ 63 < n ∧ n < 2 ^ 63 := by
  simp [Moderate, whole?]

/-- A moderate number that a double is made to is whole. -/
theorem Moderate.ofFloat {x : Float} (h : (ofFloat x).Moderate) :
    ∃ n, ofFloat x = int n ∧ -2 ^ 63 < n ∧ n < 2 ^ 63 := by
  obtain ⟨n, hn, hbounds⟩ := h
  rw [whole?_ofFloat] at hn
  split at hn
  · rename_i hwhole
    refine ⟨n, ?_, hbounds⟩
    rw [Number.ofFloat, if_pos hwhole, Option.some.inj hn]
  · cases hn

/-! ## Opposites -/

/-- Two numbers of opposite signs, both whole or both doubles. -/
inductive Opposite : Number → Number → Prop where
  | int {n : Int} (hmin : -2 ^ 63 < n) (hmax : n < 2 ^ 63) : Opposite (.int n) (.int (-n))
  | float (x : Float) : Opposite (.float x) (.float (-x))

/-- What a double is made to has an opposite. -/
theorem opposite_ofFloat {x : Float} (h : (Number.ofFloat x).Moderate) :
    Opposite (ofFloat x) (ofFloat (-x)) := by
  obtain ⟨n, hn, hmin, hmax⟩ := h.ofFloat
  rw [hn, ofFloat_neg hn (fitsInt64_iff.mpr ⟨by omega, by omega⟩)]
  exact .int hmin hmax

/-! ## Products -/

/-- Doubles of two powers of two whose product is `2^63`. -/
theorem isWhole_mul_two_pow : ∀ k : Fin 64,
    isWhole (Float.ofInt (2 ^ k.val : Nat) * Float.ofInt (2 ^ (63 - k.val) : Nat)) = false := by
  decide +kernel

/-- The least number that is too large remains so as a product of doubles. -/
theorem isWhole_mul_of_eq {m n : Int} (h : m * n = 2 ^ 63) :
    isWhole (Float.ofInt m * Float.ofInt n) = false := by
  have habs : m.natAbs * n.natAbs = 2 ^ 63 := by
    rw [← Int.natAbs_mul, h]
    rfl
  obtain ⟨k, hk, hm⟩ := (Nat.dvd_prime_pow Nat.prime_two).mp (Dvd.intro _ habs)
  have hn : n.natAbs = 2 ^ (63 - k) := by
    have hsplit : (2 : Nat) ^ 63 = 2 ^ k * 2 ^ (63 - k) := by
      rw [← Nat.pow_add, Nat.add_sub_cancel' hk]
    rw [hm, hsplit] at habs
    exact Nat.eq_of_mul_eq_mul_left (Nat.two_pow_pos k) habs
  have hpowers := isWhole_mul_two_pow ⟨k, by omega⟩
  have hpos : 0 < m * n := by rw [h]; decide
  rcases mul_pos_iff.mp hpos with ⟨hm', hn'⟩ | ⟨hm', hn'⟩
  · rwa [show m = (2 ^ k : Nat) by omega, show n = (2 ^ (63 - k) : Nat) by omega]
  · rwa [show m = -(2 ^ k : Nat) by omega, show n = -(2 ^ (63 - k) : Nat) by omega,
      Double.ofInt_neg (by positivity), Double.ofInt_neg (by positivity), Double.neg_mul_neg]

theorem mul_wide {m n : Int} (h : fitsInt64 (m * n) = false) :
    (int m).mul (int n) = float (Float.ofInt m * Float.ofInt n) := by
  simp only [mul, fitted, h, Bool.false_eq_true, if_false]

section

variable {p p' q : Number} {n : Int}

theorem Opposite.mul (h : Opposite p p') (hq : (p.mul (.int n)).Moderate) :
    Opposite (p.mul (.int n)) (p'.mul (.int n)) := by
  cases h with
  | float x =>
    show Opposite (ofFloat (x * Float.ofInt n)) (ofFloat (-x * Float.ofInt n))
    rw [Double.neg_mul]
    exact opposite_ofFloat hq
  | @int m hmin hmax =>
    have hopposite : -m * n = -(m * n) := Int.neg_mul m n
    cases hfits : fitsInt64 (m * n) with
    | true =>
      rw [mul_int hfits] at hq ⊢
      obtain ⟨hlow, hhigh⟩ := moderate_int.mp hq
      rw [mul_int (hopposite ▸ fitsInt64_iff.mpr ⟨by omega, by omega⟩), hopposite]
      exact .int hlow hhigh
    | false =>
      rw [mul_wide hfits] at hq ⊢
      -- the opposite of the product has 64 bits only if the product is `2^63`
      have hfits' : fitsInt64 (-m * n) = false := by
        rw [Bool.eq_false_iff, ne_eq, fitsInt64_iff, hopposite]
        rw [Bool.eq_false_iff, ne_eq, fitsInt64_iff] at hfits
        rintro ⟨hlow, hhigh⟩
        obtain ⟨_, hwhole, -⟩ := hq
        rw [whole?, isWhole_mul_of_eq (by omega : m * n = 2 ^ 63)] at hwhole
        cases hwhole
      have hzero : m ≠ 0 := by
        rintro rfl
        rw [Int.zero_mul] at hfits
        cases hfits
      rw [mul_wide hfits', Double.ofInt_neg hzero, Double.neg_mul]
      exact .float _

/-- A quotient without remainder is whole, and is no larger than the dividend. -/
theorem div_tdiv {m : Int} (hmin : -2 ^ 63 < m) (hmax : m < 2 ^ 63) (hn : n ≠ 0)
    (hrest : m.tmod n = 0) : (int m).div (int n) = .ok (int (m.tdiv n)) := by
  have hle : (m.tdiv n).natAbs ≤ m.natAbs := by
    rw [Int.natAbs_tdiv]
    exact Nat.div_le_self _ _
  have hfits : fitsInt64 (m.tdiv n) = true := fitsInt64_iff.mpr ⟨by omega, by omega⟩
  simp [Number.div, eq_zero_int, hn, hrest, hfits]

theorem div_widened {m : Int} (hn : n ≠ 0) (hrest : m.tmod n ≠ 0) :
    (int m).div (int n) = .ok (ofFloat (Float.ofInt m / Float.ofInt n)) := by
  simp [Number.div, eq_zero_int, hn, hrest]

theorem Opposite.div (h : Opposite p p') (hq : p.div (.int n) = .ok q) (hmoderate : q.Moderate) :
    ∃ q', p'.div (.int n) = .ok q' ∧ Opposite q q' := by
  have hn : n ≠ 0 := by
    rintro rfl
    rw [show p.div (.int 0) = .error .byZero from apply_zero (.inl rfl) p] at hq
    cases hq
  cases h with
  | float x =>
    have hdiv : ∀ y, (Number.float y).div (.int n) = .ok (ofFloat (y / Float.ofInt n)) := by
      intro y
      simp [Number.div, eq_zero_int, hn, toFloat]
    rw [hdiv] at hq
    cases hq
    rw [hdiv, Double.neg_div]
    exact ⟨_, rfl, opposite_ofFloat hmoderate⟩
  | @int m hmin hmax =>
    have hopposite : (-m).tmod n = -m.tmod n := Int.neg_tmod m n
    by_cases hrest : m.tmod n = 0
    · rw [div_tdiv hmin hmax hn hrest] at hq
      cases hq
      obtain ⟨hlow, hhigh⟩ := moderate_int.mp hmoderate
      rw [div_tdiv (by omega) (by omega) hn (by omega), Int.neg_tdiv]
      exact ⟨_, rfl, .int hlow hhigh⟩
    · have hzero : m ≠ 0 := by
        rintro rfl
        exact hrest (Int.zero_tmod n)
      rw [div_widened hn hrest] at hq
      cases hq
      rw [div_widened hn (by omega), Double.ofInt_neg hzero, Double.neg_div]
      exact ⟨_, rfl, opposite_ofFloat hmoderate⟩

theorem Opposite.rem (h : Opposite p p') (hq : p.rem (.int n) = .ok q) (hmoderate : q.Moderate) :
    ∃ q', p'.rem (.int n) = .ok q' ∧ Opposite q q' := by
  have hn : n ≠ 0 := by
    rintro rfl
    rw [show p.rem (.int 0) = .error .byZero from apply_zero (.inr rfl) p] at hq
    cases hq
  cases h with
  | float x =>
    have hrem : ∀ y, (Number.float y).rem (.int n) =
        .ok (ofFloat (remainder y (Float.ofInt n))) := by
      intro y
      simp [Number.rem, eq_zero_int, hn, toFloat]
    rw [hrem] at hq
    cases hq
    rw [hrem, Double.remainder_neg]
    exact ⟨_, rfl, opposite_ofFloat hmoderate⟩
  | @int m hmin hmax =>
    rw [rem_int hn] at hq
    cases hq
    obtain ⟨hlow, hhigh⟩ := moderate_int.mp hmoderate
    rw [rem_int hn, Int.neg_tmod]
    exact ⟨_, rfl, .int hlow hhigh⟩

/-- A product, quotient or remainder whose left operand is replaced by its opposite becomes
    its opposite. -/
theorem Opposite.apply (h : Opposite p p') {op : Operator} (hop : op.isAdditive = false)
    (hq : p.apply op (.int n) = .ok q) (hmoderate : q.Moderate) :
    ∃ q', p'.apply op (.int n) = .ok q' ∧ Opposite q q' := by
  cases op with
  | add | sub => cases hop
  | mul =>
    cases hq
    exact ⟨_, rfl, h.mul hmoderate⟩
  | div => exact h.div hq hmoderate
  | rem => exact h.rem hq hmoderate

end

/-! ## Sums -/

section

variable {s p p' : Number}

theorem ofFloat_pack_zero (sign : Float.Model.UnpackedFloat.Sign) :
    ofFloat (Double.pack (.zero sign)) = zero := by
  have hparts : Double.unpack (Double.pack (.zero sign)) = .zero sign := by
    cases sign <;> rfl
  have hdecode := (Double.decode_eq (Double.pack (.zero sign))).trans
    (congrArg Double.decoded hparts)
  have hwhole : ∀ negative e, (⟨negative, 0, e⟩ : Decimal.Binary).isWhole = true ∧
      (⟨negative, 0, e⟩ : Decimal.Binary).whole = 0 := by
    simp [Decimal.Binary.isWhole, Decimal.Binary.whole]
  obtain ⟨hfraction, hvalue⟩ := hwhole (Double.isNegative sign) (-1074)
  rw [ofFloat_of_decode hdecode hfraction (hvalue ▸ rfl), hvalue]
  rfl

/-- Adding zero to a double and taking it away differ in the sign of a zero at most. -/
theorem ofFloat_add_zero (x : Float) :
    ofFloat (x + Float.ofInt 0) = ofFloat (x - Float.ofInt 0) := by
  have hadd : x + Float.ofInt 0 =
      Double.pack (.add .binary64 (Double.unpack x) (.zero .positive)) := rfl
  have hsub : x - Float.ofInt 0 =
      Double.pack (.sub .binary64 (Double.unpack x) (.zero .positive)) := rfl
  rw [hadd, hsub]
  cases Double.unpack x with
  | zero sign => cases sign <;> exact (ofFloat_pack_zero _).trans (ofFloat_pack_zero _).symm
  | notANumber | infinity sign | finite sign m e hm => rfl

theorem Moderate.add_zero (hs : s.Moderate) : s.add zero = s.sub zero := by
  cases s with
  | float x => exact ofFloat_add_zero x
  | int m =>
    obtain ⟨hmin, hmax⟩ := moderate_int.mp hs
    rw [zero, add_int (fitsInt64_iff.mpr ⟨by omega, by omega⟩),
      sub_int (fitsInt64_iff.mpr ⟨by omega, by omega⟩), Int.add_zero, Int.sub_zero]

/-- Numbers of opposite signs stand next to doubles of opposite signs, except zero. -/
theorem Opposite.toFloat (h : Opposite p p') :
    (p = zero ∧ p' = zero) ∨ p'.toFloat = -p.toFloat := by
  cases h with
  | float x => exact .inr rfl
  | @int n hmin hmax =>
    by_cases hn : n = 0
    · subst hn
      exact .inl ⟨rfl, rfl⟩
    · exact .inr (Double.ofInt_neg hn)

/-- Adding a number is taking its opposite away. -/
theorem Opposite.add (h : Opposite p p') (hs : s.Moderate) : s.add p = s.sub p' := by
  obtain ⟨rfl, rfl⟩ | hfloat := h.toFloat
  · exact hs.add_zero
  · have hwide : s.toFloat - p'.toFloat = s.toFloat + p.toFloat := by
      rw [hfloat, Double.sub_eq_add_neg, Double.neg_neg]
    cases h with
    | float x =>
      cases s <;> exact congrArg ofFloat hwide.symm
    | @int n hmin hmax =>
      cases s with
      | float x => exact congrArg ofFloat hwide.symm
      | int m => exact congrArg₂ fitted (Int.sub_neg m n).symm hwide.symm

/-- Taking a number away is adding its opposite. -/
theorem Opposite.sub (h : Opposite p p') (hs : s.Moderate) : s.sub p = s.add p' := by
  obtain ⟨rfl, rfl⟩ | hfloat := h.toFloat
  · exact hs.add_zero.symm
  · have hwide : s.toFloat + p'.toFloat = s.toFloat - p.toFloat := by
      rw [hfloat, Double.sub_eq_add_neg]
    cases h with
    | float x =>
      cases s <;> exact congrArg ofFloat hwide.symm
    | @int n hmin hmax =>
      cases s with
      | float x => exact congrArg ofFloat hwide.symm
      | int m => exact congrArg₂ fitted Int.sub_eq_add_neg hwide.symm

end

end Number

end DiceNotation
