/-
  DiceNotation.Proofs.Number.Double

  Doubles and their opposites.

  The bits of a double are a sign, an exponent and a mantissa, which can be taken
  out and put together again (`Double.pack_unpack`). The opposite of a double has
  the other sign and the same exponent and mantissa (`Double.unpack_neg`). So a
  product or quotient changes its sign with either operand, and a difference is the
  sum with the opposite.
-/

import Mathlib
import DiceNotation.Number

namespace DiceNotation.Double

open Float.Model (UnpackedFloat)
open Float.Model.UnpackedFloat (Sign packComponents unpackSign unpackExponent unpackMantissa
  unpackSign_packComponents unpackExponent_packComponents unpackMantissa_packComponents)

/-! ## Bits -/

section

variable (b : BitVec 64)

theorem toNat_unpackMantissa : (@unpackMantissa .binary64 b).toNat = b.toNat % 2 ^ 52 := by
  unfold unpackMantissa
  rw [BitVec.toNat_cast, BitVec.extractLsb_toNat]
  rfl

theorem toNat_unpackExponent :
    (@unpackExponent .binary64 b).toNat = b.toNat / 2 ^ 52 % 2 ^ 11 := by
  unfold unpackExponent
  rw [BitVec.toNat_cast, BitVec.extractLsb_toNat, Nat.shiftRight_eq_div_pow]
  rfl

theorem toNat_unpackSign : (@unpackSign .binary64 b).toNat = b.toNat / 2 ^ 63 := by
  have hb := b.isLt
  have hsmall : b.toNat / 2 ^ 63 % 2 = b.toNat / 2 ^ 63 := by omega
  unfold unpackSign
  rw [BitVec.toNat_cast, BitVec.extractLsb_toNat, Nat.shiftRight_eq_div_pow]
  exact hsmall

end

/-- The mantissa of a normal double has an implicit bit. -/
theorem toNat_implicit (m : BitVec 52) : (1#1 ++ m).toNat = 2 ^ 52 + m.toNat := by
  rw [BitVec.toNat_append, ← Nat.shiftLeft_add_eq_or_of_lt m.isLt]
  rfl

/-- The sign of a double is a bit of its own. -/
theorem unpack_packComponents_neg (s : Sign) (e : BitVec 11) (m : BitVec 52) :
    UnpackedFloat.unpack .binary64 (packComponents .binary64 (-s) e m) =
      (UnpackedFloat.unpack .binary64 (packComponents .binary64 s e m)).neg := by
  simp only [UnpackedFloat.unpack, unpackSign_packComponents, unpackExponent_packComponents,
    unpackMantissa_packComponents, Sign.ofBitVec_toBitVec]
  split
  · split <;> rfl
  · split
    · split <;> rfl
    · rfl

/-! ## Parts of a double -/

/-- The parts of a double. -/
def unpack (x : Float) : UnpackedFloat := x.toModel.unpack

/-- The double of parts that are rounded already. -/
def pack (u : UnpackedFloat) : Float := .ofModel (.pack u)

theorem pack_unpack (x : Float) : pack (unpack x) = x := by
  obtain ⟨bits, hvalid⟩ := x
  show Float.ofModel (.pack (UnpackedFloat.unpack .binary64 bits.toBitVec)) = _
  simp only [Float.Model.pack, UnpackedFloat.pack_unpack_of_valid hvalid]

/-- The opposite of parts is packed with the other sign, in whichever way they are packed. -/
theorem unpack_pack_neg (u : UnpackedFloat) : unpack (pack u.neg) = (unpack (pack u)).neg := by
  show UnpackedFloat.unpack .binary64 (UnpackedFloat.pack .binary64 u.neg) =
    (UnpackedFloat.unpack .binary64 (UnpackedFloat.pack .binary64 u)).neg
  cases u with
  | infinity s => exact unpack_packComponents_neg s _ _
  | notANumber => rfl
  | zero s => exact unpack_packComponents_neg s _ _
  | finite s m e hm =>
    simp only [UnpackedFloat.pack, UnpackedFloat.neg]
    split
    · exact unpack_packComponents_neg s _ _
    · split
      · exact unpack_packComponents_neg s _ _
      · exact unpack_packComponents_neg s _ _

theorem neg_eq (x : Float) : -x = pack (unpack x).neg := rfl

/-- The opposite of a double has its parts, the sign excepted. -/
theorem unpack_neg (x : Float) : unpack (-x) = (unpack x).neg := by
  rw [neg_eq, unpack_pack_neg, pack_unpack]

theorem pack_neg (u : UnpackedFloat) : pack u.neg = -pack u := by
  rw [neg_eq, ← unpack_pack_neg, pack_unpack]

/-! ## Opposites -/

theorem neg_neg_unpacked (u : UnpackedFloat) : u.neg.neg = u := by
  have hsign : ∀ s : Sign, - -s = s := by
    intro s
    cases s <;> rfl
  cases u <;> simp only [UnpackedFloat.neg, hsign]

theorem neg_neg (x : Float) : - -x = x := by
  rw [neg_eq (-x), unpack_neg, neg_neg_unpacked, pack_unpack]

/-- The double next to the opposite of a whole number other than zero. -/
theorem ofInt_neg {n : Int} (hn : n ≠ 0) : Float.ofInt (-n) = -Float.ofInt n := by
  cases n with
  | ofNat n =>
    cases n with
    | zero => exact absurd rfl hn
    | succ n => rfl
  | negSucc n => exact (neg_neg (Float.ofNat (n + 1))).symm

theorem neg_mul_sign (s t : Sign) : -s * t = -(s * t) := by
  cases s <;> cases t <;> rfl

theorem mul_neg_sign (s t : Sign) : s * -t = -(s * t) := by
  cases s <;> cases t <;> rfl

theorem neg_div_sign (s t : Sign) : -s / t = -(s / t) := by
  cases s <;> cases t <;> rfl

/-- Rounding does not look at the sign. -/
theorem roundWithAccuracy_neg (s : Sign) (m : Nat) (e : Int) (a : UnpackedFloat.Accuracy) :
    UnpackedFloat.roundWithAccuracy .binary64 (-s) m e a =
      (UnpackedFloat.roundWithAccuracy .binary64 s m e a).neg := by
  simp only [UnpackedFloat.roundWithAccuracy]
  split <;> rfl

theorem neg_mul_unpacked (u v : UnpackedFloat) :
    UnpackedFloat.mul .binary64 u.neg v = (UnpackedFloat.mul .binary64 u v).neg := by
  cases u <;> cases v <;>
    simp only [UnpackedFloat.mul, UnpackedFloat.neg, neg_mul_sign, roundWithAccuracy_neg]

theorem mul_neg_unpacked (u v : UnpackedFloat) :
    UnpackedFloat.mul .binary64 u v.neg = (UnpackedFloat.mul .binary64 u v).neg := by
  cases u <;> cases v <;>
    simp only [UnpackedFloat.mul, UnpackedFloat.neg, mul_neg_sign, roundWithAccuracy_neg]

theorem neg_div_unpacked (u v : UnpackedFloat) :
    UnpackedFloat.div .binary64 u.neg v = (UnpackedFloat.div .binary64 u v).neg := by
  cases u <;> cases v <;>
    simp only [UnpackedFloat.div, UnpackedFloat.neg, neg_div_sign, roundWithAccuracy_neg]

theorem neg_mul (x y : Float) : -x * y = -(x * y) := by
  show pack (UnpackedFloat.mul .binary64 (unpack (-x)) (unpack y)) =
    -pack (UnpackedFloat.mul .binary64 (unpack x) (unpack y))
  rw [unpack_neg, neg_mul_unpacked, pack_neg]

theorem mul_neg (x y : Float) : x * -y = -(x * y) := by
  show pack (UnpackedFloat.mul .binary64 (unpack x) (unpack (-y))) =
    -pack (UnpackedFloat.mul .binary64 (unpack x) (unpack y))
  rw [unpack_neg, mul_neg_unpacked, pack_neg]

theorem neg_mul_neg (x y : Float) : -x * -y = x * y := by
  rw [neg_mul, mul_neg, neg_neg]

theorem neg_div (x y : Float) : -x / y = -(x / y) := by
  show pack (UnpackedFloat.div .binary64 (unpack (-x)) (unpack y)) =
    -pack (UnpackedFloat.div .binary64 (unpack x) (unpack y))
  rw [unpack_neg, neg_div_unpacked, pack_neg]

theorem sub_unpacked (u v : UnpackedFloat) :
    UnpackedFloat.sub .binary64 u v = UnpackedFloat.add .binary64 u v.neg := by
  have happly : ∀ (s : Sign) (n : Int), (-s).apply n = -s.apply n := by
    intro s n
    cases s
    · exact (Int.neg_neg n).symm
    · rfl
  cases u <;> cases v <;>
    simp only [UnpackedFloat.sub, UnpackedFloat.add, UnpackedFloat.neg, happly, Int.sub_eq_add_neg]

/-- A difference is the sum with the opposite. -/
theorem sub_eq_add_neg (x y : Float) : x - y = x + -y := by
  show pack (UnpackedFloat.sub .binary64 (unpack x) (unpack y)) =
    pack (UnpackedFloat.add .binary64 (unpack x) (unpack (-y)))
  rw [unpack_neg, sub_unpacked]

/-! ## Values of doubles -/

/-- Whether a sign is the minus sign. -/
def isNegative : Sign → Bool
  | .negative => true
  | .positive => false

/-- What the parts of a double stand for. -/
def decoded : UnpackedFloat → Decimal.Decoded
  | .notANumber => .nan
  | .infinity s => .infinite (isNegative s)
  | .zero s => .finite ⟨isNegative s, 0, -1074⟩
  | .finite s m e _ => .finite ⟨isNegative s, m, e⟩

theorem isNegative_ofBitVec (b : BitVec 1) : isNegative (.ofBitVec b) = (b.toNat == 1) := by
  revert b
  decide

/-- What the fields of a double stand for. -/
theorem decoded_unpack (b : BitVec 64) :
    decoded (UnpackedFloat.unpack .binary64 b) =
      if (@unpackExponent .binary64 b).toNat = 2 ^ 11 - 1 then
        if (@unpackMantissa .binary64 b).toNat = 0 then
          .infinite (isNegative (.ofBitVec (@unpackSign .binary64 b)))
        else .nan
      else if (@unpackExponent .binary64 b).toNat = 0 then
        .finite ⟨isNegative (.ofBitVec (@unpackSign .binary64 b)),
          (@unpackMantissa .binary64 b).toNat, -1074⟩
      else
        .finite ⟨isNegative (.ofBitVec (@unpackSign .binary64 b)),
          2 ^ 52 + (@unpackMantissa .binary64 b).toNat,
          ((@unpackExponent .binary64 b).toNat : Int) - 1075⟩ := by
  have hinfinite : @unpackExponent .binary64 b = -1#_ ↔
      (@unpackExponent .binary64 b).toNat = 2 ^ 11 - 1 := BitVec.toNat_eq
  have hleast : @unpackExponent .binary64 b = 0#_ ↔
      (@unpackExponent .binary64 b).toNat = 0 := BitVec.toNat_eq
  have hzero : @unpackMantissa .binary64 b = 0#_ ↔
      (@unpackMantissa .binary64 b).toNat = 0 := BitVec.toNat_eq
  simp only [UnpackedFloat.unpack, hinfinite, hleast, hzero]
  split
  · split <;> rfl
  · split
    · rename_i he
      split
      · rename_i hm
        rw [hm]
        rfl
      · show Decimal.Decoded.finite
          ⟨_, _, ((@unpackExponent .binary64 b).toNat : Int) - 1075 + 1⟩ = _
        rw [he]
        rfl
    · show Decimal.Decoded.finite ⟨_, (1#1 ++ @unpackMantissa .binary64 b).toNat, _⟩ = _
      rw [toNat_implicit]
      rfl

/-- A double stands for what its parts stand for. -/
theorem decode_eq (x : Float) : Decimal.decode x = decoded (unpack x) := by
  show _ = decoded (UnpackedFloat.unpack .binary64 x.toBits.toBitVec)
  rw [decoded_unpack, isNegative_ofBitVec, toNat_unpackSign, toNat_unpackExponent,
    toNat_unpackMantissa]
  simp only [Decimal.decode, beq_iff_eq]
  rfl

/-- The opposite of what a double stands for. -/
def opposite : Decimal.Decoded → Decimal.Decoded
  | .nan => .nan
  | .infinite negative => .infinite (!negative)
  | .finite b => .finite { b with negative := !b.negative }

theorem decode_neg (x : Float) : Decimal.decode (-x) = opposite (Decimal.decode x) := by
  have hsign : ∀ s : Sign, isNegative (-s) = !isNegative s := by
    intro s
    cases s <;> rfl
  rw [decode_eq, decode_eq, unpack_neg]
  cases unpack x <;> simp only [UnpackedFloat.neg, decoded, opposite, hsign]

theorem neg_nan : -(0.0 / 0.0 : Float) = 0.0 / 0.0 := by
  have hnan : (0.0 / 0.0 : Float) = pack .notANumber := rfl
  rw [hnan, ← pack_neg]
  rfl

/-- A remainder has the sign of the dividend. -/
theorem remainder_neg (x y : Float) : remainder (-x) y = -remainder x y := by
  unfold remainder
  rw [decode_neg]
  cases Decimal.decode x with
  | nan => exact neg_nan.symm
  | infinite negative => exact neg_nan.symm
  | finite a =>
    cases Decimal.decode y with
    | nan => exact neg_nan.symm
    | infinite negative => rfl
    | finite b =>
      simp only [opposite]
      split
      · exact neg_nan.symm
      · cases a.negative with
        | false => rfl
        | true => exact (neg_neg _).symm

end DiceNotation.Double
