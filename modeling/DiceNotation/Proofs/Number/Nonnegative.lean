/-
  DiceNotation.Proofs.Number.Nonnegative

  Doubles that are read from digits have no minus sign.

  Products, quotients and what they are rounded to have none where their operands
  have none (`Double.nonnegative_mul`, `Double.nonnegative_div`), and a decimal is
  read as such a product or quotient (`Decimal.isNegative_positional`).
-/

import DiceNotation.Decimal.Reading
import DiceNotation.Proofs.Number.Double

namespace DiceNotation

/-- Whether what a double stands for has a minus sign. -/
def Decimal.Decoded.isNegative : Decoded → Bool
  | .nan => false
  | .infinite negative => negative
  | .finite b => b.negative

namespace Double

open Float.Model (UnpackedFloat)
open Float.Model.UnpackedFloat (Sign packComponents unpackSign_packComponents
  unpackExponent_packComponents unpackMantissa_packComponents)

/-! ## Parts without a minus sign -/

/-- The parts of a double without a minus sign. -/
def Nonnegative : UnpackedFloat → Prop
  | .notANumber => True
  | .infinity s | .zero s | .finite s _ _ _ => s = .positive

theorem nonnegative_iff {u : UnpackedFloat} :
    Nonnegative u ↔ (decoded u).isNegative = false := by
  cases u with
  | notANumber => exact ⟨fun _ => rfl, fun _ => trivial⟩
  | infinity s | zero s | finite s m e hm => cases s <;> simp [Nonnegative, decoded, isNegative,
      Decimal.Decoded.isNegative]

theorem nonnegative_packComponents (e : BitVec 11) (m : BitVec 52) :
    Nonnegative (UnpackedFloat.unpack .binary64 (packComponents .binary64 .positive e m)) := by
  simp only [UnpackedFloat.unpack, unpackSign_packComponents, unpackExponent_packComponents,
    unpackMantissa_packComponents, Sign.ofBitVec_toBitVec]
  split
  · split
    · rfl
    · trivial
  · split
    · split <;> rfl
    · rfl

/-- Packing keeps the sign. -/
theorem nonnegative_pack {u : UnpackedFloat} (h : Nonnegative u) :
    Nonnegative (unpack (pack u)) := by
  show Nonnegative (UnpackedFloat.unpack .binary64 (UnpackedFloat.pack .binary64 u))
  cases u with
  | notANumber => trivial
  | infinity s | zero s =>
    obtain rfl : s = .positive := h
    exact nonnegative_packComponents _ _
  | finite s m e hm =>
    obtain rfl : s = .positive := h
    simp only [UnpackedFloat.pack]
    split
    · exact nonnegative_packComponents _ _
    · split <;> exact nonnegative_packComponents _ _

/-! ## Products and quotients -/

theorem nonnegative_round (m : Nat) (e : Int) (a : UnpackedFloat.Accuracy) :
    Nonnegative (UnpackedFloat.roundWithAccuracy .binary64 .positive m e a) := by
  simp only [UnpackedFloat.roundWithAccuracy]
  split <;> rfl

theorem nonnegative_mul {u v : UnpackedFloat} (hu : Nonnegative u) (hv : Nonnegative v) :
    Nonnegative (UnpackedFloat.mul .binary64 u v) := by
  cases u with
  | notANumber => cases v <;> trivial
  | infinity s | zero s =>
    obtain rfl : s = .positive := hu
    cases v with
    | notANumber => trivial
    | infinity t | zero t | finite t _ _ _ =>
      obtain rfl : t = .positive := hv
      first | rfl | trivial
  | finite s m e hm =>
    obtain rfl : s = .positive := hu
    cases v with
    | notANumber => trivial
    | infinity t | zero t =>
      obtain rfl : t = .positive := hv
      rfl
    | finite t n f hn =>
      obtain rfl : t = .positive := hv
      exact nonnegative_round _ _ _

theorem nonnegative_div {u v : UnpackedFloat} (hu : Nonnegative u) (hv : Nonnegative v) :
    Nonnegative (UnpackedFloat.div .binary64 u v) := by
  cases u with
  | notANumber => cases v <;> trivial
  | infinity s | zero s =>
    obtain rfl : s = .positive := hu
    cases v with
    | notANumber => trivial
    | infinity t | zero t | finite t _ _ _ =>
      obtain rfl : t = .positive := hv
      first | rfl | trivial
  | finite s m e hm =>
    obtain rfl : s = .positive := hu
    cases v with
    | notANumber => trivial
    | infinity t | zero t =>
      obtain rfl : t = .positive := hv
      rfl
    | finite t n f hn =>
      obtain rfl : t = .positive := hv
      exact nonnegative_round _ _ _

/-! ## Decimals -/

/-- A whole number is a double without a minus sign. -/
theorem nonnegative_toFloat (n : UInt64) : Nonnegative (unpack n.toFloat) := by
  refine nonnegative_pack (u := UnpackedFloat.normalize .binary64 n.toNat 0 .positive) ?_
  unfold UnpackedFloat.normalize
  split
  · next h =>
    have hneg := compare_lt_iff_lt.mp h
    omega
  · rfl
  · exact nonnegative_round _ _ _

theorem nonnegative_powers :
    ∀ x ∈ Float.exactlyRepresentablePowersOfTen.toList, (Decimal.decode x).isNegative = false := by
  decide +kernel

theorem nonnegative_ofScientific (m : Nat) (e : Int) :
    Nonnegative (UnpackedFloat.ofScientific .binary64 m e) := by
  unfold UnpackedFloat.ofScientific
  split
  · rfl
  · split
    · rfl
    · split
      · rfl
      · split
        · exact nonnegative_mul rfl rfl
        · exact nonnegative_div rfl rfl

theorem isNegative_ofScientific (m : Nat) (s : Bool) (e : Nat) :
    (Decimal.decode (Float.ofScientific m s e)).isNegative = false := by
  rw [decode_eq, ← nonnegative_iff]
  unfold Float.ofScientific
  split
  · next h =>
    have hbound : e < Float.exactlyRepresentablePowersOfTen.size := Nat.lt_succ_of_le h.2
    have hpower : Nonnegative (unpack Float.exactlyRepresentablePowersOfTen[e]) := by
      rw [nonnegative_iff, ← decode_eq]
      exact nonnegative_powers _ (Array.getElem_mem_toList _)
    dsimp only
    split
    · exact nonnegative_pack (nonnegative_div (nonnegative_toFloat _) hpower)
    · exact nonnegative_pack (nonnegative_mul (nonnegative_toFloat _) hpower)
  · exact nonnegative_pack (nonnegative_ofScientific m _)

end Double

namespace Decimal

/-- What is read from digits has no minus sign. -/
theorem isNegative_positional (whole fraction : List Char) :
    (decode (positional whole fraction)).isNegative = false := by
  rw [positional, nearest]
  split
  · decide
  · split
    · decide
    · split
      · decide
      · exact Double.isNegative_ofScientific _ _ _

end Decimal

end DiceNotation
