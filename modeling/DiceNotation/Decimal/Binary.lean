/-
  DiceNotation.Decimal.Binary

  A double as an exact binary number.

  A finite double is `mantissa · 2^exponent` with a sign, where the mantissa is a
  natural number below `2^53`. `decode` takes the number out of the 64 bits;
  everything that is said about decimal digits is said about mantissa and
  exponent.
-/

namespace DiceNotation.Decimal

/-- The number `mantissa · 2^exponent`, negated when `negative` is set. -/
structure Binary where
  negative : Bool
  mantissa : Nat
  exponent : Int
  deriving DecidableEq, Repr

/-- What a double stands for. -/
inductive Decoded where
  | nan
  | infinite (negative : Bool)
  | finite (value : Binary)
  deriving DecidableEq, Repr

/-- The number that a double stands for, read off its bits: one bit of sign, eleven
    of exponent and fifty-two of fraction. -/
def decode (x : Float) : Decoded :=
  let bits := x.toBits.toNat
  let negative := bits / Nat.pow 2 63 == 1
  let biased : Nat := bits / Nat.pow 2 52 % Nat.pow 2 11
  let fraction : Nat := bits % Nat.pow 2 52
  if biased == Nat.pow 2 11 - 1 then
    if fraction == 0 then .infinite negative else .nan
  else if biased == 0 then
    .finite ⟨negative, fraction, -1074⟩
  else
    .finite ⟨negative, Nat.pow 2 52 + fraction, Int.ofNat biased - 1075⟩

/-- Whether the neighbour below a number is nearer than the one above. It is so at a
    power of two, the least normal number excepted. -/
def Binary.narrowBelow (b : Binary) : Bool :=
  b.mantissa == Nat.pow 2 52 && -1074 < b.exponent

/-- The whole number next to a number on the side of zero. -/
def Binary.whole (b : Binary) : Int :=
  let magnitude : Int :=
    Int.ofNat (b.mantissa * Nat.pow 2 b.exponent.toNat / Nat.pow 2 (-b.exponent).toNat)
  if b.negative then -magnitude else magnitude

/-- Whether a number has no fraction. -/
def Binary.isWhole (b : Binary) : Bool := b.mantissa % Nat.pow 2 (-b.exponent).toNat == 0

example : decode 0.0 = .finite ⟨false, 0, -1074⟩ := by decide
example : decode 1.0 = .finite ⟨false, Nat.pow 2 52, -52⟩ := by decide
example : decode (-0.5) = .finite ⟨true, Nat.pow 2 52, -53⟩ := by decide

end DiceNotation.Decimal
