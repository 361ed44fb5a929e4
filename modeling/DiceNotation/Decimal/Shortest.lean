/-
  DiceNotation.Decimal.Shortest

  The fewest decimal digits that read back as the same double.

  A positive double stands for all reals that round to it: from half way to the
  neighbour below to half way to the neighbour above, the ends included when the
  mantissa is even. For one digit, two digits, and so on, the two decimals next
  to the double on that grid are tried; the first grid with a decimal in the
  interval gives the digits. Of two such decimals the nearer one is taken, and
  `Tie` says which when both are equally near.

  All comparisons are between natural numbers: a grid step and a quarter of the
  last binary place are both scaled by the same factor.
-/

import DiceNotation.Decimal.Binary

namespace DiceNotation.Decimal

-- ============================================================================
-- Decimals
-- ============================================================================

/-- The number `digits · 10^exponent`. -/
structure Scientific where
  digits : Nat
  exponent : Int
  deriving DecidableEq, Repr

/-- Which of two equally near decimals is taken. -/
inductive Tie where
  /-- The greater one. -/
  | up
  /-- The one whose last digit is even. -/
  | even
  deriving DecidableEq, Repr

/-- The same number without trailing zeros; `fuel` bounds how many are removed. -/
def stripZeros : Nat → Scientific → Scientific
  | 0, s => s
  | fuel + 1, s =>
    if s.digits != 0 && s.digits % 10 == 0 then
      stripZeros fuel ⟨s.digits / 10, s.exponent + 1⟩
    else s

-- ============================================================================
-- The rounding interval on a decimal grid
-- ============================================================================

/-- A quarter of the last binary place and one grid step, both as whole numbers. -/
structure Scale where
  quarter : Nat
  step : Nat

/-- The common scale of a binary number and the grid of multiples of `10^p`. -/
def scaleOf (b : Binary) (p : Int) : Scale :=
  { quarter := Nat.pow 2 (b.exponent - 2).toNat * Nat.pow 10 (-p).toNat
    step := Nat.pow 2 (2 - b.exponent).toNat * Nat.pow 10 p.toNat }

/-- Whether `c` grid steps round to the binary number. -/
def roundsTo (b : Binary) (s : Scale) (c : Nat) : Bool :=
  let low := (4 * b.mantissa - (if b.narrowBelow then 1 else 2)) * s.quarter
  let high := (4 * b.mantissa + 2) * s.quarter
  let point := c * s.step
  if b.mantissa % 2 == 0 then low ≤ point && point ≤ high
  else low < point && point < high

/-- The decimal of the grid that stands for the binary number, if one does: of the two
    next to it the nearer that rounds to it. -/
def onGrid? (tie : Tie) (b : Binary) (p : Int) : Option Scientific :=
  let s := scaleOf b p
  let value := 4 * b.mantissa * s.quarter
  let below := value / s.step
  let above := below + 1
  let lowHit := below != 0 && roundsTo b s below
  let highHit := roundsTo b s above
  let toBelow := value - below * s.step
  let toAbove := above * s.step - value
  if lowHit && highHit then
    if toBelow < toAbove then some ⟨below, p⟩
    else if toAbove < toBelow then some ⟨above, p⟩
    else match tie with
      | .up => some ⟨above, p⟩
      | .even => some ⟨if below % 2 == 0 then below else above, p⟩
  else if lowHit then some ⟨below, p⟩
  else if highHit then some ⟨above, p⟩
  else none

-- ============================================================================
-- Selecting the digits
-- ============================================================================

/-- Whether `10^e` is at most the binary number. -/
def reachesPower (b : Binary) (e : Int) : Bool :=
  Nat.pow 2 (-b.exponent).toNat * Nat.pow 10 e.toNat ≤
    b.mantissa * Nat.pow 2 b.exponent.toNat * Nat.pow 10 (-e).toNat

/-- The exponent of the greatest power of ten that is at most a positive binary number.
    The logarithm to base two gives it up to one. -/
def decimalExponent (b : Binary) : Int :=
  let guess := ((Nat.log2 b.mantissa : Int) + b.exponent) * 30103 / 100000
  if reachesPower b (guess + 1) then guess + 1
  else if reachesPower b guess then guess
  else guess - 1

/-- Tries the grids of `digits`, `digits + 1`, … places, `fuel` of them. -/
def searchGrids (tie : Tie) (b : Binary) (top : Int) : Nat → Nat → Scientific
  | 0, digits => ⟨4 * b.mantissa * (scaleOf b (top - digits)).quarter /
      (scaleOf b (top - digits)).step, top - digits⟩
  | fuel + 1, digits =>
    match onGrid? tie b (top + 1 - digits) with
    | some s => s
    | none => searchGrids tie b top fuel (digits + 1)

/-- The fewest digits that read back as a positive binary number; seventeen always
    suffice. Zero has the digit zero. -/
def shortest (tie : Tie) (b : Binary) : Scientific :=
  if b.mantissa == 0 then ⟨0, 0⟩
  else stripZeros 20 (searchGrids tie b (decimalExponent b) 17 1)

end DiceNotation.Decimal
