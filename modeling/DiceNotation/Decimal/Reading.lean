/-
  DiceNotation.Decimal.Reading

  Doubles read from decimal digits.

  `nearest` gives the double next to `digits · 10^exponent`, as formulas are
  read. `scaled` is the cheaper reading of JSON documents: the digits become a
  double first and are then multiplied or divided by one power of ten, so that
  the last place may be off; a number beyond the doubles is refused.
-/

namespace DiceNotation.Decimal

-- ============================================================================
-- Digits
-- ============================================================================

/-- The number that decimal digits stand for. -/
def ofDigits (cs : List Char) : Nat :=
  cs.foldl (fun acc c => 10 * acc + (c.toNat - '0'.toNat)) 0

/-- Adds digits to a number as long as it stays within `limit`; the digits from the
    first that would pass it on are left. -/
def takeDigits (limit : Nat) : Nat → List Char → Nat × List Char
  | acc, [] => (acc, [])
  | acc, c :: rest =>
    let next := 10 * acc + (c.toNat - '0'.toNat)
    if next ≤ limit then takeDigits limit next rest else (acc, c :: rest)

-- ============================================================================
-- Nearest double
-- ============================================================================

/-- The double nearest to `digits · 10^exponent`. Numbers far beyond the doubles are
    infinite and numbers far below them zero, whatever their digits. -/
def nearest (digits : Nat) (exponent : Int) : Float :=
  let places : Int := (Nat.toDigits 10 digits).length
  if digits == 0 then 0.0
  else if 400 < places + exponent then 1.0 / 0.0
  else if places + exponent < -400 then 0.0
  else Float.ofScientific digits (exponent < 0) exponent.natAbs

/-- The double nearest to a number in positional notation: digits before the point
    and digits after it. -/
def positional (whole fraction : List Char) : Float :=
  nearest (ofDigits (whole ++ fraction)) (-(fraction.length : Int))

-- ============================================================================
-- Scaled doubles
-- ============================================================================

/-- A power of ten as a double; its exponent is at most 308. -/
def powerOfTen (n : Nat) : Float := Float.ofScientific 1 false n

/-- Multiplies or divides by a power of ten; below `10^-308` the division takes
    several steps, `fuel` of them at most. -/
def scaleBy : Nat → Float → Int → Option Float
  | fuel, x, exponent =>
    if exponent.natAbs ≤ 308 then
      if 0 ≤ exponent then
        let y := x * powerOfTen exponent.natAbs
        if y.isInf then none else some y
      else some (x / powerOfTen exponent.natAbs)
    else if x == 0.0 then some x
    else if 0 ≤ exponent then none
    else match fuel with
      | 0 => some 0.0
      | fuel + 1 => scaleBy fuel (x / powerOfTen 308) (exponent + 308)

/-- Reads `significand · 10^exponent`, where the significand has 64 bits; `none` when
    the number is beyond the doubles. -/
def scaled (significand : Nat) (exponent : Int) : Option Float :=
  scaleBy 4 significand.toUInt64.toFloat exponent

end DiceNotation.Decimal
