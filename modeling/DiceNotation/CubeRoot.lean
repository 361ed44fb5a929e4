/-
  DiceNotation.CubeRoot

  Cube roots.

  `rootBelow` finds the cube root of a natural number, rounded down, bit by bit
  from the highest one. The cube root of a double is the double nearest to the
  exact root: the number is brought to a mantissa with a root of some sixty bits
  and an exponent that three divides, and one more bit says whether the root was
  rounded.
-/

import DiceNotation.Decimal.Binary

namespace DiceNotation.CubeRoot

-- ============================================================================
-- Natural numbers
-- ============================================================================

/-- The cube of a number. -/
def cube (n : Nat) : Nat := n * n * n

/-- Completes a cube root that is known down to some bits: adds each bit that leaves the
    cube no greater than `n`. -/
def complete (n : Nat) : (bits known : Nat) → Nat
  | 0, known => known
  | bits + 1, known =>
    if cube (known + 1 <<< bits) ≤ n then complete n bits (known + 1 <<< bits)
    else complete n bits known

/-- The cube root of a number below `2 ^ (3 * bits)`, rounded down. -/
def rootBelow (bits n : Nat) : Nat := complete n bits 0

-- ============================================================================
-- Doubles
-- ============================================================================

/-- The double nearest to the cube root of a double. -/
def nearest (x : Float) : Float :=
  match Decimal.decode x with
  | .finite b =>
    if b.mantissa == 0 then x
    else
      let shift : Nat := 180 + (b.exponent % 3).toNat
      let scaled := b.mantissa <<< shift
      let root := rootBelow 79 scaled
      let sticky := if cube root == scaled then 0 else 1
      let place := (b.exponent - shift) / 3 - 1
      let y := (Float.ofNat (2 * root + sticky)).scaleB place
      if b.negative then -y else y
  | _ => x

end DiceNotation.CubeRoot
