/-
  DiceNotation.Number

  The numbers that formulas work with.

  A number is a whole number of 64 bits or a double. Sums, differences and
  products of whole numbers stay whole until they leave the 64 bits; a quotient
  stays whole if there is no remainder. A double that an operation gives is made
  whole again when it has no fraction and fits, except where it stands for a
  whole result that did not fit.
-/

import DiceNotation.Decimal.Layout
import DiceNotation.Json.Basic
import DiceNotation.Operator

namespace DiceNotation

-- ============================================================================
-- Doubles and whole numbers
-- ============================================================================

/-- The double without its fraction. -/
def truncated (x : Float) : Float := if x < 0.0 then x.ceil else x.floor

/-- Whether a double is a whole number of 64 bits. -/
def isWhole (x : Float) : Bool :=
  match Decimal.decode x with
  | .finite b => b.isWhole && Text.fitsInt64 b.whole
  | _ => false

/-- The whole number next to a double on the side of zero, kept within 64 bits; zero
    for a double that is no number. -/
def wholePart (x : Float) : Int :=
  match Decimal.decode x with
  | .finite b => max Text.minInt64 (min Text.maxInt64 b.whole)
  | .infinite negative => if negative then Text.minInt64 else Text.maxInt64
  | .nan => 0

/-- The remainder of a division of doubles that rounds toward zero. It has the sign of
    the dividend and is exact: both operands are multiples of the smaller of their two
    binary places. -/
def remainder (x y : Float) : Float :=
  match Decimal.decode x, Decimal.decode y with
  | .finite a, .finite b =>
    if b.mantissa == 0 then 0.0 / 0.0
    else
      let place := min a.exponent b.exponent
      let dividend := a.mantissa * Nat.pow 2 (a.exponent - place).toNat
      let divisor := b.mantissa * Nat.pow 2 (b.exponent - place).toNat
      let r := (Float.ofNat (dividend % divisor)).scaleB place
      if a.negative then -r else r
  | .finite _, .infinite _ => x
  | _, _ => 0.0 / 0.0

-- ============================================================================
-- Numbers
-- ============================================================================

/-- A whole number of 64 bits or a double. -/
inductive Number where
  | int (value : Int)
  | float (value : Float)
  deriving Inhabited

/-- A division or remainder by zero. -/
inductive DivisionError where
  | byZero
  deriving DecidableEq, Repr

namespace Number

/-- The number zero. -/
def zero : Number := int 0

/-- The nearest double. -/
def toFloat : Number → Float
  | int n => Float.ofInt n
  | float x => x

/-- The whole part, kept within 64 bits. -/
def toInt : Number → Int
  | int n => n
  | float x => wholePart x

/-- The whole number that a number is, if it is one of 64 bits. -/
def whole? : Number → Option Int
  | int n => some n
  | float x => if isWhole x then some (wholePart x) else none

/-- The number that a double is, whole if it can be. -/
def ofFloat (x : Float) : Number := if isWhole x then int (wholePart x) else float x

/-- The exact whole number if it has 64 bits, and the given double otherwise. -/
def fitted (exact : Int) (widened : Float) : Number :=
  if Text.fitsInt64 exact then int exact else float widened

-- ============================================================================
-- Comparison
-- ============================================================================

/-- Whether two numbers are equal; a double that is no number equals none. -/
def eq : Number → Number → Bool
  | int m, int n => m == n
  | a, b => a.toFloat == b.toFloat

instance : BEq Number := ⟨eq⟩

/-- Whether a number is less than another. -/
def lt : Number → Number → Bool
  | int m, int n => m < n
  | a, b => a.toFloat < b.toFloat

/-- The order of two numbers, if they have one. -/
def compare? (a b : Number) : Option Ordering :=
  if a.lt b then some .lt
  else if b.lt a then some .gt
  else if a.eq b then some .eq
  else none

-- ============================================================================
-- Arithmetic
-- ============================================================================

/-- The number with the opposite sign. -/
def neg : Number → Number
  | int n => fitted (-n) (-(Float.ofInt n))
  | float x => float (-x)

/-- The sum of two numbers. -/
def add : Number → Number → Number
  | int m, int n => fitted (m + n) (Float.ofInt m + Float.ofInt n)
  | a, b => ofFloat (a.toFloat + b.toFloat)

/-- The difference of two numbers. -/
def sub : Number → Number → Number
  | int m, int n => fitted (m - n) (Float.ofInt m - Float.ofInt n)
  | a, b => ofFloat (a.toFloat - b.toFloat)

/-- The product of two numbers. -/
def mul : Number → Number → Number
  | int m, int n => fitted (m * n) (Float.ofInt m * Float.ofInt n)
  | a, b => ofFloat (a.toFloat * b.toFloat)

/-- The quotient of two numbers. -/
def div (a b : Number) : Except DivisionError Number :=
  if b.eq zero then .error .byZero
  else match a, b with
    | int m, int n =>
      if m.tmod n == 0 && Text.fitsInt64 (m.tdiv n) then .ok (int (m.tdiv n))
      else .ok (ofFloat (Float.ofInt m / Float.ofInt n))
    | _, _ => .ok (ofFloat (a.toFloat / b.toFloat))

/-- The remainder of a division that rounds toward zero. -/
def rem (a b : Number) : Except DivisionError Number :=
  if b.eq zero then .error .byZero
  else match a, b with
    | int m, int n => .ok (int (m.tmod n))
    | _, _ => .ok (ofFloat (remainder a.toFloat b.toFloat))

/-- The result of an operator. -/
def apply (a : Number) (op : Operator) (b : Number) : Except DivisionError Number :=
  match op with
  | .add => .ok (a.add b)
  | .sub => .ok (a.sub b)
  | .mul => .ok (a.mul b)
  | .div => a.div b
  | .rem => a.rem b

/-- The sum of a list of numbers. -/
def sum (ns : List Number) : Number := ns.foldl add zero

-- ============================================================================
-- Text and documents
-- ============================================================================

/-- The characters of a number. -/
def chars : Number → List Char
  | int n => Text.intChars n
  | float x => Decimal.plain.renderChars x

/-- The text of a number. -/
def text (n : Number) : String := String.ofList n.chars

/-- A number in a document. -/
def toJson : Number → Json
  | int n => .int n
  | float x => .float x

/-- The number in a document. A whole number beyond 64 signed bits is a double. -/
def ofJson? : Json → Option Number
  | .int n => some (if Text.fitsInt64 n then int n else float (Float.ofInt n))
  | .float x => some (float x)
  | _ => none

-- ============================================================================
-- Exactness
-- ============================================================================

/-- Sums of whole numbers are exact while they fit. -/
theorem add_int {m n : Int} (h : Text.fitsInt64 (m + n) = true) :
    (int m).add (int n) = int (m + n) := by
  simp [add, fitted, h]

/-- Differences of whole numbers are exact while they fit. -/
theorem sub_int {m n : Int} (h : Text.fitsInt64 (m - n) = true) :
    (int m).sub (int n) = int (m - n) := by
  simp [sub, fitted, h]

/-- Products of whole numbers are exact while they fit. -/
theorem mul_int {m n : Int} (h : Text.fitsInt64 (m * n) = true) :
    (int m).mul (int n) = int (m * n) := by
  simp [mul, fitted, h]

end Number

end DiceNotation
