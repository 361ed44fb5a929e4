/-
  DiceNotation.Decimal.Layout

  How the digits of a double are laid out as text.

  A `Layout` holds the decisions of one output format; `Layout.render` writes a
  double by them. `plain` is the layout of numbers in formulas and messages.
-/

import DiceNotation.Decimal.Shortest
import DiceNotation.Text.Numeral

namespace DiceNotation.Decimal

/-- The decisions of an output format. The exponent of a number is that of its first
    digit, so that the number is `d.ddd · 10^exponent`. -/
structure Layout where
  /-- Which of two equally near decimals gives the digits. -/
  tie : Tie
  /-- Exponents written in positional notation; `none` means all of them. -/
  positional : Option (Int × Int)
  /-- Whether a whole number in positional notation ends in `.0`. -/
  pointZero : Bool
  /-- What stands for a number that is not one, and for the infinities. -/
  nan : String
  infinity : String

/-- Zeros, as many as `n`. -/
def zeros (n : Nat) : List Char := List.replicate n '0'

namespace Layout

/-- Digits in positional notation, where `exponent` is that of the first digit. -/
def positionalText (l : Layout) (digits : List Char) (exponent : Int) : List Char :=
  if exponent < 0 then
    '0' :: '.' :: (zeros (-exponent - 1).toNat ++ digits)
  else
    let whole := exponent.toNat + 1
    if digits.length ≤ whole then
      digits ++ zeros (whole - digits.length) ++ (if l.pointZero then ['.', '0'] else [])
    else
      digits.take whole ++ '.' :: digits.drop whole

/-- Digits with an exponent, which always has a sign unless it is that of a number
    below one, whose minus sign it is. -/
def exponentText (digits : List Char) (exponent : Int) : List Char :=
  let fraction := digits.drop 1
  let mantissa := digits.take 1 ++ (if fraction.isEmpty then [] else '.' :: fraction)
  let sign := if exponent < 0 then '-' else '+'
  mantissa ++ 'e' :: sign :: Text.natChars exponent.natAbs

/-- The digits of a finite double and the exponent of the first one. -/
def leading (l : Layout) (b : Binary) : List Char × Int :=
  let s := shortest l.tie b
  let digits := Text.natChars s.digits
  (digits, s.exponent + digits.length - 1)

/-- A finite double without its sign. -/
def magnitude (l : Layout) (b : Binary) : List Char :=
  let (digits, exponent) := l.leading b
  let isPositional := match l.positional with
    | none => true
    | some (least, greatest) => least ≤ exponent && exponent ≤ greatest
  if b.mantissa == 0 || isPositional then l.positionalText digits exponent
  else exponentText digits exponent

/-- The characters of a double. -/
def renderChars (l : Layout) (x : Float) : List Char :=
  match decode x with
  | .nan => l.nan.toList
  | .infinite negative => (if negative then ['-'] else []) ++ l.infinity.toList
  | .finite b => (if b.negative then ['-'] else []) ++ l.magnitude b

/-- The text of a double. -/
def render (l : Layout) (x : Float) : String := String.ofList (l.renderChars x)

end Layout

/-- Numbers in formulas and messages: always positional, without a point when they are
    whole, and a tie goes up. -/
def plain : Layout := ⟨.up, none, false, "NaN", "inf"⟩

example : plain.render 2.5 = "2.5" := by decide +kernel
example : plain.render 1e21 = "1000000000000000000000" := by decide +kernel
example : plain.render (-0.0) = "-0" := by decide +kernel
example : plain.render 5e-7 = "0.0000005" := by decide +kernel

end DiceNotation.Decimal
