/-
  DiceNotation.Denomination

  The kinds of dice.

  A die has a number of faces, a coin the two values 0 and 1, and a fate die the
  three values -1, 0 and 1. A random source picks a face, counted from one;
  `valueOf` is what the die shows for it.
-/

import DiceNotation.Text.Numeral
import DiceNotation.Text.Quoted

namespace DiceNotation

/-- The kind of a die. -/
inductive Denomination where
  /-- A die whose faces are numbered from one. -/
  | die (faces : Nat)
  /-- A coin, 0 for tails and 1 for heads. -/
  | coin
  /-- A fate die. -/
  | fate
  deriving DecidableEq, Repr

namespace Denomination

/-- How many faces a random source has to pick from. -/
def faces : Denomination → Nat
  | die n => n
  | coin => 2
  | fate => 3

/-- The value that a face shows. -/
def valueOf : Denomination → Nat → Int
  | die _, face => face
  | coin, face => face - 1
  | fate, face => face - 2

/-- The least value. -/
def least (d : Denomination) : Int := d.valueOf 1

/-- The greatest value. -/
def greatest (d : Denomination) : Int := d.valueOf d.faces

/-- Whether a value can come up. -/
def canShow (d : Denomination) (value : Int) : Bool := d.least ≤ value && value ≤ d.greatest

/-- The class that stands for a denomination in records. -/
def className : Denomination → String
  | die _ => "Die"
  | coin => "Coin"
  | fate => "FateDie"

/-- The written form of a denomination. -/
def text : Denomination → String
  | die n => "d" ++ Text.natText n
  | coin => "dc"
  | fate => "df"

-- ============================================================================
-- Reading
-- ============================================================================

/-- The denomination whose letter or number of faces a text gives. -/
def ofFaces? (cs : List Char) : Option Denomination :=
  match cs with
  | ['c'] | ['C'] => some coin
  | ['f'] | ['F'] => some fate
  | _ =>
    match Text.nat32? cs with
    | some (n + 1) => some (die (n + 1))
    | _ => none

/-- The denomination that a text such as `d20` names. -/
def ofChars? : List Char → Option Denomination
  | 'd' :: rest | 'D' :: rest => ofFaces? rest
  | _ => none

/-- What is said of faces that are none. -/
def refusal (faces : List Char) : String :=
  "'" ++ String.ofList faces ++ "' is not a valid die denomination"

-- ============================================================================
-- Values
-- ============================================================================

/-- Every face of a denomination shows a value that can come up. -/
theorem canShow_valueOf {d : Denomination} {face : Nat} (hlow : 1 ≤ face)
    (hhigh : face ≤ d.faces) : d.canShow (d.valueOf face) = true := by
  have hle : d.least ≤ d.valueOf face ∧ d.valueOf face ≤ d.greatest := by
    cases d <;> simp only [faces] at hhigh <;> simp only [least, greatest, valueOf, faces] <;> omega
  simpa [canShow] using hle

end Denomination

end DiceNotation
