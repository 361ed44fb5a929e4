/-
  DiceNotation.Comparison

  Comparisons of results with a target, and the conditions made of them.
-/

import DiceNotation.Text.Numeral

namespace DiceNotation

-- ============================================================================
-- Comparisons
-- ============================================================================

/-- How a result is compared with a target. -/
inductive Comparison where
  | equal
  | less
  | atMost
  | greater
  | atLeast
  deriving DecidableEq, Repr

namespace Comparison

/-- Whether a value stands in a comparison to a target. -/
def holds : Comparison → Int → Int → Bool
  | equal, value, target => value == target
  | less, value, target => value < target
  | atMost, value, target => value ≤ target
  | greater, value, target => target < value
  | atLeast, value, target => target ≤ value

/-- The written form of a comparison. -/
def text : Comparison → String
  | equal => "="
  | less => "<"
  | atMost => "<="
  | greater => ">"
  | atLeast => ">="

/-- The comparison that a text stands for; equality may be written twice. -/
def ofChars? : List Char → Option Comparison
  | ['='] | ['=', '='] => some equal
  | ['<'] => some less
  | ['<', '='] => some atMost
  | ['>'] => some greater
  | ['>', '='] => some atLeast
  | _ => none

/-- Each comparison is the one of its written form. -/
theorem ofChars?_text (c : Comparison) : ofChars? c.text.toList = some c := by
  cases c <;> decide

end Comparison

-- ============================================================================
-- Conditions
-- ============================================================================

/-- A comparison with a target, such as `>=5`. -/
structure Condition where
  comparison : Comparison
  target : Int
  deriving DecidableEq, Repr

namespace Condition

/-- Whether a value meets a condition. -/
def holds (c : Condition) (value : Int) : Bool := c.comparison.holds value c.target

/-- The written form of a condition; equality is left out. -/
def text (c : Condition) : String :=
  match c.comparison with
  | .equal => Text.intText c.target
  | other => other.text ++ Text.intText c.target

end Condition

end DiceNotation
