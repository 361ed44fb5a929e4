/-
  DiceNotation.Formula.Error

  Why a formula is malformed.

  A syntax error names the formula, the stretch of it that is at fault, and the
  fault. An error found in the terms of a formula knows the text of the culprit
  only, and points at its first occurrence.
-/

import DiceNotation.Text.Bytes
import DiceNotation.Text.Numeral
import DiceNotation.Text.Quoted

namespace DiceNotation.Formula

-- ============================================================================
-- Faults
-- ============================================================================

/-- What is wrong with a formula. -/
inductive Fault where
  | unexpectedToken (found : String) (expected : List String)
  | unexpectedEnd (expected : List String)
  | unrecognizedInput
  | emptyFlavor
  | invalidModifier (chunk : String)
  | invalidDice (reason : String)
  | unbalancedParenthesis
  | missingOperand
  | missingOperator
  | emptyPool
  deriving DecidableEq, Repr

/-- A choice in words: commas between three or more, and the last after an `or`. -/
def alternatives : List String → String
  | [] => "nothing"
  | [a] => a
  | [a, b] => a ++ " or " ++ b
  | many => String.intercalate ", " many.dropLast ++ ", or " ++ many.getLastD ""

/-- The wording of a fault. -/
def Fault.message : Fault → String
  | unexpectedToken found expected =>
    "unexpected token: found " ++ found ++ ", expected " ++ alternatives expected
  | unexpectedEnd expected => "unexpected end of formula, expected " ++ alternatives expected
  | unrecognizedInput => "unrecognized input"
  | emptyFlavor => "flavor text cannot be empty"
  | invalidModifier chunk => "invalid modifier " ++ Text.quoted chunk
  | invalidDice reason => "invalid dice term: " ++ reason
  | unbalancedParenthesis => "unbalanced parenthesis"
  | missingOperand => "operator is missing an operand"
  | missingOperator => "two terms are not joined by an operator"
  | emptyPool => "dice pools need at least one term"

-- ============================================================================
-- Syntax errors
-- ============================================================================

/-- A malformed formula. -/
structure SyntaxError where
  formula : String
  fragment : String
  span : Text.Span
  fault : Fault
  deriving DecidableEq, Repr

namespace SyntaxError

/-- The error at a span of a formula. The fragment is empty if the span does not lie
    between characters of the formula. -/
def atSpan (formula : List Char) (span : Text.Span) (fault : Fault) : SyntaxError :=
  { formula := String.ofList formula
    fragment := String.ofList ((Text.slice? formula span).getD [])
    span
    fault }

/-- The error at the first occurrence of a fragment, or at the end of the formula if the
    fragment does not occur. -/
def atFragment (formula fragment : String) (fault : Fault) : SyntaxError :=
  let cs := formula.toList
  let start := (Text.find? fragment.toList cs).getD (Text.byteLength cs)
  { formula
    fragment
    span := ⟨start, start + Text.byteLength fragment.toList⟩
    fault }

/-- The wording of a syntax error. -/
def message (e : SyntaxError) : String :=
  "cannot parse formula " ++ Text.quoted e.formula ++ " (at position " ++
    Text.natText e.span.start ++ ", " ++ Text.quoted e.fragment ++ "): " ++ e.fault.message

end SyntaxError

end DiceNotation.Formula
