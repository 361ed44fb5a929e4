/-
  DiceNotation.Error

  What can go wrong with a roll.
-/

import DiceNotation.Formula.Error
import DiceNotation.Infix.Tree

namespace DiceNotation

-- ============================================================================
-- Evaluation errors
-- ============================================================================

/-- Why terms have no value. -/
inductive EvaluationError where
  /-- A text fragment that is no term. -/
  | unresolved (term : String)
  | divisionByZero
  | unknownFunction (name : String)
  | invalidArguments (function reason : String)
  /-- An item of a pool that comes to no whole number. -/
  | nonIntegerPoolResult
  | unevaluated (term : String)
  /-- The roll was abandoned while dice were waited for. -/
  | cancelled
  deriving DecidableEq, Repr

/-- The wording of an evaluation error. -/
def EvaluationError.message : EvaluationError → String
  | unresolved term => "unresolved term " ++ Text.quoted term ++ " in roll formula"
  | divisionByZero => "cannot divide by zero"
  | unknownFunction name => "unknown roll function " ++ Text.quoted name
  | invalidArguments function reason => "invalid arguments to " ++ function ++ ": " ++ reason
  | nonIntegerPoolResult => "dice pool results must be whole numbers"
  | unevaluated term => "term " ++ Text.quoted term ++ " has not been evaluated"
  | cancelled => "the roll was abandoned before all of its dice were fulfilled"

-- ============================================================================
-- Record errors
-- ============================================================================

/-- Why a record is no roll. -/
inductive RecordError where
  /-- The text is no document, or the document lacks the form of a record. -/
  | malformed
  | unexpectedClass (found : String)
  | invalidModifier (text : String)
  | noFaces
  | notDice (formula : String)
  deriving DecidableEq, Repr

/-- The class of the records of rolls. -/
def rollClass : String := "Roll"

/-- The wording of a record error, without what comes before it. -/
def RecordError.message : RecordError → String
  | malformed => "malformed record"
  | unexpectedClass found =>
    "expected class " ++ Text.quoted rollClass ++ ", found " ++ Text.quoted found
  | invalidModifier text => "invalid modifier " ++ Text.quoted text
  | noFaces => "dice need at least one face"
  | notDice formula => formula ++ " is not a dice term"

-- ============================================================================
-- Roll errors
-- ============================================================================

/-- What can go wrong with a roll. -/
inductive RollError where
  | malformedFormula (error : Formula.SyntaxError)
  | evaluation (error : EvaluationError)
  | alreadyEvaluated
  /-- A term would have to be rolled or waited for. -/
  | synchronous (term : String)
  | tooManyRolls
  | record (error : RecordError)
  deriving DecidableEq, Repr

/-- The wording of a roll error. -/
def RollError.message : RollError → String
  | malformedFormula error => error.message
  | evaluation error => error.message
  | alreadyEvaluated => "this roll has already been evaluated and is now immutable"
  | synchronous term =>
    Text.quoted term ++ " cannot be evaluated synchronously; evaluate it asynchronously or " ++
      "pass minimize or maximize"
  | tooManyRolls => "too many dice rolled"
  | record error => "invalid roll data: " ++ error.message

/-- The error of a division, as one of a roll. -/
def RollError.ofDivision : DivisionError → RollError
  | .byZero => .evaluation .divisionByZero

/-- The fault of a formula whose items do not alternate. -/
def Formula.Fault.ofInfix : Infix.Tree.Fault → Formula.Fault
  | .missingOperand => .missingOperand
  | .missingOperator => .missingOperator

end DiceNotation
