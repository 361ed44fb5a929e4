/-
  DiceNotation.Operator

  The arithmetic operators between the terms of a formula.
-/

namespace DiceNotation

/-- An arithmetic operator. -/
inductive Operator where
  | add
  | sub
  | mul
  | div
  | rem
  deriving DecidableEq, Repr

namespace Operator

/-- How strongly an operator binds: products bind more strongly than sums. -/
def precedence : Operator → Nat
  | add | sub => 10
  | mul | div | rem => 20

/-- Whether an operator forms sums. -/
def isAdditive : Operator → Bool
  | add | sub => true
  | _ => false

/-- The sign of an operator. -/
def sign : Operator → Char
  | add => '+'
  | sub => '-'
  | mul => '*'
  | div => '/'
  | rem => '%'

/-- The operator with a given sign. -/
def ofSign? (c : Char) : Option Operator :=
  if c == '+' then some add
  else if c == '-' then some sub
  else if c == '*' then some mul
  else if c == '/' then some div
  else if c == '%' then some rem
  else none

/-- The sign of an operator as a text. -/
def text (op : Operator) : String := String.ofList [op.sign]

/-- Each operator is the one of its sign. -/
theorem ofSign?_sign (op : Operator) : ofSign? op.sign = some op := by
  cases op <;> decide

end Operator

end DiceNotation
