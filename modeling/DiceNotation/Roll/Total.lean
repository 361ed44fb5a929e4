/-
  DiceNotation.Roll.Total

  The total of a row of terms, by the precedence of its operators.
-/

import DiceNotation.Error
import DiceNotation.Roll.Basic

namespace DiceNotation

/-- The value of a term. -/
def Term.valueOf (t : Term) : Except RollError Number :=
  match t.total with
  | some n => .ok n
  | none => .error (.evaluation (.unevaluated t.formula))

/-- The total of the terms of a formula. -/
def Term.totalOf (formula : String) (terms : List Term) : Except RollError Number :=
  match Infix.Tree.ofInfix terms with
  | .ok tree => tree.evaluate Term.valueOf .ofDivision
  | .error e =>
    let fragment := (terms[e.index]?.map Term.formula).getD ""
    .error (.malformedFormula (.atFragment formula fragment (.ofInfix e.fault)))

end DiceNotation
