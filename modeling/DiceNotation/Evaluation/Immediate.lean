/-
  DiceNotation.Evaluation.Immediate

  Plans carried out at once.

  Every die is fixed by the options or comes from the roller. Dice whose results
  would have to come from outside are refused.
-/

import DiceNotation.Evaluation.Context

namespace DiceNotation.Plan

variable {σ α : Type} [Roller σ]

/-- The value of a die that is not waited for: fixed by the options, or else rolled. -/
def drawNow (o : EvaluationOptions) (d : Denomination) (c : Context σ) : Int × Context σ :=
  match o.pinnedValue? d with
  | some value => (value, c)
  | none => c.rollDie d

/-- Carries out a plan. -/
def runNow (o : EvaluationOptions) : Plan α → Context σ → α × Context σ
  | done a, c => (a, c)
  | enter dice next, c =>
    let leave := match c.interactiveMethod? o dice with
      | some _ => .error (.synchronous dice.formula)
      | none => .ok none
    (next leave).runNow o c
  | draw d _ next, c =>
    let (tooMany, c) := c.count
    if tooMany then (next (.error .tooManyRolls)).runNow o c
    else
      let (value, c) := drawNow o d c
      (next (.ok value)).runNow o c
  | leave _ next, c => next.runNow o c

end DiceNotation.Plan
