/-
  DiceNotation.Evaluation.Roll

  Evaluating rolls.

  First the function calls and parentheses of a roll give way to their values,
  then the row is simplified, the terms that are left are evaluated, and the
  operators combine their values. A roll that was evaluated once is not evaluated
  again. Nothing of a roll changes unless all of this succeeds.

  Simplifying may read new terms out of fragments of text. `Roll.depth` bounds how
  deep rolls lie inside one another all the same: a term that is read out of a text
  has a roll inside it only where the text has a bracket, or a minus sign that puts
  its operand in parentheses.
-/

import DiceNotation.Evaluation.Term
import DiceNotation.Roll.Simplify
import DiceNotation.Roll.Total

namespace DiceNotation

-- ============================================================================
-- Depth
-- ============================================================================

/-- How deep rolls may lie inside what is read out of a text: a level for each bracket that
    opens and for each minus sign, except a minus sign right behind an opening parenthesis.
    `opened` says whether such a parenthesis stands before the text. -/
def nesting : (opened : Bool) → List Char → Nat
  | _, [] => 0
  | opened, c :: cs =>
    (if c == '(' || c == '\x7b' || c == '-' && !opened then 1 else 0) + nesting (c == '(') cs

/-- How deep rolls may lie inside what is read out of a text that a term is part of. A term
    that gives way to its value brings a minus sign at most. -/
def Term.nesting (opened : Bool) (t : Term) : Nat :=
  if t.operator?.isSome then 0
  else if t.isIntermediate then 1
  else DiceNotation.nesting opened t.fragment.toList

/-- How deep rolls may lie inside what is read out of the texts of terms in a row. -/
def Term.nestingOfAll : (opened : Bool) → List Term → Nat
  | _, [] => 0
  | opened, t :: rest => t.nesting opened + Term.nestingOfAll false rest

mutual

/-- A bound for how deep rolls lie inside a roll while it is evaluated. -/
def Roll.depth : Roll → Nat
  | ⟨_, _, _, terms, _, _, _⟩ =>
    max (Term.depthOfAll terms) (Term.nestingOfAll true terms) + 1

/-- The depth of the rolls inside a term. -/
def Term.depth : Term → Nat
  | .pool _ rolls => Roll.depthOfAll rolls
  | .function _ _ rolls _ _ => Roll.depthOfAll rolls
  | .parenthetical _ roll _ => roll.depth
  | _ => 0

/-- The greatest depth of terms. -/
def Term.depthOfAll : List Term → Nat
  | [] => 0
  | t :: rest => max t.depth (Term.depthOfAll rest)

/-- The greatest depth of rolls. -/
def Roll.depthOfAll : List Roll → Nat
  | [] => 0
  | r :: rest => max r.depth (Roll.depthOfAll rest)

end

-- ============================================================================
-- Evaluation
-- ============================================================================

namespace Evaluation

/-- Refuses terms that are left to chance when the options are strict. -/
def refuseChance (o : EvaluationOptions) (terms : List Term) : Except RollError Unit :=
  if o.strict && !o.isPinned then
    match terms.find? fun t => !t.isDeterministic with
    | some t => .error (.synchronous t.formula)
    | none => .ok ()
  else .ok ()

/-- Evaluates a roll, where `nested` evaluates those inside it. -/
def rollWith (s : Setting) (nested : Nested) (r : Roll) : Evaluation (Roll × Number) := do
  if r.evaluated then throw .alreadyEvaluated
  let (row, collapsed) ← collapse s nested r.terms
  let row := Term.simplify row
  if s.synchronous then liftExcept (refuseChance s.options row)
  let row ← terms s nested row
  let total ← liftExcept (Term.totalOf r.formula row)
  return ({ r with
      terms := row
      total := some total
      evaluated := true
      collapsed := r.collapsed ++ collapsed }, total)
where
  /-- An outcome as an evaluation. -/
  liftExcept {α : Type} (x : Except RollError α) : Evaluation α := ExceptT.mk (.done x)

/-- Evaluates a roll with rolls inside it down to a depth. The depth of a roll is never used
    up while the roll is evaluated (`roll_eq`). -/
def rollWithin (s : Setting) : Nat → Nested
  | 0 => fun _ => throw .tooManyRolls
  | depth + 1 => rollWith s (rollWithin s depth)

/-- Evaluates a roll. -/
def roll (s : Setting) (r : Roll) : Evaluation (Roll × Number) := rollWithin s r.depth r

end Evaluation

end DiceNotation
