/-
  DiceNotation.Evaluation.Term

  Evaluating terms.

  How the rolls inside a term are evaluated is a parameter here. Items of a pool
  have to come to whole numbers, and a function is called once all of its
  arguments have values.
-/

import DiceNotation.Evaluation.Dice
import DiceNotation.Evaluation.Options
import DiceNotation.NumberFunction

namespace DiceNotation

/-- What is fixed while a roll is evaluated. -/
structure Setting where
  options : EvaluationOptions
  functions : FunctionRegistry
  /-- Whether waiting is no option. -/
  synchronous : Bool

namespace Evaluation

/-- A way to evaluate the rolls inside a term. -/
abbrev Nested : Type := Roll → Evaluation (Roll × Number)

/-- Fails with an evaluation error. -/
def fail {α : Type} (e : EvaluationError) : Evaluation α := throw (.evaluation e)

-- ============================================================================
-- Pools and arguments
-- ============================================================================

/-- Evaluates the items of a pool. -/
def items (nested : Nested) : List Roll → Evaluation (List (Roll × Int))
  | [] => return []
  | r :: rest => do
    let (r, total) ← nested r
    match total.whole? with
    | none => fail .nonIntegerPoolResult
    | some value => do
      let more ← items nested rest
      return (r, value) :: more

/-- Evaluates the arguments of a function. -/
def arguments (nested : Nested) : List Roll → Evaluation (List (Roll × Number))
  | [] => return []
  | r :: rest => do
    let evaluated ← nested r
    let more ← arguments nested rest
    return evaluated :: more

/-- Carries out the modifiers of a pool. The range of one result is that of all. -/
def settle (ms : List Modifier) (rs : List DieResult) : List DieResult :=
  let values := rs.map (·.result)
  let least := values.min?.getD 0
  let greatest := values.max?.getD 0
  ms.foldl (fun rs m => m.effect.apply least greatest rs) rs

-- ============================================================================
-- Terms
-- ============================================================================

/-- Evaluates a term. -/
def term (s : Setting) (nested : Nested) : Term → Evaluation Term
  | .numeric n a => return .numeric n a
  | .operator op a => return .operator op a
  | .dice d => do
    let d ← dice s.options.isPinned d
    return .dice d
  | .pool p rolls => do
    if p.evaluated then throw .alreadyEvaluated
    let evaluated ← items nested rolls
    let results := settle p.modifiers (p.results ++ evaluated.map fun (_, v) => .fresh v)
    return .pool { p with results, evaluated := true } (evaluated.map Prod.fst)
  | .function name texts rolls result a => do
    if result.isSome then throw .alreadyEvaluated
    let evaluated ← arguments nested rolls
    match s.functions.call name (evaluated.map Prod.snd) with
    | .ok result => return .function name texts (evaluated.map Prod.fst) (some result) a
    | .error e => fail e
  | .parenthetical text roll a => do
    let (roll, _) ← nested roll
    return .parenthetical text roll a
  | .text content a _ =>
    if s.options.allowStrings then return .text content a true else fail (.unresolved content)

/-- Evaluates a term that has not been evaluated. -/
def pendingTerm (s : Setting) (nested : Nested) (t : Term) : Evaluation Term :=
  if t.isEvaluated then pure t else term s nested t

/-- Evaluates the terms of a row that have not been evaluated. -/
def terms (s : Setting) (nested : Nested) : List Term → Evaluation (List Term)
  | [] => return []
  | t :: rest => do
    let t ← pendingTerm s nested t
    let more ← terms s nested rest
    return t :: more

/-- Evaluates the function calls and parentheses of a row and replaces them by their
    values. Gives the dice that were inside them, too. -/
def collapse (s : Setting) (nested : Nested) : List Term → Evaluation (List Term × List Dice)
  | [] => return ([], [])
  | t :: rest => do
    if t.isIntermediate then
      let t ← pendingTerm s nested t
      match t.total with
      | none => fail (.unevaluated t.formula)
      | some total => do
        let (more, dice) ← collapse s nested rest
        return (.numeric total t.annotations :: more, t.heldDice ++ dice)
    else
      let (more, dice) ← collapse s nested rest
      return (t :: more, dice)

end Evaluation

end DiceNotation
