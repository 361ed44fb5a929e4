/-
  DiceNotation.Roll.Alter

  Scaling a roll.

  Each dice term gets `round (number * multiply) + add` dice, a sum of 64 bits, and
  numbers are multiplied too if asked for. The items of pools are scaled in the same way, so
  that an item which has been evaluated refuses the change; what was scaled
  before it stays scaled, and only the formula is as it was.
-/

import DiceNotation.Error
import DiceNotation.Roll.Basic

namespace DiceNotation

/-- How a roll is scaled. -/
structure Scaling where
  multiply : Float
  /-- How many dice each term gets besides, a number of 64 bits. -/
  add : Int
  /-- Whether numbers are multiplied. -/
  numeric : Bool

namespace Scaling

/-- A number of dice after scaling: rounded with halves away from zero, and never below
    zero. A sum beyond 64 bits wraps around to the other end of their range. -/
def scaleCount (s : Scaling) (number : Nat) : Nat :=
  ((wholePart (Float.ofNat number * s.multiply).round + s.add).bmod (Nat.pow 2 64)).toNat

end Scaling

mutual

/-- A scaled roll, and whether the change was refused. -/
def Roll.alter (s : Scaling) : Roll → Roll × Option RollError
  | ⟨formula, data, annotations, terms, total, evaluated, collapsed⟩ =>
    if evaluated then
      (⟨formula, data, annotations, terms, total, evaluated, collapsed⟩, some .alreadyEvaluated)
    else
      let (terms, refusal) := Term.alterAll s terms
      let formula := if refusal.isSome then formula else Roll.formulaOf terms
      (⟨formula, data, annotations, terms, total, evaluated, collapsed⟩, refusal)

/-- A scaled term. -/
def Term.alter (s : Scaling) : Term → Term × Option RollError
  | .dice d => (.dice { d with number := s.scaleCount d.number }, none)
  | .pool p rolls =>
    let (rolls, refusal) := Roll.alterAll s rolls
    let items := if refusal.isSome then p.items else rolls.map (·.formula)
    (.pool { p with items } rolls, refusal)
  | .numeric n a =>
    (.numeric (if s.numeric then .ofFloat (n.toFloat * s.multiply) else n) a, none)
  | t => (t, none)

/-- Terms scaled one after the other until one refuses. -/
def Term.alterAll (s : Scaling) : List Term → List Term × Option RollError
  | [] => ([], none)
  | t :: rest =>
    let (t, refusal) := t.alter s
    if refusal.isSome then (t :: rest, refusal)
    else
      let (rest, refusal) := Term.alterAll s rest
      (t :: rest, refusal)

/-- Rolls scaled one after the other until one refuses. -/
def Roll.alterAll (s : Scaling) : List Roll → List Roll × Option RollError
  | [] => ([], none)
  | r :: rest =>
    let (r, refusal) := r.alter s
    if refusal.isSome then (r :: rest, refusal)
    else
      let (rest, refusal) := Roll.alterAll s rest
      (r :: rest, refusal)

end

end DiceNotation
