/-
  DiceNotation.Evaluation.Context

  What evaluations draw on.

  A context holds the configuration, the roller and the functions for any number
  of evaluations. It counts the dice that were drawn since the latest of them
  began; a die beyond the limit is counted, but not rolled.
-/

import DiceNotation.Config
import DiceNotation.Evaluation.Term
import DiceNotation.Roller

namespace DiceNotation

/-- What evaluations draw on, with a roller of type `σ`. -/
structure Context (σ : Type) where
  config : Config
  /-- How many dice were drawn since the latest evaluation began. -/
  rolls : Nat := 0
  roller : σ
  functions : FunctionRegistry := .standard

namespace Context

variable {σ : Type}

/-- A context with the standard configuration. -/
def ofRoller (roller : σ) : Context σ := { config := {}, roller }

/-- A context with a limit on dice, or without one. -/
def limited (maxRolls : Option Nat) (roller : σ) : Context σ := { config := { maxRolls }, roller }

/-- A context where no dice are counted yet. -/
def restart (c : Context σ) : Context σ := { c with rolls := 0 }

/-- A context with another function. -/
def register (name : String) (f : NumberFunction) (c : Context σ) : Context σ :=
  { c with functions := c.functions.set name f }

/-- Counts a die and says whether there are too many. -/
def count (c : Context σ) : Bool × Context σ :=
  let rolls := c.rolls + 1
  (match c.config.maxRolls with
    | some limit => limit < rolls
    | none => false,
    { c with rolls })

/-- The value of a die that the roller gives. -/
def rollDie [Roller σ] (d : Denomination) (c : Context σ) : Int × Context σ :=
  let (face, roller) := Roller.roll d.faces c.roller
  (d.valueOf face, { c with roller })

/-- The method of dice if their results are to come from outside. -/
def interactiveMethod? (c : Context σ) (o : EvaluationOptions) (d : Dice) : Option String :=
  if o.allowInteractive && !o.isPinned && !d.isDeterministic then
    c.config.routing.externalMethod? d.denomination
  else none

/-- Nobody is asked for dice that are fixed. -/
theorem interactiveMethod?_of_isPinned {o : EvaluationOptions} (h : o.isPinned = true)
    (c : Context σ) (d : Dice) : c.interactiveMethod? o d = none := by
  simp [interactiveMethod?, h]

end Context

end DiceNotation
