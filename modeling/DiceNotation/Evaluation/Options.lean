/-
  DiceNotation.Evaluation.Options

  Switches of an evaluation.
-/

import DiceNotation.Denomination
import DiceNotation.Json.Basic

namespace DiceNotation

/-- How a roll is evaluated. -/
structure EvaluationOptions where
  /-- Every die shows its least value. -/
  minimize : Bool := false
  /-- Every die shows its greatest value. -/
  maximize : Bool := false
  /-- Fragments of text count as zero. -/
  allowStrings : Bool := false
  /-- Dice of an interactive method wait for results from outside. -/
  allowInteractive : Bool := true
  /-- An evaluation that cannot wait refuses what is left to chance. -/
  strict : Bool := true
  deriving DecidableEq, Repr

namespace EvaluationOptions

/-- Every die shows its least value. -/
def minimized : EvaluationOptions := { minimize := true }

/-- Every die shows its greatest value. -/
def maximized : EvaluationOptions := { maximize := true }

/-- All dice are rolled, and at once. -/
def rolled : EvaluationOptions := { allowInteractive := false, strict := false }

/-- Whether the value of every die is fixed. -/
def isPinned (o : EvaluationOptions) : Bool := o.minimize || o.maximize

/-- The value that a die is fixed to; the least one wins. -/
def pinnedValue? (o : EvaluationOptions) (d : Denomination) : Option Int :=
  if o.minimize then some d.least else if o.maximize then some d.greatest else none

/-- The names of the switches in documents. -/
def fieldNames : List String :=
  ["minimize", "maximize", "allow_strings", "allow_interactive", "strict"]

/-- Reads options; a switch that is left out has its default. -/
def ofJson? (j : Json) : Option EvaluationOptions :=
  match j.fields? fieldNames with
  | some [minimize, maximize, allowStrings, allowInteractive, strict] => do
    return {
      minimize := ← Json.defaulted? false Json.bool? minimize
      maximize := ← Json.defaulted? false Json.bool? maximize
      allowStrings := ← Json.defaulted? false Json.bool? allowStrings
      allowInteractive := ← Json.defaulted? true Json.bool? allowInteractive
      strict := ← Json.defaulted? true Json.bool? strict }
  | _ => none

/-- Dice are fixed to a value exactly when the options are pinned. -/
theorem isSome_pinnedValue? (o : EvaluationOptions) (d : Denomination) :
    (o.pinnedValue? d).isSome = o.isPinned := by
  cases hmin : o.minimize <;> cases hmax : o.maximize <;> simp [pinnedValue?, isPinned, hmin, hmax]

theorem exists_pinnedValue? {o : EvaluationOptions} (h : o.isPinned = true) (d : Denomination) :
    ∃ value, o.pinnedValue? d = some value := by
  rw [← Option.isSome_iff_exists, o.isSome_pinnedValue? d, h]

theorem pinnedValue?_eq_none {o : EvaluationOptions} (h : o.isPinned = false)
    (d : Denomination) : o.pinnedValue? d = none := by
  simpa [h] using o.isSome_pinnedValue? d

end EvaluationOptions

end DiceNotation
