/-
  DiceNotation.DieResult

  The outcome of one die.

  A result is never taken out of the list it stands in. A die that is dropped or
  rerolled stays there as an inactive result; only active results count.
-/

import DiceNotation.Text.Numeral

namespace DiceNotation

/-- The outcome of one die and what became of it. -/
structure DieResult where
  /-- The value that came up. -/
  result : Int
  active : Bool := true
  /-- What the result counts for, in place of its value. -/
  count : Option Int := none
  success : Option Bool := none
  failure : Option Bool := none
  discarded : Bool := false
  rerolled : Bool := false
  exploded : Bool := false
  deriving DecidableEq, Repr

namespace DieResult

/-- A result as it comes up. -/
def fresh (value : Int) : DieResult := { result := value }

/-- What a result counts for while it is active. -/
def value (r : DieResult) : Int := r.count.getD r.result

/-- A result that was dropped. -/
def discard (r : DieResult) : DieResult := { r with active := false, discarded := true }

/-- A result that a new one replaces. -/
def reroll (r : DieResult) : DieResult := { r with active := false, rerolled := true }

/-- A result that brought a further one. -/
def explode (r : DieResult) : DieResult := { r with exploded := true }

/-- The values that count. -/
def activeValues (rs : List DieResult) : List Int :=
  (rs.filter active).map value

end DieResult

end DiceNotation
