/-
  DiceNotation.Modifier.Basic

  Modifiers of dice and pools.

  A modifier is a command, with an argument or without. `Modifier.Family` says
  which commands a kind of term takes; `Modifier.Effect` is what a modifier
  does. A modifier keeps the text it was written as.
-/

import DiceNotation.Comparison
import DiceNotation.Denomination

namespace DiceNotation

-- ============================================================================
-- Effects
-- ============================================================================

/-- What a modifier does. A condition that is left out depends on the dice. -/
inductive Modifier.Effect where
  /-- Results that meet the condition are replaced by new ones. -/
  | reroll (recursive : Bool) (condition : Option Condition)
  /-- Results that meet the condition bring a further one each. -/
  | explode (recursive : Bool) (condition : Option Condition)
  /-- Keeps or drops so many of the highest or lowest results. -/
  | keepDrop (keep highest : Bool) (number : Nat)
  /-- Raises results to a least value. -/
  | minimum (value : Int)
  /-- Lowers results to a greatest value. -/
  | maximum (value : Int)
  /-- Counts the results that meet the condition. -/
  | countSuccess (condition : Option Condition)
  /-- Counts the results that meet the condition, as failures. -/
  | countFailures (condition : Option Condition)
  /-- Each failure takes one from the total. -/
  | deductFailures (condition : Option Condition)
  /-- Each failure takes its value from the total. -/
  | subtractFailures (condition : Option Condition)
  /-- Each result counts for its distance to the target. -/
  | marginSuccess (condition : Condition)
  /-- Counts even results. -/
  | countEven
  /-- Counts odd results. -/
  | countOdd
  /-- Counts the coins that show the value called. -/
  | call (value : Int)
  deriving DecidableEq, Repr

/-- A modifier and the text it was written as. -/
structure Modifier where
  text : String
  effect : Modifier.Effect
  deriving DecidableEq, Repr

namespace Modifier

/-- Whether an effect may bring new results. -/
def Effect.drawsDice : Effect → Bool
  | reroll _ _ | explode _ _ => true
  | _ => false

-- ============================================================================
-- Families
-- ============================================================================

/-- The kinds of terms that take modifiers. -/
inductive Family where
  | die
  | coin
  | fate
  | pool
  deriving DecidableEq, Repr

namespace Family

/-- The family of a denomination. -/
def ofDenomination : Denomination → Family
  | .die _ => die
  | .coin => coin
  | .fate => fate

/-- The commands that keep or drop results. -/
def keepDropCommands : List String := ["k", "kh", "kl", "d", "dh", "dl"]

/-- The commands that only numbered dice take. -/
def dieCommands : List String :=
  ["r", "rr", "x", "xo", "min", "max", "cs", "cf", "df", "sf", "ms", "even", "odd"]

/-- The commands of a family, in lower case. -/
def commands : Family → List String
  | die => keepDropCommands ++ dieCommands
  | coin => ["c"]
  | fate => keepDropCommands ++ ["r", "rr"]
  | pool => keepDropCommands ++ ["cs", "cf"]

/-- Whether a family takes a command. -/
def allows (f : Family) (command : String) : Bool := f.commands.contains command

end Family

end Modifier

end DiceNotation
