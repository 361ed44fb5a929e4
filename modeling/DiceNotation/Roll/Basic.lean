/-
  DiceNotation.Roll.Basic

  Rolls and their terms.

  A roll is a formula with its terms: operands and the operators between them.
  Pools, function calls and parentheses hold rolls of their own. A roll that has
  been evaluated has a total and keeps, besides its terms, the dice of terms that
  were replaced by their values (`collapsed`).
-/

import DiceNotation.DieResult
import DiceNotation.Formula.Node
import DiceNotation.Json.Basic
import DiceNotation.Modifier.Parser

namespace DiceNotation

-- ============================================================================
-- Annotations
-- ============================================================================

/-- The flavor of a term and what else a caller attached to it. -/
structure Annotations where
  flavor : Option String := none
  extra : Keyed Json := []
  deriving BEq, Inhabited

namespace Annotations

/-- A flavor alone. -/
def flavored (flavor : String) : Annotations := { flavor := some flavor }

/-- The text of a term with its flavor behind it. -/
def decorate (a : Annotations) (text : String) : String :=
  match a.flavor with
  | some flavor => text ++ "[" ++ flavor ++ "]"
  | none => text

/-- The annotations of a term, completed by those of another. -/
def merge (a b : Annotations) : Annotations :=
  { flavor := a.flavor.orElse fun _ => b.flavor
    extra := b.extra.foldl (fun acc (k, v) => Keyed.add k v acc) a.extra }

end Annotations

-- ============================================================================
-- Terms
-- ============================================================================

/-- Dice of one denomination with their modifiers. -/
structure Dice where
  number : Nat
  denomination : Denomination
  modifiers : List Modifier := []
  results : List DieResult := []
  annotations : Annotations := {}
  evaluated : Bool := false

/-- A pool without the rolls of its items. -/
structure Pool where
  /-- The formulas of the items. -/
  items : List String
  modifiers : List Modifier := []
  /-- The totals of the items. -/
  results : List DieResult := []
  annotations : Annotations := {}
  evaluated : Bool := false

mutual

/-- A formula with its terms and, once it has been evaluated, its total. -/
structure Roll where
  formula : String
  data : Json
  annotations : Annotations
  terms : List Term
  total : Option Number
  evaluated : Bool
  /-- The dice of terms that were replaced by their values. -/
  collapsed : List Dice

/-- An operand or operator of a roll. -/
inductive Term where
  | numeric (number : Number) (annotations : Annotations)
  | operator (op : Operator) (annotations : Annotations)
  | dice (dice : Dice)
  | pool (pool : Pool) (rolls : List Roll)
  | function (name : String) (arguments : List String) (rolls : List Roll)
      (result : Option Number) (annotations : Annotations)
  | parenthetical (text : String) (roll : Roll) (annotations : Annotations)
  /-- A fragment of text that is no other term. -/
  | text (content : String) (annotations : Annotations) (evaluated : Bool)

end

-- ============================================================================
-- Dice and pools
-- ============================================================================

namespace Dice

/-- The number and denomination of dice. -/
def expression (d : Dice) : String := Text.natText d.number ++ d.denomination.text

/-- The formula of dice. -/
def formula (d : Dice) : String :=
  d.annotations.decorate (d.expression ++ Formula.modifiersText d.modifiers)

/-- The values that count. -/
def values (d : Dice) : List Int := DieResult.activeValues d.results

/-- The total of dice that have been evaluated. -/
def total (d : Dice) : Option Number :=
  if d.evaluated then some (Number.sum (d.values.map .int)) else none

/-- Whether a modifier may bring further dice. -/
def drawsDice (d : Dice) : Bool := d.modifiers.any (·.effect.drawsDice)

/-- Whether nothing is left to chance. -/
def isDeterministic (d : Dice) : Bool :=
  d.evaluated || (d.number ≤ d.results.length && !d.drawsDice)

/-- Dice with the modifiers of a suffix after their own. -/
def withModifiers (d : Dice) (suffix : String) : Except (List Char) Dice := do
  let ms ← Modifier.ofSuffix (.ofDenomination d.denomination) suffix.toList
  return { d with modifiers := d.modifiers ++ ms }

/-- Dice some of which show given values. -/
def withResults (d : Dice) (values : List Int) : Dice :=
  { d with results := d.results ++ values.map DieResult.fresh }

/-- Dice with a flavor. -/
def withFlavor (d : Dice) (flavor : String) : Dice :=
  { d with annotations := { d.annotations with flavor := some flavor } }

end Dice

namespace Pool

/-- The formula of a pool. -/
def formula (p : Pool) : String :=
  p.annotations.decorate ("\x7b" ++ String.intercalate ", " p.items ++ "\x7d" ++
    Formula.modifiersText p.modifiers)

/-- The values that count. -/
def values (p : Pool) : List Int := DieResult.activeValues p.results

/-- The total of a pool that has been evaluated. -/
def total (p : Pool) : Option Number :=
  if p.evaluated then some (Number.sum (p.values.map .int)) else none

end Pool

-- ============================================================================
-- Terms one by one
-- ============================================================================

namespace Term

/-- The operator that a term is, if it is one. -/
def operator? : Term → Option Operator
  | operator op _ => some op
  | _ => none

instance : Infix.Item Term := ⟨operator?⟩

/-- The annotations of a term. -/
def annotations : Term → Annotations
  | numeric _ a | operator _ a | function _ _ _ _ a | parenthetical _ _ a | text _ a _ => a
  | dice d => d.annotations
  | pool p _ => p.annotations

/-- A term with other annotations. -/
def setAnnotations (a : Annotations) : Term → Term
  | numeric n _ => numeric n a
  | operator op _ => operator op a
  | dice d => dice { d with annotations := a }
  | pool p rolls => pool { p with annotations := a } rolls
  | function name arguments rolls result _ => function name arguments rolls result a
  | parenthetical t roll _ => parenthetical t roll a
  | text content _ evaluated => text content a evaluated

/-- A term with a flavor, or without one. -/
def setFlavor (flavor : Option String) (t : Term) : Term :=
  t.setAnnotations { t.annotations with flavor }

/-- The formula of a term. -/
def formula : Term → String
  | numeric n a => a.decorate n.text
  | operator op _ => op.text
  | dice d => d.formula
  | pool p _ => p.formula
  | function name arguments _ _ a =>
    a.decorate (name ++ "(" ++ String.intercalate ", " arguments ++ ")")
  | parenthetical t _ a => a.decorate ("(" ++ t ++ ")")
  | text content a _ => a.decorate content

/-- The value of a term, once it has one. -/
def total : Term → Option Number
  | numeric n _ => some n
  | operator _ _ => none
  | dice d => d.total
  | pool p _ => p.total
  | function _ _ _ result _ => result
  | parenthetical _ roll _ => roll.total
  | text _ _ evaluated => if evaluated then some .zero else none

/-- Whether a term is replaced by its value before the others are evaluated. -/
def isIntermediate : Term → Bool
  | function _ _ _ _ _ | parenthetical _ _ _ => true
  | _ => false

/-- Whether a term has been evaluated or needs no evaluation. -/
def isEvaluated : Term → Bool
  | numeric _ _ | operator _ _ => true
  | dice d => d.evaluated
  | pool p _ => p.evaluated
  | function _ _ _ result _ => result.isSome
  | parenthetical _ roll _ => roll.evaluated
  | text _ _ evaluated => evaluated

/-- Whether a term is a fragment of text. -/
def isText : Term → Bool
  | text _ _ _ => true
  | _ => false

end Term

-- ============================================================================
-- Terms and the rolls inside them
-- ============================================================================

mutual

/-- Whether nothing in a roll is left to chance. -/
def Roll.isDeterministic : Roll → Bool
  | ⟨_, _, _, terms, _, _, _⟩ => Term.allDeterministic terms

/-- Whether nothing in a term is left to chance. -/
def Term.isDeterministic : Term → Bool
  | .numeric _ _ | .operator _ _ | .text _ _ _ => true
  | .dice d => d.isDeterministic
  | .pool p rolls => p.evaluated || Roll.allDeterministic rolls
  | .function _ _ rolls _ _ => Roll.allDeterministic rolls
  | .parenthetical _ roll _ => roll.isDeterministic

/-- Whether nothing in any of the terms is left to chance. -/
def Term.allDeterministic : List Term → Bool
  | [] => true
  | t :: rest => t.isDeterministic && Term.allDeterministic rest

/-- Whether nothing in any of the rolls is left to chance. -/
def Roll.allDeterministic : List Roll → Bool
  | [] => true
  | r :: rest => r.isDeterministic && Roll.allDeterministic rest

end

mutual

/-- All dice of a roll, those inside its terms included. -/
def Roll.dice : Roll → List Dice
  | ⟨_, _, _, terms, _, _, collapsed⟩ => collapsed ++ Term.diceOfAll terms

/-- All dice of a term. -/
def Term.heldDice : Term → List Dice
  | .numeric _ _ | .operator _ _ | .text _ _ _ => []
  | .dice d => [d]
  | .pool _ rolls => Roll.diceOfAll rolls
  | .function _ _ rolls _ _ => Roll.diceOfAll rolls
  | .parenthetical _ roll _ => roll.dice

/-- All dice of terms in a row. -/
def Term.diceOfAll : List Term → List Dice
  | [] => []
  | t :: rest => t.heldDice ++ Term.diceOfAll rest

/-- All dice of rolls in a row. -/
def Roll.diceOfAll : List Roll → List Dice
  | [] => []
  | r :: rest => r.dice ++ Roll.diceOfAll rest

end

-- ============================================================================
-- Rolls
-- ============================================================================

namespace Roll

/-- The formula of terms in a row: operators stand between spaces, except one at the
    very start, and operands back to back. -/
def formulaOf : List Term → String
  | [] => ""
  | t :: rest =>
    (match t.operator? with
      | some op => op.text
      | none => t.formula) ++ String.join (rest.map piece)
where
  /-- A term after the first one. -/
  piece (t : Term) : String :=
    match t.operator? with
    | some op => " " ++ op.text ++ " "
    | none => t.formula

/-- A roll of terms that has not been evaluated. -/
def ofTerms (terms : List Term) : Roll :=
  { formula := formulaOf terms
    data := .null
    annotations := {}
    terms
    total := none
    evaluated := false
    collapsed := [] }

end Roll

end DiceNotation
