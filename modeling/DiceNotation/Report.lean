/-
  DiceNotation.Report

  Evaluated rolls as texts.

  `Roll.result` puts its value in place of every term. `Roll.breakdown` also shows
  the results of dice and pools: a result that does not count is struck through,
  the highest and the lowest face of numbered dice stand out, and a die that
  exploded has an exclamation mark. A term without a value makes the text fail.
-/

import DiceNotation.Roll.Total

namespace DiceNotation

-- ============================================================================
-- Rows
-- ============================================================================

/-- A row of terms, where `textOf` gives the text of an operand: operators stand between
    spaces, except one at the very start, and operands back to back. -/
def Term.row {ε : Type} (textOf : Term → Except ε String) : List Term → Except ε String
  | [] => .ok ""
  | t :: rest => do
    let first ← match t.operator? with
      | some op => pure op.text
      | none => textOf t
    let more ← rest.mapM piece
    return first ++ String.join more
where
  /-- A term after the first one. -/
  piece (t : Term) : Except ε String :=
    match t.operator? with
    | some op => pure (" " ++ op.text ++ " ")
    | none => textOf t

/-- The value of a term as a text. -/
def Term.valueText (t : Term) : Except RollError String := (·.text) <$> t.valueOf

-- ============================================================================
-- Results
-- ============================================================================

namespace DieResult

/-- What came up and, if it differs, what it counts for. -/
def countText (r : DieResult) : String :=
  match r.count with
  | some count =>
    if count ≠ r.result then Text.intText r.result ++ " (" ++ Text.intText count ++ ")"
    else Text.intText r.result
  | none => Text.intText r.result

/-- A result with its marks. -/
def marked (critical : Bool) (r : DieResult) : String :=
  let text := if r.exploded then r.countText ++ "!" else r.countText
  let text := if critical then "**" ++ text ++ "**" else text
  if r.active then text else "~~" ++ text ++ "~~"

end DieResult

/-- Whether a value is the highest or the lowest face of numbered dice. -/
def Denomination.isCritical (d : Denomination) (value : Int) : Bool :=
  match d with
  | die faces => value == faces || value == 1
  | coin | fate => false

/-- Results behind the formula of their term. -/
def withResults (formula : String) (results : List String) : String :=
  formula ++ " (" ++ String.intercalate ", " results ++ ")"

/-- A term with the results that it holds, or else its value. -/
def Term.details (t : Term) : Except RollError String := do
  let value ← t.valueText
  match t with
  | .dice d =>
    return withResults d.formula
      (d.results.map fun r => r.marked (d.denomination.isCritical r.result))
  | .pool p _ => return withResults p.formula (p.results.map (·.marked false))
  | _ => return value

-- ============================================================================
-- Rolls
-- ============================================================================

/-- A roll with its values in place of its terms. -/
def Roll.result (r : Roll) : Except RollError String := Term.row Term.valueText r.terms

/-- A roll with the results of its dice, and its total. -/
def Roll.breakdown (r : Roll) : Except RollError String := do
  let terms ← Term.row Term.details r.terms
  match r.total with
  | some total => return terms ++ " = " ++ "\x60" ++ total.text ++ "\x60"
  | none => throw (.evaluation (.unevaluated r.formula))

end DiceNotation
