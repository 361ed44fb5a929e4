/-
  DiceNotation.Formula.Node

  Parsed formulas.

  A formula is a row of nodes: operands and the operators between them. What
  stands in parentheses, between the commas of a function call or in a pool is a
  formula of its own, kept as text and as nodes.
-/

import DiceNotation.Denomination
import DiceNotation.Infix.Tree
import DiceNotation.Modifier.Basic
import DiceNotation.Number

namespace DiceNotation.Formula

mutual

/-- A formula within a formula. -/
structure SubFormula where
  text : String
  nodes : List Node

/-- A part of a formula. -/
inductive Node where
  | number (value : Number)
  | dice (count : Nat) (denomination : Denomination) (modifiers : List Modifier)
  | function (name : String) (arguments : List SubFormula)
  | pool (items : List SubFormula) (modifiers : List Modifier)
  | parenthetical (inner : SubFormula)
  /-- A word, a data reference or a fragment of dice. -/
  | text (content : String)
  | operator (op : Operator)
  /-- An operand with a minus sign of its own. -/
  | negation (inner : Node)
  /-- Operands written back to back, such as `2d` and `(1 + 2)`. -/
  | glued (parts : List Node)
  | annotated (inner : Node) (flavor : String)

end

-- ============================================================================
-- Text of nodes
-- ============================================================================

/-- The texts of formulas with commas between them. -/
def SubFormula.join (subs : List SubFormula) : String :=
  String.intercalate ", " (subs.map (·.text))

/-- The texts of modifiers in a row. -/
def modifiersText (ms : List Modifier) : String := String.join (ms.map (·.text))

mutual

/-- The text of a node. -/
def Node.render : Node → String
  | .number value => value.text
  | .dice count denomination modifiers =>
    Text.natText count ++ denomination.text ++ modifiersText modifiers
  | .function name arguments => name ++ "(" ++ SubFormula.join arguments ++ ")"
  | .pool items modifiers => "\x7b" ++ SubFormula.join items ++ "\x7d" ++ modifiersText modifiers
  | .parenthetical inner => "(" ++ inner.text ++ ")"
  | .text content => content
  | .operator op => op.text
  | .negation inner => "-" ++ inner.render
  | .glued parts => Node.renderAll parts
  | .annotated inner flavor => inner.render ++ "[" ++ flavor ++ "]"

/-- The texts of nodes in a row. -/
def Node.renderAll : List Node → String
  | [] => ""
  | node :: rest => node.render ++ Node.renderAll rest

end

namespace Node

/-- The class of the term that a node becomes. -/
def className : Node → String
  | number _ => "NumericTerm"
  | dice _ denomination _ => denomination.className
  | function _ _ => "FunctionTerm"
  | pool _ _ => "PoolTerm"
  | parenthetical _ => "ParentheticalTerm"
  | text _ | glued _ => "StringTerm"
  | operator _ => "OperatorTerm"
  | negation inner => inner.className
  | annotated inner _ => inner.className

/-- The operator that a node is, if it is one. -/
def operator? : Node → Option Operator
  | operator op => some op
  | _ => none

/-- Whether a node is a text fragment. -/
def isText : Node → Bool
  | text _ => true
  | _ => false

/-- Nodes in a row as one operand. -/
def parenthesize (items : List Node) : Node :=
  parenthetical ⟨String.intercalate " " (items.map render), items⟩

instance : Infix.Operand Node where
  operator? := operator?
  ofOperator := operator
  parenthesized := parenthesize

end Node

end DiceNotation.Formula
