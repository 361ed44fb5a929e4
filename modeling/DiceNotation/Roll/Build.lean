/-
  DiceNotation.Roll.Build

  Rolls of formulas.

  The nodes of a formula become terms. A negated number is a number; another
  negated operand at the very start follows a minus sign, and elsewhere it is put
  in parentheses together with its sign. Operands that are glued together become
  terms in a row, with no operator between them.

  `Term.classify` reads a fragment of text as a single term.
-/

import DiceNotation.Error
import DiceNotation.Formula.Parser
import DiceNotation.Formula.Reference
import DiceNotation.Roll.Basic

namespace DiceNotation

open Formula

-- ============================================================================
-- Terms of nodes
-- ============================================================================

/-- Checks that operands and operators alternate in a row of nodes. -/
def Roll.checkRow (formula : String) (nodes : List Node) : Except SyntaxError Unit :=
  match Infix.Tree.ofInfix nodes with
  | .ok _ => .ok ()
  | .error e =>
    let fragment := (nodes[e.index]?.map Node.render).getD ""
    .error (.atFragment formula fragment (.ofInfix e.fault))

/-- Sets the flavor of the last term in a row. -/
def Term.flavorLast (flavor : String) : List Term → List Term
  | [] => []
  | [t] => [t.setFlavor (some flavor)]
  | t :: rest => t :: Term.flavorLast flavor rest

/-- A minus sign as a term. -/
def Term.minus : Term := .operator .sub {}

mutual

/-- The terms of a node; `first` says whether no term stands before them. -/
def Term.ofNode (first : Bool) : Node → Except SyntaxError (List Term)
  | .number value => .ok [.numeric value {}]
  | .dice number denomination modifiers => .ok [.dice { number, denomination, modifiers }]
  | .function name arguments => do
    let rolls ← Roll.ofSubs arguments
    return [.function name (rolls.map (·.formula)) rolls none {}]
  | .pool items modifiers => do
    let rolls ← Roll.ofSubs items
    return [.pool { items := rolls.map (·.formula), modifiers } rolls]
  | .parenthetical inner => do
    let roll ← Roll.ofSub inner
    return [.parenthetical roll.formula roll {}]
  | .text content => .ok [.text content {} false]
  | .operator op => .ok [.operator op {}]
  | .negation (.number value) => .ok [.numeric value.neg {}]
  | .negation inner => do
    let terms ← Term.ofNode false inner
    if first then return Term.minus :: terms
    else
      let roll := Roll.ofTerms (Term.minus :: terms)
      return [.parenthetical roll.formula roll {}]
  | .glued parts => Term.ofRow first parts
  | .annotated inner flavor => do
    let terms ← Term.ofNode first inner
    return Term.flavorLast flavor terms

/-- The terms of nodes in a row. -/
def Term.ofRow (first : Bool) : List Node → Except SyntaxError (List Term)
  | [] => .ok []
  | node :: rest => do
    let terms ← Term.ofNode first node
    let more ← Term.ofRow (first && terms.isEmpty) rest
    return terms ++ more

/-- The roll of a formula within a formula. -/
def Roll.ofSub : SubFormula → Except SyntaxError Roll
  | ⟨text, nodes⟩ => do
    Roll.checkRow text nodes
    let terms ← Term.ofRow true nodes
    return Roll.ofTerms terms

/-- The rolls of formulas in a row. -/
def Roll.ofSubs : List SubFormula → Except SyntaxError (List Roll)
  | [] => .ok []
  | sub :: rest => do
    let roll ← Roll.ofSub sub
    let rolls ← Roll.ofSubs rest
    return roll :: rolls

end

/-- The terms of a parsed formula. -/
def Term.ofNodes (formula : String) (nodes : List Node) : Except SyntaxError (List Term) := do
  Roll.checkRow formula nodes
  Term.ofRow true nodes

-- ============================================================================
-- Rolls of formulas
-- ============================================================================

/-- The terms of a formula. -/
def Term.ofFormula (formula : String) : Except SyntaxError (List Term) := do
  let nodes ← parse formula
  Term.ofNodes formula nodes

/-- The roll of a formula, whose references are looked up in a document. -/
def Roll.withData (formula : String) (data : Json) : Except SyntaxError Roll := do
  let terms ← Term.ofFormula (substitute data none formula)
  return { Roll.ofTerms terms with data }

/-- The roll of a formula. -/
def Roll.new (formula : String) : Except SyntaxError Roll := Roll.withData formula .null

/-- Whether a text is a formula when its references stand for zero. -/
def Roll.validate (formula : String) : Bool :=
  match Roll.new (substitute .null (some "0") formula) with
  | .ok _ => true
  | .error _ => false

/-- A roll of the same formula and data that has not been evaluated. -/
def Roll.cloneUnevaluated (r : Roll) : Except SyntaxError Roll := do
  let fresh ← Roll.withData r.formula r.data
  return { fresh with annotations := r.annotations }

-- ============================================================================
-- Fragments of text
-- ============================================================================

/-- The single term that a fragment of text is, or else a text term of it. -/
def Term.classify (content : String) : Term :=
  match Term.ofFormula content with
  | .ok [t] => if t.isText then .text content {} false else t
  | _ => .text content {} false

end DiceNotation
