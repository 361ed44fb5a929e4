/-
  DiceNotation.Infix.Tree

  Expression trees and the sequences they are read from.

  `Tree.ofInfix` builds a tree from operands and operators in a row with two
  stacks: an operator first takes from the stacks those that bind at least as
  strongly, so that operators of one precedence group to the left. A minus sign
  at the very start negates the first operand.

  `Tree.toInfix` writes a tree as such a row. Operands that would group
  differently when read again are put in parentheses.
-/

import DiceNotation.Number
import DiceNotation.Operator

namespace DiceNotation.Infix

-- ============================================================================
-- Items
-- ============================================================================

/-- Things that stand in a row as operands or operators. -/
class Item (α : Type) where
  /-- The operator that an item is, if it is one. -/
  operator? : α → Option Operator

/-- Items that can be put in parentheses. -/
class Operand (α : Type) extends Item α where
  ofOperator : Operator → α
  /-- A row of items that is one operand. -/
  parenthesized : List α → α

-- ============================================================================
-- Trees
-- ============================================================================

/-- An expression over operands. -/
inductive Tree (α : Type) where
  | leaf (operand : α)
  | neg (inner : Tree α)
  | binary (op : Operator) (left right : Tree α)
  deriving Repr

namespace Tree

variable {α : Type}

/-- The operator at the top of a tree. -/
def topOperator? : Tree α → Option Operator
  | binary op _ _ => some op
  | _ => none

/-- The value of a tree, where `valueOf` gives that of an operand. The left side of an
    operator comes before the right one. -/
def evaluate {ε : Type} (valueOf : α → Except ε Number) (ofDivision : DivisionError → ε) :
    Tree α → Except ε Number
  | leaf operand => valueOf operand
  | neg inner => Number.neg <$> inner.evaluate valueOf ofDivision
  | binary op left right => do
    let l ← left.evaluate valueOf ofDivision
    let r ← right.evaluate valueOf ofDivision
    (l.apply op r).mapError ofDivision

-- ============================================================================
-- Reading a row
-- ============================================================================

/-- Why a row of items is no expression. -/
inductive Fault where
  | missingOperand
  | missingOperator
  deriving DecidableEq, Repr

/-- The fault of a row and the index of the item where it shows. -/
structure Misplaced where
  index : Nat
  fault : Fault
  deriving DecidableEq, Repr

/-- The two stacks, the newest entry first. Each operator stands beside its index. -/
structure Stacks (α : Type) where
  operands : List (Tree α)
  operators : List (Operator × Nat)

/-- Combines operands by the operators on the stack that bind at least as strongly as
    `precedence`. -/
def unwind (precedence : Nat) : List (Tree α) → List (Operator × Nat) →
    Except Misplaced (Stacks α)
  | operands, [] => .ok ⟨operands, []⟩
  | operands, (top, index) :: operators =>
    if top.precedence < precedence then .ok ⟨operands, (top, index) :: operators⟩
    else match operands with
      | right :: left :: operands => unwind precedence (binary top left right :: operands) operators
      | _ => .error ⟨index, .missingOperand⟩

/-- Where the reading of a row stands. -/
structure Reading (α : Type) where
  held : Stacks α
  /-- Whether an operand is due. -/
  expecting : Bool
  /-- Whether the next operand is negated. -/
  negate : Bool

/-- The start of a row. -/
def Reading.start : Reading α := ⟨⟨[], []⟩, true, false⟩

/-- Reads one item, where `index` is its place in the row. -/
def Reading.step [Item α] (r : Reading α) (index : Nat) (item : α) :
    Except Misplaced (Reading α) :=
  match Item.operator? item with
  | some op =>
    if index == 0 && op == .sub then .ok { r with negate := true }
    else if r.expecting then .error ⟨index, .missingOperand⟩
    else do
      let held ← unwind op.precedence r.held.operands r.held.operators
      return ⟨{ held with operators := (op, index) :: held.operators }, true, r.negate⟩
  | none =>
    if r.expecting then
      let operand := if r.negate then neg (leaf item) else leaf item
      .ok ⟨{ r.held with operands := operand :: r.held.operands }, false, false⟩
    else .error ⟨index, .missingOperator⟩

/-- Reads the items from an index on. -/
def Reading.steps [Item α] (r : Reading α) (index : Nat) : List α → Except Misplaced (Reading α)
  | [] => .ok r
  | item :: rest => do
    let r ← r.step index item
    r.steps (index + 1) rest

/-- The tree of a row that has been read, where `last` is the index of its last item. -/
def Reading.finish (r : Reading α) (last : Nat) : Except Misplaced (Tree α) :=
  if r.expecting then .error ⟨last, .missingOperand⟩
  else do
    let held ← unwind 0 r.held.operands r.held.operators
    match held.operands with
    | tree :: _ => return tree
    | [] => throw ⟨0, .missingOperand⟩

/-- The tree that a row of operands and operators stands for. -/
def ofInfix [Item α] (items : List α) : Except Misplaced (Tree α) := do
  let r ← Reading.start.steps 0 items
  r.finish (items.length - 1)

-- ============================================================================
-- Writing a row
-- ============================================================================

/-- Whether an operand beside an operator of some precedence needs parentheses. On the
    right an operator of the same precedence does, too. -/
def needsGrouping (precedence : Nat) (right : Bool) (operand : Tree α) : Bool :=
  match operand.topOperator? with
  | some op => op.precedence < precedence || (right && op.precedence == precedence)
  | none => false

/-- A row of items, in parentheses if they are needed. -/
def grouped [Operand α] (needed : Bool) (items : List α) : List α :=
  if needed then [Operand.parenthesized items] else items

/-- The row of operands and operators that a tree is written as. -/
def toInfix [Operand α] : Tree α → List α
  | leaf operand => [operand]
  | neg inner => Operand.ofOperator .sub :: grouped (needsGrouping 0 false inner) inner.toInfix
  | binary op left right =>
    grouped (needsGrouping op.precedence false left) left.toInfix ++
      Operand.ofOperator op ::
        grouped (needsGrouping op.precedence true right) right.toInfix

end Tree

end DiceNotation.Infix
