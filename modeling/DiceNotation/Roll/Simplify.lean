/-
  DiceNotation.Roll.Simplify

  Simplified rows of terms.

  A fragment of text next to another operand is joined with it, and the joined
  text is read as a term again; so the number 2 and the fragment `d6` become two
  dice. Then an operator at the start, unless it is a minus sign, and an operator
  at the end are left out.
-/

import DiceNotation.Roll.Build

namespace DiceNotation.Term

/-- The text of a term as part of a joined fragment: its value if it has one, or else
    its formula without the flavor. -/
def fragment : Term → String
  | text content _ _ => content
  | t => match t.total with
    | some total => total.text
    | none => (t.setFlavor none).formula

/-- Whether two neighbours are joined: both are operands, and one is a fragment of
    text. -/
def joins (a b : Term) : Bool :=
  a.operator?.isNone && b.operator?.isNone && (a.isText || b.isText)

/-- Two neighbours as one fragment of text. -/
def join (a b : Term) : Term :=
  .text (a.fragment ++ b.fragment) (a.annotations.merge b.annotations) false

/-- Joins a term with those that follow it, from left to right. -/
def joinFrom (t : Term) : List Term → List Term
  | [] => [t]
  | next :: rest =>
    if t.joins next then joinFrom (t.join next) rest else t :: joinFrom next rest

/-- Joins the fragments of a row with their neighbours. -/
def joinAll : List Term → List Term
  | [] => []
  | t :: rest => joinFrom t rest

/-- A fragment of text read as a term, which keeps the annotations of the fragment where
    it has none of its own; any other term as it is. -/
def reclassify : Term → Term
  | text content a _ =>
    let t := classify content
    t.setAnnotations (t.annotations.merge a)
  | t => t

/-- A row without an operator at its start, a minus sign excepted. -/
def dropLeading : List Term → List Term
  | [] => []
  | t :: rest =>
    match t.operator? with
    | some .sub | none => t :: rest
    | some _ => rest

/-- A row without an operator at its end. -/
def dropTrailing (terms : List Term) : List Term :=
  match terms.getLast? with
  | some t => if t.operator?.isSome then terms.dropLast else terms
  | none => terms

/-- A row with its fragments joined and read again, and without the operators that have
    nothing to apply to. -/
def simplify (terms : List Term) : List Term :=
  dropTrailing (dropLeading ((joinAll terms).map reclassify))

end DiceNotation.Term
