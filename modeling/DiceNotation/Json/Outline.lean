/-
  DiceNotation.Json.Outline

  Which parts of a document are of use to its reader.

  A record has named fields. Other members of its object are of no use: a reader
  passes them over. The reader of a record states its outline, so that the values
  of those members need not be values that a document can hold, such as a number
  beyond the doubles, as long as they are well formed.
-/

namespace DiceNotation.Json

/-- The parts of a document that are of use. -/
inductive Outline where
  /-- All of it. -/
  | whole
  /-- The fields of a record, with their names, in order. -/
  | record (fields : List (String × Outline))
  /-- The members of an object, whatever their keys are. -/
  | entries (value : Outline)
  deriving Inhabited

namespace Outline

/-- A record whose fields are of use as a whole. -/
def fields (names : List String) : Outline := .record (names.map (·, .whole))

/-- The names of the fields of a record. -/
def names : Outline → List String
  | record fields => fields.map Prod.fst
  | _ => []

/-- The outline of the member of a key, if the member is of use. -/
def member? (key : String) : Outline → Option Outline
  | whole => some whole
  | record fields => fields.lookup key
  | entries value => some value

/-- The outlines of the items of an array; items beyond them are of use as a whole. -/
def items : Outline → List Outline
  | record fields => fields.map Prod.snd
  | _ => []

end Outline

end DiceNotation.Json
