/-
  DiceNotation.Formula.Reference

  References to data in formulas.

  A reference is an at sign and a path. The path is looked up in a document, key
  by key; an item of an array is found by its index. The value stands in the
  formula in place of the reference: a string without the blanks at its ends,
  anything else as the text of the document. A reference to nothing or to null
  is replaced only if a text for missing values is given.
-/

import DiceNotation.Formula.Token
import DiceNotation.Json.Printer
import DiceNotation.Text.Blank
import DiceNotation.Text.Numeral

namespace DiceNotation.Formula

-- ============================================================================
-- Paths
-- ============================================================================

/-- The keys of a path, between its points. -/
def pathKeys : List Char → List (List Char)
  | [] => [[]]
  | c :: rest =>
    if c == '.' then [] :: pathKeys rest
    else match pathKeys rest with
      | key :: keys => (c :: key) :: keys
      | [] => [[c]]

/-- The value of one key. -/
def keyValue? (data : Json) (key : List Char) : Option Json :=
  match data with
  | .obj members => Keyed.find? (String.ofList key) members
  | .arr items => (Text.nat64? key).bind fun i => items[i]?
  | _ => none

/-- The value at a path. -/
def pathValue? (data : Json) (path : List Char) : Option Json :=
  (pathKeys path).foldlM keyValue? data

-- ============================================================================
-- Substitution
-- ============================================================================

/-- What stands in a formula for a value. -/
def valueChars : Json → List Char
  | .str s => Text.trim s.toList
  | j => j.chars

/-- What stands in a formula in place of a reference. -/
def referenceChars (data : Json) (missing : Option (List Char)) (path : List Char) : List Char :=
  match pathValue? data path with
  | some .null | none => missing.getD ('@' :: path)
  | some value => valueChars value

/-- Puts values in place of references; `fuel` bounds the number of characters left. -/
def substituteChars (data : Json) (missing : Option (List Char)) : Nat → List Char → List Char
  | 0, cs => cs
  | _ + 1, [] => []
  | fuel + 1, c :: rest =>
    let length := runLength isPathChar rest
    if c == '@' && length != 0 then
      referenceChars data missing (rest.take length) ++
        substituteChars data missing fuel (rest.drop length)
    else c :: substituteChars data missing fuel rest

/-- A formula with values in place of its references. -/
def substitute (data : Json) (missing : Option String) (formula : String) : String :=
  let cs := formula.toList
  String.ofList (substituteChars data (missing.map String.toList) cs.length cs)

end DiceNotation.Formula
