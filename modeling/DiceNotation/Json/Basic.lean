/-
  DiceNotation.Json.Basic

  JSON documents.

  Whole numbers and doubles are kept apart: a whole number has 64 bits, signed
  or not, and everything else is a double. The members of an object keep their
  order. Data that callers attach to a roll is held in `canonical` form, where
  the members are sorted by key and each key occurs once.
-/

import DiceNotation.Keyed

namespace DiceNotation

/-- A JSON document. -/
inductive Json where
  | null
  | bool (value : Bool)
  | int (value : Int)
  | float (value : Float)
  | str (text : String)
  | arr (items : List Json)
  | obj (members : List (String × Json))
  deriving BEq, Inhabited

namespace Json

-- ============================================================================
-- Canonical form
-- ============================================================================

mutual

/-- The same document with the members of every object sorted. -/
def canonical : Json → Json
  | arr items => arr (canonicalItems items)
  | obj members => obj (Keyed.ofList (canonicalMembers members))
  | other => other

/-- `canonical` on each item. -/
def canonicalItems : List Json → List Json
  | [] => []
  | item :: rest => item.canonical :: canonicalItems rest

/-- `canonical` on each value. -/
def canonicalMembers : List (String × Json) → List (String × Json)
  | [] => []
  | (k, v) :: rest => (k, v.canonical) :: canonicalMembers rest

end

-- ============================================================================
-- Depth
-- ============================================================================

mutual

/-- How deep arrays and objects lie inside one another. -/
def depth : Json → Nat
  | arr items => depthOfItems items + 1
  | obj members => depthOfMembers members + 1
  | _ => 0

/-- The greatest depth of items. -/
def depthOfItems : List Json → Nat
  | [] => 0
  | item :: rest => max item.depth (depthOfItems rest)

/-- The greatest depth of values. -/
def depthOfMembers : List (String × Json) → Nat
  | [] => 0
  | (_, v) :: rest => max v.depth (depthOfMembers rest)

end

-- ============================================================================
-- Looking inside
-- ============================================================================

/-- The text of a string. -/
def str? : Json → Option String
  | str s => some s
  | _ => none

/-- The value of a truth value. -/
def bool? : Json → Option Bool
  | bool b => some b
  | _ => none

/-- A whole number between two bounds. -/
def intBetween? (least greatest : Int) : Json → Option Int
  | int n => if least ≤ n && n ≤ greatest then some n else none
  | _ => none

/-- A natural number up to a bound. -/
def natUpTo? (greatest : Nat) (j : Json) : Option Nat :=
  (j.intBetween? 0 greatest).map Int.toNat

/-- The items of an array. -/
def items? : Json → Option (List Json)
  | arr items => some items
  | _ => none

/-- Reads every item of an array. -/
def listOf? {α : Type} (read : Json → Option α) (j : Json) : Option (List α) :=
  j.items?.bind fun items => items.mapM read

/-- The members of an object. -/
def members? : Json → Option (List (String × Json))
  | obj members => some members
  | _ => none

/-- Reads a value that may be null. -/
def nullable? {α : Type} (read : Json → Option α) : Json → Option (Option α)
  | null => some none
  | j => (read j).map some

/-- The member of an object, if the document is one and has it. -/
def member? (j : Json) (key : String) : Option Json := j.members?.bind (Keyed.find? key)

/-- Reads the values of an object; of several values of one key the last stays. -/
def keyedOf? {α : Type} (read : Json → Option α) (j : Json) : Option (Keyed α) := do
  let members ← j.members?
  let entries ← members.mapM fun (k, v) => (read v).map (k, ·)
  return Keyed.ofList entries

-- ============================================================================
-- Fields
-- ============================================================================

/-- The values of the named fields among members. A name may occur at most once; other
    members are passed over. -/
def fieldsAmong? (names : List String) (ms : List (String × Json)) :
    Option (List (Option Json)) :=
  names.mapM fun name =>
    match ms.filter fun (k, _) => k == name with
    | [] => some none
    | [(_, v)] => some (some v)
    | _ => none

/-- The values of the named fields of a record. A record is an object, or an array with
    the values in the order of the names, of which the last may be missing. -/
def fields? (names : List String) : Json → Option (List (Option Json))
  | obj members => fieldsAmong? names members
  | arr items =>
    if items.length ≤ names.length then
      some (items.map some ++ List.replicate (names.length - items.length) none)
    else none
  | _ => none

/-- A field that has to be there. -/
def required? {α : Type} (read : Json → Option α) (field : Option Json) : Option α :=
  field.bind read

/-- A field with a default. -/
def defaulted? {α : Type} (default : α) (read : Json → Option α) : Option Json → Option α
  | none => some default
  | some j => read j

end Json

end DiceNotation
