/-
  DiceNotation.Config

  Limits and the routing of dice.

  A configuration bounds the dice that one evaluation may draw and says for each
  denomination by which method its results come. The results of an interactive
  method come from outside; those of any other are rolled. As a document, a
  configuration may leave out any of its fields, and members that it does not have
  only have to be well formed.
-/

import DiceNotation.Denomination
import DiceNotation.Json.Parser

namespace DiceNotation

-- ============================================================================
-- Routing
-- ============================================================================

/-- A way in which results come. -/
structure Method where
  label : String := ""
  /-- Whether the results come from outside. -/
  interactive : Bool := false
  deriving DecidableEq, Repr

/-- Which method each denomination uses. -/
structure Routing where
  /-- The method of the denominations that `dice` does not list. -/
  defaultMethod : String
  methods : Keyed Method
  /-- The names of methods by the texts of denominations. -/
  dice : Keyed String
  deriving DecidableEq, Repr

namespace Routing

/-- The name of the method that rolls dice. -/
def randomMethod : String := "random"

/-- All dice are rolled. -/
def standard : Routing :=
  { defaultMethod := randomMethod
    methods := [(randomMethod, ⟨"Pseudo-random number generator", false⟩)]
    dice := [] }

/-- Routes a denomination to a method. A method that is not known yet gets its name as
    its label. -/
def assign (d : Denomination) (method : String) (interactive : Bool) (r : Routing) : Routing :=
  { r with
    methods := r.methods.add method ⟨method, interactive⟩
    dice := r.dice.set d.text method }

/-- The name of the method of a denomination. -/
def methodFor (r : Routing) (d : Denomination) : String :=
  (r.dice.find? d.text).getD r.defaultMethod

/-- The name of the method of a denomination if results must come from outside. -/
def externalMethod? (r : Routing) (d : Denomination) : Option String :=
  match r.methods.find? (r.methodFor d) with
  | some m => if m.interactive then some (r.methodFor d) else none
  | none => none

end Routing

-- ============================================================================
-- Configurations
-- ============================================================================

/-- The limit on dice and the routing of their results. -/
structure Config where
  /-- How many dice one evaluation may draw, if that is limited. -/
  maxRolls : Option Nat := some 1000
  routing : Routing := .standard
  deriving DecidableEq, Repr

-- ============================================================================
-- Documents
-- ============================================================================

/-- A method as a document. -/
def Method.toJson (m : Method) : Json :=
  .obj [("label", .str m.label), ("interactive", .bool m.interactive)]

/-- The parts of a document that are of use for a method. -/
def Method.outline : Json.Outline := .fields ["label", "interactive"]

/-- Reads a method. -/
def Method.ofJson? (j : Json) : Option Method :=
  match j.fields? Method.outline.names with
  | some [label, interactive] => do
    return {
      label := ← Json.defaulted? "" Json.str? label
      interactive := ← Json.defaulted? false Json.bool? interactive }
  | _ => none

/-- A routing as a document. -/
def Routing.toJson (r : Routing) : Json :=
  .obj
    [("default_method", .str r.defaultMethod),
     ("methods", .obj (r.methods.map fun (name, m) => (name, m.toJson))),
     ("dice", .obj (r.dice.map fun (d, name) => (d, .str name)))]

/-- The parts of a document that are of use for a routing. -/
def Routing.outline : Json.Outline :=
  .record
    [("default_method", .whole), ("methods", .entries Method.outline), ("dice", .whole)]

/-- Reads a routing. -/
def Routing.ofJson? (j : Json) : Option Routing :=
  match j.fields? Routing.outline.names with
  | some [defaultMethod, methods, dice] => do
    return {
      defaultMethod := ← Json.defaulted? standard.defaultMethod Json.str? defaultMethod
      methods := ← Json.defaulted? standard.methods (Json.keyedOf? Method.ofJson?) methods
      dice := ← Json.defaulted? standard.dice (Json.keyedOf? Json.str?) dice }
  | _ => none

/-- A configuration as a document. -/
def Config.toJson (c : Config) : Json :=
  .obj
    [("max_rolls", match c.maxRolls with
      | some n => .int n
      | none => .null),
     ("fulfillment", c.routing.toJson)]

/-- The parts of a document that are of use for a configuration. -/
def Config.outline : Json.Outline :=
  .record [("max_rolls", .whole), ("fulfillment", Routing.outline)]

/-- Reads a configuration. -/
def Config.ofJson? (j : Json) : Option Config :=
  match j.fields? Config.outline.names with
  | some [maxRolls, routing] => do
    return {
      maxRolls := ← Json.defaulted? (some 1000)
        (Json.nullable? (Json.natUpTo? Text.maxNat64)) maxRolls
      routing := ← Json.defaulted? .standard Routing.ofJson? routing }
  | _ => none

/-- Reads the configuration of a text. -/
def Config.ofText? (text : String) : Option Config :=
  (Json.parseOutline? outline text).bind ofJson?

end DiceNotation
