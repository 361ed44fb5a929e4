/-
  DiceNotation.Record.Document

  Records as documents.

  Every record of a term begins with its class. Flags of a result that are not set
  and values that are not there are left out, and so are the dice of replaced terms
  if there are none. What a caller attached to a term stands after its flavor, in
  the order of the keys.

  A document that is read may leave out what has a default, and members that no
  record has are passed over; those of the outermost record only have to be well
  formed. A record whose fields are all its own may also be an array of their
  values.
-/

import DiceNotation.Json.Parser
import DiceNotation.Json.Printer
import DiceNotation.Record.Basic

namespace DiceNotation

-- ============================================================================
-- Writing
-- ============================================================================

/-- A number that may be missing. -/
def optionalNumber : Option Number → Json
  | some n => n.toJson
  | none => .null

/-- Annotations as a document. -/
def Annotations.toJson (a : Annotations) : Json :=
  .obj ((a.flavor.map fun f => ("flavor", Json.str f)).toList ++ a.extra)

/-- A result as a document. -/
def DieResult.toJson (r : DieResult) : Json :=
  .obj ([("result", .int r.result), ("active", .bool r.active)] ++
    (r.count.map fun n => ("count", Json.int n)).toList ++
    (r.success.map fun b => ("success", Json.bool b)).toList ++
    (r.failure.map fun b => ("failure", Json.bool b)).toList ++
    [("discarded", r.discarded), ("rerolled", r.rerolled), ("exploded", r.exploded)].filterMap
      fun (name, set) => if set then some (name, Json.bool true) else none)

/-- The members that dice and pools have in common. -/
def ResultsRecord.members (h : ResultsRecord) : List (String × Json) :=
  [("modifiers", .arr (h.modifiers.map .str)),
   ("results", .arr (h.results.map DieResult.toJson)),
   ("options", h.annotations.toJson),
   ("evaluated", .bool h.evaluated)]

mutual

/-- The record of a roll as a document. -/
def RollRecord.toJson : RollRecord → Json
  | ⟨className, formula, data, annotations, terms, total, evaluated, dice⟩ =>
    .obj ([("class", .str className),
      ("formula", .str formula),
      ("data", data),
      ("options", annotations.toJson),
      ("terms", .arr (TermRecord.toJsons terms)),
      ("total", optionalNumber total),
      ("evaluated", .bool evaluated)] ++
      if dice.isEmpty then [] else [("dice", .arr (TermRecord.toJsons dice))])

/-- The record of a term as a document. -/
def TermRecord.toJson : TermRecord → Json
  | .numeric n a =>
    .obj [("class", .str "NumericTerm"), ("number", n.toJson), ("options", a.toJson)]
  | .operator op a =>
    .obj [("class", .str "OperatorTerm"), ("operator", .str op.text), ("options", a.toJson)]
  | .die number faces held =>
    .obj ([("class", .str "Die"), ("number", .int number), ("faces", .int faces)] ++ held.members)
  | .coin number held => .obj ([("class", .str "Coin"), ("number", .int number)] ++ held.members)
  | .fateDie number held =>
    .obj ([("class", .str "FateDie"), ("number", .int number)] ++ held.members)
  | .pool texts rolls held =>
    .obj ([("class", .str "PoolTerm"), ("terms", .arr (texts.map .str)),
      ("rolls", .arr (RollRecord.toJsons rolls))] ++ held.members)
  | .function name texts rolls result a =>
    .obj [("class", .str "FunctionTerm"), ("fn", .str name), ("terms", .arr (texts.map .str)),
      ("rolls", .arr (RollRecord.toJsons rolls)), ("result", optionalNumber result),
      ("options", a.toJson)]
  | .parenthetical text roll a =>
    .obj [("class", .str "ParentheticalTerm"), ("term", .str text), ("roll", roll.toJson),
      ("options", a.toJson)]
  | .text content a evaluated =>
    .obj [("class", .str "StringTerm"), ("term", .str content), ("options", a.toJson),
      ("evaluated", .bool evaluated)]

/-- The records of terms as documents. -/
def TermRecord.toJsons : List TermRecord → List Json
  | [] => []
  | t :: rest => t.toJson :: TermRecord.toJsons rest

/-- The records of rolls as documents. -/
def RollRecord.toJsons : List RollRecord → List Json
  | [] => []
  | r :: rest => r.toJson :: RollRecord.toJsons rest

end

-- ============================================================================
-- Reading fields
-- ============================================================================

/-- A whole number of 64 bits. -/
def Json.int64? : Json → Option Int := Json.intBetween? Text.minInt64 Text.maxInt64

/-- A natural number of 64 bits. -/
def Json.nat64? : Json → Option Nat := Json.natUpTo? Text.maxNat64

/-- A natural number of 32 bits. -/
def Json.nat32? : Json → Option Nat := Json.natUpTo? Text.maxNat32

/-- Reads annotations: a flavor and any other members. -/
def Annotations.ofJson? (j : Json) : Option Annotations := do
  let members ← j.members?
  match ← Json.fieldsAmong? ["flavor"] members with
  | [flavor] => do
    let extra := members.filter fun (k, _) => k != "flavor"
    return {
      flavor := ← Json.defaulted? none (Json.nullable? Json.str?) flavor
      extra := Keyed.ofList (Json.canonicalMembers extra) }
  | _ => none

/-- Reads a result. -/
def DieResult.ofJson? (j : Json) : Option DieResult :=
  match j.fields? ["result", "active", "count", "success", "failure", "discarded", "rerolled",
    "exploded"] with
  | some [result, active, count, success, failure, discarded, rerolled, exploded] => do
    return {
      result := ← Json.required? Json.int64? result
      active := ← Json.defaulted? true Json.bool? active
      count := ← Json.defaulted? none (Json.nullable? Json.int64?) count
      success := ← Json.defaulted? none (Json.nullable? Json.bool?) success
      failure := ← Json.defaulted? none (Json.nullable? Json.bool?) failure
      discarded := ← Json.defaulted? false Json.bool? discarded
      rerolled := ← Json.defaulted? false Json.bool? rerolled
      exploded := ← Json.defaulted? false Json.bool? exploded }
  | _ => none

/-- Reads the members that dice and pools have in common. -/
def ResultsRecord.ofMembers? (members : List (String × Json)) : Option ResultsRecord := do
  match ← Json.fieldsAmong? ["modifiers", "results", "options", "evaluated"] members with
  | [modifiers, results, options, evaluated] => do
    return {
      modifiers := ← Json.defaulted? [] (Json.listOf? Json.str?) modifiers
      results := ← Json.defaulted? [] (Json.listOf? DieResult.ofJson?) results
      annotations := ← Json.defaulted? {} Annotations.ofJson? options
      evaluated := ← Json.defaulted? false Json.bool? evaluated }
  | _ => none

/-- Reads an operator: its sign, or an object with the sign as its only key and nothing
    under it. -/
def Operator.ofJson? : Json → Option Operator
  | .str sign | .obj [(sign, .null)] | .obj [(sign, .obj [])] =>
    match sign.toList with
    | [c] => Operator.ofSign? c
    | _ => none
  | _ => none

-- ============================================================================
-- Reading records
-- ============================================================================

/-- Splits the record of a term into its class and its fields. -/
def TermRecord.split? : Json → Option (String × Json)
  | .obj members => do
    match ← Json.fieldsAmong? ["class"] members with
    | [some (.str name)] => some (name, .obj (members.filter fun (k, _) => k != "class"))
    | _ => none
  | .arr (.str name :: items) => some (name, .arr items)
  | _ => none

/-- Reads the record of dice that have a number and results. -/
def TermRecord.dice? (make : Nat → ResultsRecord → TermRecord) (fields : Json) :
    Option TermRecord := do
  let members ← fields.members?
  match ← Json.fieldsAmong? ["number"] members with
  | [number] => do
    let number ← Json.required? Json.nat64? number
    return make number (← ResultsRecord.ofMembers? members)
  | _ => none

/-- The parts of a document that are of use for the record of a roll. -/
def RollRecord.outline : Json.Outline :=
  .fields ["class", "formula", "data", "options", "terms", "total", "evaluated", "dice"]

mutual

/-- Reads the record of a roll in which documents lie no deeper than `depth`. -/
def RollRecord.read? : (depth : Nat) → Json → Option RollRecord
  | 0, _ => none
  | depth + 1, j =>
    match j.fields? RollRecord.outline.names with
    | some [className, formula, data, options, terms, total, evaluated, dice] => do
      return {
        className := ← Json.required? Json.str? className
        formula := ← Json.required? Json.str? formula
        data := (data.getD .null).canonical
        annotations := ← Json.defaulted? {} Annotations.ofJson? options
        terms := ← Json.required? (Json.listOf? (TermRecord.read? depth)) terms
        total := ← Json.defaulted? none (Json.nullable? Number.ofJson?) total
        evaluated := ← Json.defaulted? false Json.bool? evaluated
        dice := ← Json.defaulted? [] (Json.listOf? (TermRecord.read? depth)) dice }
    | _ => none

/-- Reads the record of a term in which documents lie no deeper than `depth`. -/
def TermRecord.read? : (depth : Nat) → Json → Option TermRecord
  | 0, _ => none
  | depth + 1, j => do
    let (name, fields) ← TermRecord.split? j
    match name with
    | "NumericTerm" =>
      match ← fields.fields? ["number", "options"] with
      | [number, options] =>
        return .numeric (← Json.required? Number.ofJson? number)
          (← Json.defaulted? {} Annotations.ofJson? options)
      | _ => none
    | "OperatorTerm" =>
      match ← fields.fields? ["operator", "options"] with
      | [op, options] =>
        return .operator (← Json.required? Operator.ofJson? op)
          (← Json.defaulted? {} Annotations.ofJson? options)
      | _ => none
    | "Die" =>
      match ← Json.fieldsAmong? ["faces"] (← fields.members?) with
      | [faces] => do
        let faces ← Json.required? Json.nat32? faces
        TermRecord.dice? (fun number held => .die number faces held) fields
      | _ => none
    | "Coin" => TermRecord.dice? .coin fields
    | "FateDie" => TermRecord.dice? .fateDie fields
    | "PoolTerm" => do
      let members ← fields.members?
      match ← Json.fieldsAmong? ["terms", "rolls"] members with
      | [texts, rolls] =>
        return .pool (← Json.required? (Json.listOf? Json.str?) texts)
          (← Json.required? (Json.listOf? (RollRecord.read? depth)) rolls)
          (← ResultsRecord.ofMembers? members)
      | _ => none
    | "FunctionTerm" =>
      match ← fields.fields? ["fn", "terms", "rolls", "result", "options"] with
      | [function, texts, rolls, result, options] =>
        return .function (← Json.required? Json.str? function)
          (← Json.required? (Json.listOf? Json.str?) texts)
          (← Json.required? (Json.listOf? (RollRecord.read? depth)) rolls)
          (← Json.defaulted? none (Json.nullable? Number.ofJson?) result)
          (← Json.defaulted? {} Annotations.ofJson? options)
      | _ => none
    | "ParentheticalTerm" =>
      match ← fields.fields? ["term", "roll", "options"] with
      | [text, roll, options] =>
        return .parenthetical (← Json.required? Json.str? text)
          (← Json.required? (RollRecord.read? depth) roll)
          (← Json.defaulted? {} Annotations.ofJson? options)
      | _ => none
    | "StringTerm" =>
      match ← fields.fields? ["term", "options", "evaluated"] with
      | [content, options, evaluated] =>
        return .text (← Json.required? Json.str? content)
          (← Json.defaulted? {} Annotations.ofJson? options)
          (← Json.defaulted? false Json.bool? evaluated)
      | _ => none
    | _ => none

end

/-- Reads the record of a roll. -/
def RollRecord.ofJson? (j : Json) : Option RollRecord := RollRecord.read? j.depth j

/-- Reads the record of a term. -/
def TermRecord.ofJson? (j : Json) : Option TermRecord := TermRecord.read? j.depth j

-- ============================================================================
-- Rolls
-- ============================================================================

/-- A roll as a text. -/
def Roll.toText (r : Roll) : String := r.toRecord.toJson.render

/-- Reads the roll of a text. -/
def Roll.ofText (text : String) : Except RollError Roll :=
  match (Json.parseOutline? RollRecord.outline text).bind RollRecord.ofJson? with
  | some record => Roll.ofRecord record
  | none => .error (.record .malformed)

/-- Reads terms, each a document. -/
def Term.ofJsons (js : List Json) : Except RollError (List Term) :=
  js.mapM fun j =>
    match TermRecord.ofJson? j with
    | some record => Term.ofRecord record
    | none => .error (.record .malformed)

end DiceNotation
