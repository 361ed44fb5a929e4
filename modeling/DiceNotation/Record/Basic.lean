/-
  DiceNotation.Record.Basic

  Records of rolls.

  A record holds what a roll is made of as plain data: modifiers are texts, and
  each kind of term has a class. `Roll.toRecord` writes a roll down. `Roll.ofRecord`
  checks what a record cannot guarantee by itself: the class of a roll, faces,
  modifiers, and that the dice of replaced terms are dice. A roll that was
  evaluated and whose total was left out gets the total of its terms.
-/

import DiceNotation.Modifier.Parser
import DiceNotation.Roll.Total

namespace DiceNotation

-- ============================================================================
-- Records
-- ============================================================================

/-- What the records of dice and pools have in common. -/
structure ResultsRecord where
  modifiers : List String := []
  results : List DieResult := []
  annotations : Annotations := {}
  evaluated : Bool := false

mutual

/-- The record of a roll. -/
structure RollRecord where
  className : String
  formula : String
  data : Json
  annotations : Annotations
  terms : List TermRecord
  total : Option Number
  evaluated : Bool
  /-- The dice of terms that were replaced by their values. -/
  dice : List TermRecord

/-- The record of a term. -/
inductive TermRecord where
  | numeric (number : Number) (annotations : Annotations)
  | operator (op : Operator) (annotations : Annotations)
  | die (number faces : Nat) (held : ResultsRecord)
  | coin (number : Nat) (held : ResultsRecord)
  | fateDie (number : Nat) (held : ResultsRecord)
  | pool (texts : List String) (rolls : List RollRecord) (held : ResultsRecord)
  | function (name : String) (texts : List String) (rolls : List RollRecord)
      (result : Option Number) (annotations : Annotations)
  | parenthetical (text : String) (roll : RollRecord) (annotations : Annotations)
  | text (content : String) (annotations : Annotations) (evaluated : Bool)

end

-- ============================================================================
-- Writing
-- ============================================================================

/-- The record of dice. -/
def Dice.toRecord (d : Dice) : TermRecord :=
  let held : ResultsRecord :=
    ⟨d.modifiers.map (·.text), d.results, d.annotations, d.evaluated⟩
  match d.denomination with
  | .die faces => .die d.number faces held
  | .coin => .coin d.number held
  | .fate => .fateDie d.number held

mutual

/-- The record of a roll. -/
def Roll.toRecord : Roll → RollRecord
  | ⟨formula, data, annotations, terms, total, evaluated, collapsed⟩ =>
    ⟨rollClass, formula, data, annotations, Term.recordsOf terms, total, evaluated,
      collapsed.map Dice.toRecord⟩

/-- The record of a term. -/
def Term.toRecord : Term → TermRecord
  | .numeric n a => .numeric n a
  | .operator op a => .operator op a
  | .dice d => d.toRecord
  | .pool p rolls =>
    .pool p.items (Roll.recordsOf rolls)
      ⟨p.modifiers.map (·.text), p.results, p.annotations, p.evaluated⟩
  | .function name texts rolls result a => .function name texts (Roll.recordsOf rolls) result a
  | .parenthetical text roll a => .parenthetical text roll.toRecord a
  | .text content a evaluated => .text content a evaluated

/-- The records of terms in a row. -/
def Term.recordsOf : List Term → List TermRecord
  | [] => []
  | t :: rest => t.toRecord :: Term.recordsOf rest

/-- The records of rolls in a row. -/
def Roll.recordsOf : List Roll → List RollRecord
  | [] => []
  | r :: rest => r.toRecord :: Roll.recordsOf rest

end

-- ============================================================================
-- Reading
-- ============================================================================

/-- Reads modifiers of a family. -/
def Modifier.ofTexts (f : Modifier.Family) (texts : List String) :
    Except RecordError (List Modifier) :=
  (Modifier.ofChunks f (texts.map String.toList)).mapError fun chunk =>
    .invalidModifier (String.ofList chunk)

/-- Reads dice of a denomination. -/
def Dice.ofRecord (number : Nat) (denomination : Denomination) (held : ResultsRecord) :
    Except RecordError Dice := do
  if denomination.faces = 0 then throw .noFaces
  let modifiers ← Modifier.ofTexts (.ofDenomination denomination) held.modifiers
  return {
    number
    denomination
    modifiers
    results := held.results
    annotations := held.annotations
    evaluated := held.evaluated }

mutual

/-- Reads the record of a roll. -/
def Roll.ofRecord : RollRecord → Except RollError Roll
  | ⟨className, formula, data, annotations, terms, total, evaluated, dice⟩ => do
    if className ≠ rollClass then throw (.record (.unexpectedClass className))
    let terms ← Term.ofRecords terms
    let collapsed ← Term.diceOfRecords dice
    let total ← if evaluated && total.isNone then some <$> Term.totalOf formula terms
      else pure total
    return ⟨formula, data, annotations, terms, total, evaluated, collapsed⟩

/-- Reads the record of a term. -/
def Term.ofRecord : TermRecord → Except RollError Term
  | .numeric n a => .ok (.numeric n a)
  | .operator op a => .ok (.operator op a)
  | .die number faces held => .dice <$> (Dice.ofRecord number (.die faces) held).mapError .record
  | .coin number held => .dice <$> (Dice.ofRecord number .coin held).mapError .record
  | .fateDie number held => .dice <$> (Dice.ofRecord number .fate held).mapError .record
  | .pool texts rolls held => do
    let rolls ← Roll.ofRecords rolls
    let modifiers ← (Modifier.ofTexts .pool held.modifiers).mapError .record
    return .pool ⟨texts, modifiers, held.results, held.annotations, held.evaluated⟩ rolls
  | .function name texts rolls result a => do
    let rolls ← Roll.ofRecords rolls
    return .function name texts rolls result a
  | .parenthetical text roll a => do
    let roll ← Roll.ofRecord roll
    return .parenthetical text roll a
  | .text content a evaluated => .ok (.text content a evaluated)

/-- Reads the records of terms in a row. -/
def Term.ofRecords : List TermRecord → Except RollError (List Term)
  | [] => .ok []
  | t :: rest => do
    let t ← Term.ofRecord t
    let more ← Term.ofRecords rest
    return t :: more

/-- Reads the records of dice in a row. -/
def Term.diceOfRecords : List TermRecord → Except RollError (List Dice)
  | [] => .ok []
  | t :: rest => do
    match ← Term.ofRecord t with
    | .dice d => do
      let more ← Term.diceOfRecords rest
      return d :: more
    | other => throw (.record (.notDice other.formula))

/-- Reads the records of rolls in a row. -/
def Roll.ofRecords : List RollRecord → Except RollError (List Roll)
  | [] => .ok []
  | r :: rest => do
    let r ← Roll.ofRecord r
    let more ← Roll.ofRecords rest
    return r :: more

end

end DiceNotation
