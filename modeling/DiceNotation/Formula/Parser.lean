/-
  DiceNotation.Formula.Parser

  Reading formulas.

    expression = sign* operand ( sign+ operand | product sign* operand )*
    operand    = atom glue*
    atom       = ( number | dice | prefix | reference | word | call | group | pool ) flavor*

  A run of signs is one sign, a minus if it holds an odd number of them. Glue is a
  fragment of text right behind an operand, or a number or a group right behind
  a fragment.

  Reading functions take a `Cursor` and give back the one they end at. Those that
  call each other take a number of steps, which the length of the formula bounds.
-/

import DiceNotation.Decimal.Reading
import DiceNotation.Formula.Error
import DiceNotation.Formula.Node
import DiceNotation.Formula.Token
import DiceNotation.Modifier.Parser

namespace DiceNotation.Formula

-- ============================================================================
-- Cursors
-- ============================================================================

/-- A place between two tokens. -/
structure Cursor where
  /-- The tokens to come. -/
  rest : List Token
  /-- The position after the last token. -/
  stop : Nat

namespace Cursor

/-- The class of the next token. -/
def kind? (c : Cursor) : Option TokenKind := c.rest.head?.map (·.kind)

/-- Whether the next token is of a class. -/
def isAt (c : Cursor) (kind : TokenKind) : Bool := c.kind? == some kind

/-- Whether the next token stands right behind the last one. -/
def isAdjacent (c : Cursor) : Bool :=
  match c.rest with
  | t :: _ => t.span.start == c.stop
  | [] => false

/-- The place after the next token. -/
def skip (c : Cursor) : Cursor :=
  match c.rest with
  | t :: rest => ⟨rest, t.span.stop⟩
  | [] => c

end Cursor

-- ============================================================================
-- Errors
-- ============================================================================

/-- The classes of tokens that begin an atom, as messages list them. -/
def atomKinds : List TokenKind := [.number, .dice, .identifier, .leftParen, .leftBrace]

/-- The classes of tokens that may follow an expression, as messages list them. -/
def operatorKinds : List TokenKind := [.plus, .minus, .star, .slash, .percent]

/-- The error at the end of a formula. -/
def errorAtEnd (source : List Char) (fault : Fault) : SyntaxError :=
  let length := Text.byteLength source
  .atSpan source ⟨length, length⟩ fault

/-- The error of a token that should have been of another class. -/
def unexpected (source : List Char) (expected : List TokenKind) (c : Cursor) : SyntaxError :=
  let expected := expected.map TokenKind.text
  match c.rest with
  | [] => errorAtEnd source (.unexpectedEnd expected)
  | t :: _ =>
    .atSpan source t.span <| match t.kind with
      | .unrecognized => .unrecognizedInput
      | .emptyFlavor => .emptyFlavor
      | kind => .unexpectedToken kind.text expected

/-- Passes a closing bracket. -/
def close (source : List Char) (closing : TokenKind) (c : Cursor) : Except SyntaxError Cursor :=
  if c.isAt closing then .ok c.skip
  else if c.rest.isEmpty then .error (errorAtEnd source .unbalancedParenthesis)
  else .error (unexpected source [closing, .comma] c)

/-- The error of a modifier suffix that ends at a position, where `chunk` is refused. It
    points at the first occurrence of the chunk. -/
def modifierError (source : List Char) (stop : Nat) (suffix chunk : List Char) : SyntaxError :=
  let start := stop - Text.byteLength suffix + (Text.find? chunk suffix).getD 0
  .atSpan source ⟨start, start + Text.byteLength chunk⟩ (.invalidModifier (String.ofList chunk))

-- ============================================================================
-- Signs and flavors
-- ============================================================================

/-- Passes a run of signs; `soFar` is what the signs before it come to. -/
def signRun (soFar : Option Operator) : List Token → Nat → Option Operator × Cursor
  | [], stop => (soFar, ⟨[], stop⟩)
  | t :: rest, stop =>
    match t.kind with
    | .plus => signRun (soFar.orElse fun _ => some .add) rest t.span.stop
    | .minus => signRun (if soFar == some .sub then some .add else some .sub) rest t.span.stop
    | _ => (soFar, ⟨t :: rest, stop⟩)

/-- Passes a run of signs. It comes to a minus if it holds an odd number of them. -/
def signs (c : Cursor) : Option Operator × Cursor := signRun none c.rest c.stop

/-- An operand after the run of signs before it. -/
def signed (sign : Option Operator) (operand : Node) : Node :=
  if sign == some .sub then .negation operand else operand

/-- The text of a flavor between its brackets. -/
def flavorText (t : Token) : String := String.ofList (t.text.drop 1).dropLast

/-- Reads a run of flavors. -/
def flavorRun (source : List Char) : List Token → Nat → Except SyntaxError (List String × Cursor)
  | [], stop => .ok ([], ⟨[], stop⟩)
  | t :: rest, stop =>
    match t.kind with
    | .flavor => do
      let (more, c) ← flavorRun source rest t.span.stop
      return (flavorText t :: more, c)
    | .emptyFlavor => .error (.atSpan source t.span .emptyFlavor)
    | _ => .ok ([], ⟨t :: rest, stop⟩)

/-- A node with the flavors that follow it; several are joined by spaces. -/
def withFlavors (source : List Char) (node : Node) (c : Cursor) :
    Except SyntaxError (Node × Cursor) := do
  let (flavors, c) ← flavorRun source c.rest c.stop
  if flavors.isEmpty then return (node, c)
  else return (.annotated node (String.intercalate " " flavors), c)

-- ============================================================================
-- Literals
-- ============================================================================

/-- The number that a literal stands for: the nearest double if it has a point, and
    otherwise a whole number, which must have 64 bits. -/
def numberOfLiteral? (text : List Char) : Option Number :=
  let whole := text.takeWhile (· != '.')
  match text.dropWhile (· != '.') with
  | [] => (Text.int64? text).map .int
  | _ :: fraction => some (.ofFloat (Decimal.positional whole fraction))

/-- The node of a number literal. -/
def numberNode (source : List Char) (t : Token) : Except SyntaxError Node :=
  match numberOfLiteral? t.text with
  | some value => .ok (.number value)
  | none => .error (.atSpan source t.span .unrecognizedInput)

/-- A dice literal taken apart: the number of dice, the faces and the modifier suffix. -/
def splitDice (text : List Char) : List Char × List Char × List Char :=
  let count := text.takeWhile (!isDiceLetter ·)
  let rest := (text.dropWhile (!isDiceLetter ·)).drop 1
  let length := max 1 (runLength Char.isDigit rest)
  (count, rest.take length, rest.drop length)

/-- The node of a dice literal. -/
def diceNode (source : List Char) (t : Token) : Except SyntaxError Node :=
  let (count, faces, suffix) := splitDice t.text
  match (if count.isEmpty then some 1 else Text.nat64? count) with
  | none =>
    .error (.atSpan source t.span (.invalidDice (String.ofList count ++ " is too many dice")))
  | some number =>
    match Denomination.ofFaces? faces with
    | none => .error (.atSpan source t.span (.invalidDice (Denomination.refusal faces)))
    | some denomination =>
      match Modifier.ofSuffix (.ofDenomination denomination) suffix with
      | .ok modifiers => .ok (.dice number denomination modifiers)
      | .error chunk => .error (modifierError source t.span.stop suffix chunk)

/-- The node of a pool with its closing brace. -/
def poolNode (source : List Char) (items : List SubFormula) (closing : Token) :
    Except SyntaxError Node :=
  let suffix := closing.text.drop 1
  match Modifier.ofSuffix .pool suffix with
  | .ok modifiers => .ok (.pool items modifiers)
  | .error chunk => .error (modifierError source closing.span.stop suffix chunk)

/-- The text of a formula within a formula, between two positions. -/
def subText (source : List Char) (start stop : Nat) : String :=
  String.ofList (Text.trim ((Text.slice? source ⟨start, stop⟩).getD []))

-- ============================================================================
-- Expressions
-- ============================================================================

mutual

/-- Reads operands and the operators between them. -/
def readExpression (source : List Char) : Nat → Cursor → Except SyntaxError (List Node × Cursor)
  | 0, c => .error (unexpected source atomKinds c)
  | fuel + 1, c => do
    let (sign, c) := signs c
    let (operand, c) ← readOperand source fuel c
    let (rest, c) ← readRest source fuel c
    return (signed sign operand :: rest, c)

/-- Reads what may follow the first operand. -/
def readRest (source : List Char) : Nat → Cursor → Except SyntaxError (List Node × Cursor)
  | 0, c => .error (unexpected source operatorKinds c)
  | fuel + 1, c =>
    match signs c with
    | (some op, c) => do
      let (operand, c) ← readOperand source fuel c
      let (rest, c) ← readRest source fuel c
      return (.operator op :: operand :: rest, c)
    | (none, _) =>
      match c.kind?.bind TokenKind.operator? with
      | some op => do
        let (sign, c) := signs c.skip
        let (operand, c) ← readOperand source fuel c
        let (rest, c) ← readRest source fuel c
        return (.operator op :: signed sign operand :: rest, c)
      | none => .ok ([], c)

/-- Reads an atom and what is glued to it. -/
def readOperand (source : List Char) : Nat → Cursor → Except SyntaxError (Node × Cursor)
  | 0, c => .error (unexpected source atomKinds c)
  | fuel + 1, c => do
    let (first, c) ← readAtom source fuel c
    let (more, c) ← readGlue source fuel first.isText c
    if more.isEmpty then return (first, c) else return (.glued (first :: more), c)

/-- Reads what is glued to an operand; `afterText` says whether its last part is a
    fragment of text. -/
def readGlue (source : List Char) : Nat → Bool → Cursor → Except SyntaxError (List Node × Cursor)
  | 0, _, c => .ok ([], c)
  | fuel + 1, afterText, c =>
    match c.isAdjacent, c.rest with
    | true, t :: rest =>
      match t.kind with
      | .dice | .dicePrefix | .identifier | .dataReference => do
        let (part, c) ←
          withFlavors source (.text (String.ofList t.text)) ⟨rest, t.span.stop⟩
        let (more, c) ← readGlue source fuel part.isText c
        return (part :: more, c)
      | .leftParen | .number =>
        if afterText then do
          let (part, c) ← readAtom source fuel c
          let (more, c) ← readGlue source fuel part.isText c
          return (part :: more, c)
        else .ok ([], c)
      | _ => .ok ([], c)
    | _, _ => .ok ([], c)

/-- Reads an atom and its flavors. -/
def readAtom (source : List Char) : Nat → Cursor → Except SyntaxError (Node × Cursor)
  | 0, c => .error (unexpected source atomKinds c)
  | fuel + 1, c =>
    match c.rest with
    | [] => .error (unexpected source atomKinds c)
    | t :: rest =>
      let next : Cursor := ⟨rest, t.span.stop⟩
      match t.kind with
      | .number => do withFlavors source (← numberNode source t) next
      | .dice => do withFlavors source (← diceNode source t) next
      | .dicePrefix | .dataReference => withFlavors source (.text (String.ofList t.text)) next
      | .identifier =>
        if next.isAdjacent && next.isAt .leftParen then do
          let (arguments, c) ←
            if next.skip.isAt .rightParen then pure ([], next.skip)
            else readList source fuel next.skip
          let c ← close source .rightParen c
          withFlavors source (.function (String.ofList t.text) arguments) c
        else withFlavors source (.text (String.ofList t.text)) next
      | .leftParen => do
        let (inner, c) ← readSub source fuel next
        let c ← close source .rightParen c
        withFlavors source (.parenthetical inner) c
      | .leftBrace =>
        match next.rest with
        | ⟨.rightBrace, _, span⟩ :: _ =>
          .error (.atSpan source ⟨t.span.start, span.stop⟩ .emptyPool)
        | _ => do
          let (items, c) ← readList source fuel next
          let after ← close source .rightBrace c
          match c.rest with
          | closing :: _ => withFlavors source (← poolNode source items closing) after
          | [] => .error (unexpected source atomKinds c)
      | _ => .error (unexpected source atomKinds c)

/-- Reads formulas with commas between them. -/
def readList (source : List Char) : Nat → Cursor → Except SyntaxError (List SubFormula × Cursor)
  | 0, c => .error (unexpected source atomKinds c)
  | fuel + 1, c => do
    let (first, c) ← readSub source fuel c
    if c.isAt .comma then do
      let (more, c) ← readList source fuel c.skip
      return (first :: more, c)
    else return ([first], c)

/-- Reads a formula within a formula. -/
def readSub (source : List Char) : Nat → Cursor → Except SyntaxError (SubFormula × Cursor)
  | 0, c => .error (unexpected source atomKinds c)
  | fuel + 1, c => do
    let (nodes, after) ← readExpression source fuel c
    return (⟨subText source c.stop after.stop, nodes⟩, after)

end

-- ============================================================================
-- Formulas
-- ============================================================================

/-- The nodes of a formula, of which nothing may be left. -/
def parseChars (source : List Char) : Except SyntaxError (List Node) := do
  let ts := tokens source
  let (nodes, c) ← readExpression source (8 * (ts.length + 1)) ⟨ts, 0⟩
  match c.rest with
  | [] => return nodes
  | t :: _ =>
    if t.kind == .rightParen then throw (.atSpan source t.span .unbalancedParenthesis)
    else throw (unexpected source operatorKinds c)

/-- The nodes of a formula. -/
def parse (formula : String) : Except SyntaxError (List Node) := parseChars formula.toList

end DiceNotation.Formula
