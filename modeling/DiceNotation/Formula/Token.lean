/-
  DiceNotation.Formula.Token

  The tokens of formulas.

  At each place the longest token wins; of a dice literal and a word of the same
  length it is the dice literal. Separators are passed over. A character that
  begins no token is an error token of its own, but for a flavor that is never
  closed, which takes all the text that is left.

  Each class of tokens is given by the length of the longest token of the class
  at the head of a text, zero when there is none (`rules`).
-/

import DiceNotation.Operator
import DiceNotation.Text.Blank
import DiceNotation.Text.Bytes

namespace DiceNotation.Formula

-- ============================================================================
-- Classes of tokens
-- ============================================================================

/-- The class of a token. -/
inductive TokenKind where
  | number
  /-- Dice with their modifiers, such as `4d6kh3` or `dF`. -/
  | dice
  /-- Dice whose faces are still missing, such as `2d`. -/
  | dicePrefix
  | identifier
  /-- A reference to data, such as `@level`. -/
  | dataReference
  | leftParen
  | rightParen
  | leftBrace
  /-- A closing brace with the modifiers of the pool. -/
  | rightBrace
  | comma
  | plus
  | minus
  | star
  | slash
  | percent
  | flavor
  | emptyFlavor
  | unrecognized
  deriving DecidableEq, Repr

namespace TokenKind

/-- What messages call a class of tokens. -/
def text : TokenKind → String
  | number => "<number>"
  | dice => "<dice>"
  | dicePrefix => "<dice prefix>"
  | identifier => "<identifier>"
  | dataReference => "<data reference>"
  | leftParen => "'('"
  | rightParen => "')'"
  | leftBrace => "'\x7b'"
  | rightBrace => "'\x7d'"
  | comma => "','"
  | plus => "'+'"
  | minus => "'-'"
  | star => "'*'"
  | slash => "'/'"
  | percent => "'%'"
  | flavor => "<flavor>"
  | emptyFlavor | unrecognized => "<error>"

/-- The operator that a class of tokens stands for. -/
def operator? : TokenKind → Option Operator
  | plus => some .add
  | minus => some .sub
  | star => some .mul
  | slash => some .div
  | percent => some .rem
  | _ => none

end TokenKind

-- ============================================================================
-- Lengths of tokens
-- ============================================================================

/-- How many characters of a class stand at the head of a text. -/
def runLength (p : Char → Bool) : List Char → Nat
  | [] => 0
  | c :: rest => if p c then 1 + runLength p rest else 0

/-- Digits with a point after, within or before them. -/
def numberLength (cs : List Char) : Nat :=
  let whole := runLength Char.isDigit cs
  match cs.drop whole with
  | '.' :: rest =>
    let fraction := runLength Char.isDigit rest
    if whole == 0 && fraction == 0 then 0 else whole + 1 + fraction
  | _ => whole

/-- How far a modifier suffix has come. -/
inductive SuffixState where
  /-- Only a letter can follow. -/
  | between
  | letters
  /-- After an angle, which an equals sign may follow. -/
  | angle
  /-- After a comparison or a digit. -/
  | argument
  deriving DecidableEq, Repr

/-- The state after a further character, if the suffix goes on. -/
def SuffixState.next? (state : SuffixState) (c : Char) : Option SuffixState :=
  if c.isAlpha then some .letters
  else match state with
    | .between => none
    | .letters =>
      if c == '<' || c == '>' then some .angle
      else if c == '=' || c.isDigit then some .argument
      else none
    | .angle => if c == '=' || c.isDigit then some .argument else none
    | .argument => if c.isDigit then some .argument else none

/-- The length of a modifier suffix: chunks of letters, a comparison and digits, where
    only the letters are needed. -/
def suffixLength (state : SuffixState) : List Char → Nat
  | [] => 0
  | c :: rest =>
    match state.next? c with
    | some state => 1 + suffixLength state rest
    | none => 0

/-- Whether a letter introduces the faces of dice. -/
def isDiceLetter (c : Char) : Bool := c == 'd' || c == 'D'

/-- Whether a letter stands for the faces of a coin or of a fate die. -/
def isFaceLetter (c : Char) : Bool := c == 'c' || c == 'C' || c == 'f' || c == 'F'

/-- The faces of dice: digits or one letter. -/
def facesLength (cs : List Char) : Nat :=
  match cs with
  | c :: _ => if isFaceLetter c then 1 else runLength Char.isDigit cs
  | [] => 0

/-- Dice: a number that may be missing, the letter, faces and a modifier suffix. -/
def diceLength (cs : List Char) : Nat :=
  let number := runLength Char.isDigit cs
  match cs.drop number with
  | letter :: rest =>
    if isDiceLetter letter then
      let faces := facesLength rest
      if faces == 0 then 0
      else number + 1 + faces + suffixLength .between (rest.drop faces)
    else 0
  | [] => 0

/-- A number and the letter of dice. -/
def dicePrefixLength (cs : List Char) : Nat :=
  let number := runLength Char.isDigit cs
  match cs.drop number with
  | letter :: _ => if number != 0 && isDiceLetter letter then number + 1 else 0
  | [] => 0

/-- Whether a character may begin a word. -/
def isWordStart (c : Char) : Bool := c.isAlpha || c == '_'

/-- Whether a character may stand inside a word. -/
def isWordChar (c : Char) : Bool := c.isAlphanum || c == '_'

/-- A word that begins with no digit. -/
def identifierLength : List Char → Nat
  | c :: rest => if isWordStart c then 1 + runLength isWordChar rest else 0
  | [] => 0

/-- Whether a character may stand in the path of a data reference. -/
def isPathChar (c : Char) : Bool := c.isAlphanum || c == '_' || c == '.' || c == '-'

/-- A path after an at sign. -/
def dataReferenceLength : List Char → Nat
  | '@' :: rest =>
    let path := runLength isPathChar rest
    if path == 0 then 0 else 1 + path
  | _ => 0

/-- A closing brace and a modifier suffix. -/
def rightBraceLength : List Char → Nat
  | '\x7d' :: rest => 1 + suffixLength .between rest
  | _ => 0

/-- A text between brackets. -/
def flavorLength : List Char → Nat
  | '[' :: rest =>
    let inside := runLength (· != ']') rest
    if inside != 0 && inside < rest.length then inside + 2 else 0
  | _ => 0

/-- A pair of brackets with nothing between them. -/
def emptyFlavorLength : List Char → Nat
  | '[' :: ']' :: _ => 2
  | _ => 0

/-- A single character. -/
def charLength (expected : Char) : List Char → Nat
  | c :: _ => if c == expected then 1 else 0
  | [] => 0

/-- The classes of tokens with the lengths of their longest tokens. Of two classes with
    tokens of the same length the earlier one has it. -/
def rules : List (TokenKind × (List Char → Nat)) :=
  [(.number, numberLength), (.dice, diceLength), (.dicePrefix, dicePrefixLength),
   (.identifier, identifierLength), (.dataReference, dataReferenceLength),
   (.leftParen, charLength '('), (.rightParen, charLength ')'),
   (.leftBrace, charLength '\x7b'), (.rightBrace, rightBraceLength),
   (.comma, charLength ','), (.plus, charLength '+'), (.minus, charLength '-'),
   (.star, charLength '*'), (.slash, charLength '/'), (.percent, charLength '%'),
   (.flavor, flavorLength), (.emptyFlavor, emptyFlavorLength)]

/-- The length of an error token; a bracket begins one only if it is never closed. -/
def unrecognizedLength : List Char → Nat
  | '[' :: rest => 1 + rest.length
  | _ => 1

/-- The class and length of the token at the head of a text. -/
def longest (cs : List Char) : TokenKind × Nat :=
  let best := rules.foldl
    (fun best (kind, length) => if best.2 < length cs then (kind, length cs) else best)
    (TokenKind.unrecognized, 0)
  if best.2 == 0 then (.unrecognized, unrecognizedLength cs) else best

-- ============================================================================
-- Tokens
-- ============================================================================

/-- A token, its text and where it stands. -/
structure Token where
  kind : TokenKind
  text : List Char
  span : Text.Span
  deriving DecidableEq, Repr

/-- The tokens of a text that begins at a byte position; `fuel` bounds the number of
    characters left. -/
def tokensFrom : Nat → Nat → List Char → List Token
  | 0, _, _ => []
  | _ + 1, _, [] => []
  | fuel + 1, position, c :: rest =>
    if Text.isSeparator c then tokensFrom fuel (position + c.utf8Size) rest
    else
      let (kind, length) := longest (c :: rest)
      let text := (c :: rest).take length
      let stop := position + Text.byteLength text
      ⟨kind, text, ⟨position, stop⟩⟩ :: tokensFrom fuel stop ((c :: rest).drop length)

/-- The tokens of a formula. -/
def tokens (cs : List Char) : List Token := tokensFrom cs.length 0 cs

end DiceNotation.Formula
