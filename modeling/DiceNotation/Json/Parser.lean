/-
  DiceNotation.Json.Parser

  Reading JSON documents.

  A document is one value with blanks around it. Arrays and objects nest at most
  127 deep. A number without point and exponent is a whole number if it has 64
  bits, signed or not, with `-0` as the exception; any other number is a double,
  read from as many leading digits as 64 bits hold. A number beyond the doubles,
  a control character in a string and half of a surrogate pair are refused.

  A member that is of no use to the reader (`Outline`) is passed over. Its value
  has to be well formed, but may nest as deep as it likes, and neither the size of
  its numbers nor the surrogates in its strings matter.

  The number of steps is bounded by the length of the text.
-/

import DiceNotation.Json.Lexeme
import DiceNotation.Json.Outline
import DiceNotation.Text.Numeral

namespace DiceNotation.Json

-- ============================================================================
-- Numbers
-- ============================================================================

/-- A double from the digits before and after the point and the exponent. The digits
    after the point count only as far as 64 bits hold them. -/
def readDouble (negative : Bool) (whole fraction : List Char) (exponent : Int) :
    Option Json := do
  let (significand, left) := Decimal.takeDigits Text.maxNat64 0 whole
  let (significand, skipped) := Decimal.takeDigits Text.maxNat64 significand fraction
  let used : Int := (fraction.length - skipped.length : Nat)
  let x ← Decimal.scaled significand (exponent + left.length - used)
  return float (if negative then -x else x)

/-- A number without point and exponent. -/
def readWhole (negative : Bool) (whole : List Char) : Option Json :=
  let n := Decimal.ofDigits whole
  if negative then
    if n == 0 || Nat.pow 2 63 < n then readDouble negative whole [] 0 else some (int (-n))
  else if n ≤ Text.maxNat64 then some (int n) else readDouble negative whole [] 0

/-- The value of a number as it is written. -/
def Numeral.value? (n : Numeral) : Option Json :=
  match n.exponent with
  | some exponent => readDouble n.negative n.whole n.fraction exponent
  | none =>
    if n.fraction.isEmpty then readWhole n.negative n.whole
    else readDouble n.negative n.whole n.fraction 0

/-- A word or a number, and the text after it. -/
def readScalar (cs : List Char) : Option (Json × List Char) :=
  match readWord cs with
  | some read => some read
  | none => do
    let (n, rest) ← readNumeral cs
    return (← n.value?, rest)

-- ============================================================================
-- Passing over values
-- ============================================================================

/-- The text after a word, a number or a string that is passed over. -/
def skipScalar : List Char → Option (List Char)
  | '"' :: rest => skipString rest
  | cs =>
    match readWord cs with
    | some (_, rest) => some rest
    | none => (readNumeral cs).map Prod.snd

/-- What is due while a value is passed over. -/
inductive Due where
  | value
  | member
  /-- A comma or a closing bracket. -/
  | after
  deriving DecidableEq, Repr

/-- Passes over what is left of a value. The closing brackets of the arrays and objects
    that are open are held innermost first; `fuel` bounds the number of parts left. -/
def skipFrom : (fuel : Nat) → Due → (opened : List Char) → List Char → Option (List Char)
  | _, .after, [], cs => some cs
  | 0, _, _, _ => none
  | fuel + 1, .value, opened, cs =>
    match skipSpace cs with
    | '[' :: rest =>
      match skipSpace rest with
      | ']' :: rest => skipFrom fuel .after opened rest
      | rest => skipFrom fuel .value (']' :: opened) rest
    | '\x7b' :: rest =>
      match skipSpace rest with
      | '\x7d' :: rest => skipFrom fuel .after opened rest
      | rest => skipFrom fuel .member ('\x7d' :: opened) rest
    | rest =>
      match skipScalar rest with
      | some rest => skipFrom fuel .after opened rest
      | none => none
  | fuel + 1, .member, opened, cs =>
    match skipSpace cs with
    | '"' :: rest =>
      match skipString rest with
      | none => none
      | some rest =>
        match skipSpace rest with
        | ':' :: rest => skipFrom fuel .value opened rest
        | _ => none
    | _ => none
  | fuel + 1, .after, closing :: opened, cs =>
    match skipSpace cs with
    | [] => none
    | c :: rest =>
      if c == closing then skipFrom fuel .after opened rest
      else if c == ',' then
        skipFrom fuel (if closing == ']' then .value else .member) (closing :: opened) rest
      else none

/-- The text after a value that is passed over. -/
def skipValue (cs : List Char) : Option (List Char) := skipFrom (cs.length + 1) .value [] cs

-- ============================================================================
-- Values
-- ============================================================================

mutual

/-- A value and the text after it. `depth` is how many arrays and objects may still
    be opened. -/
def readValue : (fuel depth : Nat) → Outline → List Char → Option (Json × List Char)
  | 0, _, _, _ => none
  | fuel + 1, depth, outline, cs =>
    match skipSpace cs with
    | '"' :: rest => (readString [] rest).map fun (s, rest) => (str s, rest)
    | '[' :: rest =>
      match depth with
      | 0 => none
      | depth + 1 =>
        match skipSpace rest with
        | ']' :: rest => some (arr [], rest)
        | rest => readItems fuel depth outline.items [] rest
    | '\x7b' :: rest =>
      match depth with
      | 0 => none
      | depth + 1 =>
        match skipSpace rest with
        | '\x7d' :: rest => some (obj [], rest)
        | rest => readMembers fuel depth outline [] rest
    | rest => readScalar rest

/-- The items of an array from the next one on, and the text after its bracket. -/
def readItems :
    (fuel depth : Nat) → List Outline → List Json → List Char → Option (Json × List Char)
  | 0, _, _, _, _ => none
  | fuel + 1, depth, outlines, acc, cs =>
    match readValue fuel depth (outlines.headD .whole) cs with
    | none => none
    | some (item, rest) =>
      match skipSpace rest with
      | ',' :: rest => readItems fuel depth outlines.tail (item :: acc) rest
      | ']' :: rest => some (arr (item :: acc).reverse, rest)
      | _ => none

/-- The members of an object from the next one on, without those that are of no use, and
    the text after its brace. -/
def readMembers :
    (fuel depth : Nat) → Outline → List (String × Json) → List Char → Option (Json × List Char)
  | 0, _, _, _, _ => none
  | fuel + 1, depth, outline, acc, cs =>
    match skipSpace cs with
    | '"' :: rest =>
      match readString [] rest with
      | none => none
      | some (key, rest) =>
        match skipSpace rest with
        | ':' :: rest =>
          let read := match outline.member? key with
            | some o => (readValue fuel depth o rest).map fun (value, rest) =>
              ((key, value) :: acc, rest)
            | none => (skipValue rest).map (acc, ·)
          match read with
          | none => none
          | some (acc, rest) =>
            match skipSpace rest with
            | ',' :: rest => readMembers fuel depth outline acc rest
            | '\x7d' :: rest => some (obj acc.reverse, rest)
            | _ => none
        | _ => none
    | _ => none

end

/-- How many arrays and objects may be open at once. -/
def maxDepth : Nat := 127

/-- Reads the parts of a document that are of use; `none` when the text is not one. -/
def parseOutline? (outline : Outline) (s : String) : Option Json :=
  let cs := s.toList
  match readValue (2 * cs.length + 2) maxDepth outline cs with
  | some (j, rest) => if (skipSpace rest).isEmpty then some j else none
  | none => none

/-- Reads a document; `none` when the text is not one. -/
def parse? (s : String) : Option Json := parseOutline? .whole s

end DiceNotation.Json
