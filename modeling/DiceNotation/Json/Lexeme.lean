/-
  DiceNotation.Json.Lexeme

  The smallest parts of JSON documents: blanks, strings, numbers and the three
  words.

  Every reading function takes the rest of the text and gives back what it left. A
  string whose characters are of no use can be passed over (`skipString`): its
  escapes have to be well formed, but half of a surrogate pair may stand alone. A
  number is read as its digits (`readNumeral`), whatever its value.
-/

import DiceNotation.Decimal.Reading
import DiceNotation.Json.Basic

namespace DiceNotation.Json

-- ============================================================================
-- Blanks and strings
-- ============================================================================

/-- The blanks between the parts of a document. -/
def isSpace (c : Char) : Bool := c == ' ' || c == '\n' || c == '\t' || c == '\r'

/-- The text after its leading blanks. -/
def skipSpace (cs : List Char) : List Char := cs.dropWhile isSpace

/-- The value of a hexadecimal digit, in either case. -/
def hexValue? (c : Char) : Option Nat :=
  if '0' ≤ c && c ≤ '9' then some (c.toNat - 48)
  else if 'a' ≤ c && c ≤ 'f' then some (c.toNat - 87)
  else if 'A' ≤ c && c ≤ 'F' then some (c.toNat - 55)
  else none

/-- The value of four hexadecimal digits. -/
def hex4? (a b c d : Char) : Option Nat := do
  let a ← hexValue? a
  let b ← hexValue? b
  let c ← hexValue? c
  let d ← hexValue? d
  return ((a * 16 + b) * 16 + c) * 16 + d

/-- The character that a letter after a backslash stands for. -/
def escape? (c : Char) : Option Char :=
  match c with
  | '"' => some '"'
  | '\\' => some '\\'
  | '/' => some '/'
  | 'b' => some (Char.ofNat 8)
  | 'f' => some (Char.ofNat 12)
  | 'n' => some '\n'
  | 'r' => some '\r'
  | 't' => some '\t'
  | _ => none

/-- Whether a code unit is the first half of a surrogate pair. -/
def isHighSurrogate (n : Nat) : Bool := 0xD800 ≤ n && n < 0xDC00

/-- Whether a code unit is the second half of a surrogate pair. -/
def isLowSurrogate (n : Nat) : Bool := 0xDC00 ≤ n && n < 0xE000

/-- Reads a string after its opening quote; `acc` holds what was read, last character
    first. -/
def readString (acc : List Char) : List Char → Option (String × List Char)
  | [] => none
  | '"' :: rest => some (String.ofList acc.reverse, rest)
  | '\\' :: 'u' :: a :: b :: c :: d :: rest =>
    match hex4? a b c d with
    | none => none
    | some n =>
      if isHighSurrogate n then
        match rest with
        | '\\' :: 'u' :: e :: f :: g :: h :: rest =>
          match hex4? e f g h with
          | none => none
          | some m =>
            if isLowSurrogate m then
              readString (Char.ofNat (0x10000 + (n - 0xD800) * 0x400 + (m - 0xDC00)) :: acc) rest
            else none
        | _ => none
      else if isLowSurrogate n then none
      else readString (Char.ofNat n :: acc) rest
  | '\\' :: c :: rest =>
    match escape? c with
    | none => none
    | some x => readString (x :: acc) rest
  | c :: rest => if c.toNat < 32 then none else readString (c :: acc) rest

/-- The text after a string that is passed over, from behind its opening quote. -/
def skipString : List Char → Option (List Char)
  | [] => none
  | '"' :: rest => some rest
  | '\\' :: 'u' :: a :: b :: c :: d :: rest =>
    if (hex4? a b c d).isSome then skipString rest else none
  | '\\' :: c :: rest => if (escape? c).isSome then skipString rest else none
  | c :: rest => if c.toNat < 32 then none else skipString rest

-- ============================================================================
-- Numbers
-- ============================================================================

/-- A number as it is written. -/
structure Numeral where
  negative : Bool
  /-- The digits before the point. -/
  whole : List Char
  /-- The digits after the point; empty if there is none. -/
  fraction : List Char
  exponent : Option Int
  deriving DecidableEq, Repr

/-- The exponent after its mark: a sign if there is one, and digits. -/
def readExponent (cs : List Char) : Option (Int × List Char) :=
  let (negative, cs) := match cs with
    | '+' :: rest => (false, rest)
    | '-' :: rest => (true, rest)
    | _ => (false, cs)
  let digits := cs.takeWhile Char.isDigit
  if digits.isEmpty then none
  else
    let n : Int := Decimal.ofDigits digits
    some (if negative then -n else n, cs.dropWhile Char.isDigit)

/-- The exponent of a number, if it has one. -/
def readScale : List Char → Option (Option Int × List Char)
  | 'e' :: rest | 'E' :: rest => (readExponent rest).map fun (n, rest) => (some n, rest)
  | rest => some (none, rest)

/-- Reads a number: a minus sign or none, digits without a needless zero before them, a
    point with digits behind it or neither, and an exponent or none. -/
def readNumeral (cs : List Char) : Option (Numeral × List Char) := do
  let (negative, cs) := match cs with
    | '-' :: rest => (true, rest)
    | _ => (false, cs)
  let whole := cs.takeWhile Char.isDigit
  if whole.isEmpty || (whole.head? == some '0' && 1 < whole.length) then none
  else match cs.dropWhile Char.isDigit with
    | '.' :: rest =>
      let fraction := rest.takeWhile Char.isDigit
      if fraction.isEmpty then none
      else do
        let (exponent, rest) ← readScale (rest.dropWhile Char.isDigit)
        return (⟨negative, whole, fraction, exponent⟩, rest)
    | rest => do
      let (exponent, rest) ← readScale rest
      return (⟨negative, whole, [], exponent⟩, rest)

-- ============================================================================
-- Words
-- ============================================================================

/-- Reads one of the three words. -/
def readWord : List Char → Option (Json × List Char)
  | 'n' :: 'u' :: 'l' :: 'l' :: rest => some (null, rest)
  | 't' :: 'r' :: 'u' :: 'e' :: rest => some (bool true, rest)
  | 'f' :: 'a' :: 'l' :: 's' :: 'e' :: rest => some (bool false, rest)
  | _ => none

end DiceNotation.Json
