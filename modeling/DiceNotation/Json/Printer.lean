/-
  DiceNotation.Json.Printer

  JSON documents as text, without blanks.

  In a string the quote, the backslash and the control characters below the
  space are escaped, the five usual ones by a letter and the others by four
  hexadecimal digits; all other characters stand for themselves. Doubles are
  written with their fewest digits, positionally from `10^-5` to below `10^16`
  and always with a point there; a double that is no number, or infinite, is
  written as null.
-/

import DiceNotation.Decimal.Layout
import DiceNotation.Json.Basic

namespace DiceNotation.Json

/-- The layout of doubles in a document. -/
def floatLayout : Decimal.Layout := ⟨.even, some (-5, 15), true, "null", "null"⟩

/-- A double in a document; the infinities have no sign there. -/
def floatChars (x : Float) : List Char :=
  match Decimal.decode x with
  | .infinite _ => "null".toList
  | _ => floatLayout.renderChars x

/-- One hexadecimal digit, in lower case. -/
def hexDigit (n : Nat) : Char := Nat.digitChar n

/-- One character inside a string. -/
def escapedChar (c : Char) : List Char :=
  if c == '"' then ['\\', '"']
  else if c == '\\' then ['\\', '\\']
  else if c == '\n' then ['\\', 'n']
  else if c == '\r' then ['\\', 'r']
  else if c == '\t' then ['\\', 't']
  else if c.toNat == 8 then ['\\', 'b']
  else if c.toNat == 12 then ['\\', 'f']
  else if c.toNat < 32 then
    ['\\', 'u', '0', '0', hexDigit (c.toNat / 16), hexDigit (c.toNat % 16)]
  else [c]

/-- A string between quotes. -/
def stringChars (s : String) : List Char := '"' :: (s.toList.flatMap escapedChar ++ ['"'])

mutual

/-- The characters of a document. -/
def chars : Json → List Char
  | null => "null".toList
  | bool true => "true".toList
  | bool false => "false".toList
  | int n => Text.intChars n
  | float x => floatChars x
  | str s => stringChars s
  | arr [] => ['[', ']']
  | arr (item :: rest) => '[' :: (item.chars ++ itemsChars rest)
  | obj [] => ['\x7b', '\x7d']
  | obj ((k, v) :: rest) => '\x7b' :: (stringChars k ++ ':' :: (v.chars ++ membersChars rest))

/-- The items after the first, and the closing bracket. -/
def itemsChars : List Json → List Char
  | [] => [']']
  | item :: rest => ',' :: (item.chars ++ itemsChars rest)

/-- The members after the first, and the closing brace. -/
def membersChars : List (String × Json) → List Char
  | [] => ['\x7d']
  | (k, v) :: rest => ',' :: (stringChars k ++ ':' :: (v.chars ++ membersChars rest))

end

/-- The text of a document. -/
def render (j : Json) : String := String.ofList j.chars

end DiceNotation.Json
