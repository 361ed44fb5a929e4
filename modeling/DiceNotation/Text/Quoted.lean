/-
  DiceNotation.Text.Quoted

  Quoted texts, as error messages show them.

  A quoted text stands between double quotes. The quote, the backslash, the
  null character, tab, line feed and carriage return have an escape of two
  characters; any other unprintable character is written as its code point in
  hexadecimal digits between braces after a backslash and a `u`. Single quotes
  stand for themselves.
-/

import DiceNotation.Text.Unprintable

namespace DiceNotation.Text

/-- The digits of a number to base sixteen, in lower case. -/
def hexadecimal (n : Nat) : List Char := Nat.toDigits 16 n

/-- One character as it stands inside a quoted text. -/
def quotedChar (c : Char) : List Char :=
  if c == '"' then ['\\', '"']
  else if c == '\\' then ['\\', '\\']
  else if c == '\n' then ['\\', 'n']
  else if c == '\r' then ['\\', 'r']
  else if c == '\t' then ['\\', 't']
  else if c.toNat == 0 then ['\\', '0']
  else if isUnprintable c then ['\\', 'u', '\x7b'] ++ hexadecimal c.toNat ++ ['\x7d']
  else [c]

/-- The characters of a text between double quotes, with their escapes. -/
def quotedChars (cs : List Char) : List Char := '"' :: (cs.flatMap quotedChar ++ ['"'])

/-- A text between double quotes, with its escapes. -/
def quoted (s : String) : String := String.ofList (quotedChars s.toList)

end DiceNotation.Text
