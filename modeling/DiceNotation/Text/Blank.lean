/-
  DiceNotation.Text.Blank

  Blank characters and trimming.

  A character is blank when it has the Unicode property `White_Space`: 25 code
  points, the six ASCII ones among them. Formula tokens are separated by four of
  them only (`isSeparator`); the full set is what trimming removes.
-/

namespace DiceNotation.Text

-- ============================================================================
-- Blank characters
-- ============================================================================

/-- Whether a character has the Unicode property `White_Space`. -/
def isBlank (c : Char) : Bool :=
  let n := c.toNat
  (9 ≤ n && n ≤ 13) || n == 0x20 || n == 0x85 || n == 0xA0 || n == 0x1680 ||
    (0x2000 ≤ n && n ≤ 0x200A) || n == 0x2028 || n == 0x2029 || n == 0x202F ||
    n == 0x205F || n == 0x3000

/-- The blanks that may stand between the tokens of a formula: space, tab,
    carriage return and line feed. -/
def isSeparator (c : Char) : Bool :=
  c == ' ' || c == '\t' || c == '\r' || c == '\n'

-- ============================================================================
-- Trimming
-- ============================================================================

/-- A text without the blanks at its two ends. -/
def trim (cs : List Char) : List Char :=
  ((cs.dropWhile isBlank).reverse.dropWhile isBlank).reverse

/-- `trim` on strings. -/
def trimmed (s : String) : String := String.ofList (trim s.toList)

end DiceNotation.Text
