/-
  DiceNotation.Text.Numeral

  Whole numbers written in decimal digits.

  A numeral is an optional sign and at least one ASCII digit. It is read from
  left to right and fails at the first character that is no digit, or at the
  digit with which the number leaves its range, whichever comes first. Natural
  numbers take no minus sign.
-/

namespace DiceNotation.Text

-- ============================================================================
-- Ranges
-- ============================================================================

/-- Greatest natural number of 32 bits. -/
def maxNat32 : Nat := Nat.pow 2 32 - 1

/-- Greatest natural number of 64 bits. -/
def maxNat64 : Nat := Nat.pow 2 64 - 1

/-- Greatest signed number of 64 bits. -/
def maxInt64 : Int := Int.ofNat (Nat.pow 2 63) - 1

/-- Least signed number of 64 bits. -/
def minInt64 : Int := -Int.ofNat (Nat.pow 2 63)

/-- Whether a whole number is a signed number of 64 bits. -/
def fitsInt64 (n : Int) : Bool := minInt64 ≤ n && n ≤ maxInt64

-- ============================================================================
-- Writing
-- ============================================================================

/-- The digits of a natural number. -/
def natChars (n : Nat) : List Char := Nat.toDigits 10 n

/-- A whole number in digits, after a minus sign when it is negative. -/
def intChars (n : Int) : List Char :=
  if n < 0 then '-' :: natChars n.natAbs else natChars n.natAbs

/-- The text of a natural number. -/
def natText (n : Nat) : String := String.ofList (natChars n)

/-- The text of a whole number. -/
def intText (n : Int) : String := String.ofList (intChars n)

-- ============================================================================
-- Reading
-- ============================================================================

/-- Why a text is not a numeral. -/
inductive NumeralError where
  | empty
  | invalidDigit
  | tooLarge
  | tooSmall
  deriving DecidableEq, Repr

namespace NumeralError

/-- The wording of a numeral error. -/
def message : NumeralError → String
  | empty => "cannot parse integer from empty string"
  | invalidDigit => "invalid digit found in string"
  | tooLarge => "number too large to fit in target type"
  | tooSmall => "number too small to fit in target type"

end NumeralError

/-- The value of an ASCII digit. -/
def digitValue? (c : Char) : Option Nat :=
  if c.isDigit then some (c.toNat - '0'.toNat) else none

/-- Reads digits onto the number `acc`, which may not pass `limit`. -/
def readDigits (limit : Nat) (beyond : NumeralError) : Nat → List Char → Except NumeralError Nat
  | acc, [] => .ok acc
  | acc, c :: rest =>
    match digitValue? c with
    | none => .error .invalidDigit
    | some d =>
      if 10 * acc + d ≤ limit then readDigits limit beyond (10 * acc + d) rest
      else .error beyond

/-- Reads at least one digit. -/
def readMagnitude (limit : Nat) (beyond : NumeralError) : List Char → Except NumeralError Nat
  | [] => .error .invalidDigit
  | cs => readDigits limit beyond 0 cs

/-- Reads a natural number up to `limit`; a plus sign may stand before it. -/
def readNat (limit : Nat) : List Char → Except NumeralError Nat
  | [] => .error .empty
  | '+' :: rest => readMagnitude limit .tooLarge rest
  | cs => readMagnitude limit .tooLarge cs

/-- Reads a signed number of 64 bits. -/
def readInt64 : List Char → Except NumeralError Int
  | [] => .error .empty
  | '+' :: rest => Int.ofNat <$> readMagnitude (Nat.pow 2 63 - 1) .tooLarge rest
  | '-' :: rest => (fun n => -Int.ofNat n) <$> readMagnitude (Nat.pow 2 63) .tooSmall rest
  | cs => Int.ofNat <$> readMagnitude (Nat.pow 2 63 - 1) .tooLarge cs

/-- A natural number of 32 bits, if the text is one. -/
def nat32? (cs : List Char) : Option Nat := (readNat maxNat32 cs).toOption

/-- A natural number of 64 bits, if the text is one. -/
def nat64? (cs : List Char) : Option Nat := (readNat maxNat64 cs).toOption

/-- A signed number of 64 bits, if the text is one. -/
def int64? (cs : List Char) : Option Int := (readInt64 cs).toOption

/-- What is read stays within the limit. -/
theorem readDigits_le {limit : Nat} {beyond : NumeralError} {acc n : Nat} {cs : List Char}
    (hacc : acc ≤ limit) (h : readDigits limit beyond acc cs = .ok n) : n ≤ limit := by
  induction cs generalizing acc with
  | nil => cases h; exact hacc
  | cons c rest ih =>
    unfold readDigits at h
    split at h
    · cases h
    · split at h
      · next hle => exact ih hle h
      · cases h

end DiceNotation.Text
