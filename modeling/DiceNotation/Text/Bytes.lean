/-
  DiceNotation.Text.Bytes

  Positions in a text, counted in UTF-8 bytes.

  A span runs from the position of its first character to the position after its
  last one. A position inside a character belongs to no span.
-/

namespace DiceNotation.Text

/-- A stretch of a text, in bytes. -/
structure Span where
  start : Nat
  stop : Nat
  deriving DecidableEq, Repr

/-- The length of a text in bytes. -/
def byteLength : List Char → Nat
  | [] => 0
  | c :: rest => c.utf8Size + byteLength rest

/-- The text from a position on, if a character begins or the text ends there. -/
def dropBytes? : Nat → List Char → Option (List Char)
  | 0, cs => some cs
  | _ + 1, [] => none
  | n + 1, c :: rest => if c.utf8Size ≤ n + 1 then dropBytes? (n + 1 - c.utf8Size) rest else none

/-- The text up to a position, if a character begins or the text ends there. -/
def takeBytes? : Nat → List Char → Option (List Char)
  | 0, _ => some []
  | _ + 1, [] => none
  | n + 1, c :: rest =>
    if c.utf8Size ≤ n + 1 then (takeBytes? (n + 1 - c.utf8Size) rest).map (c :: ·) else none

/-- The text of a span, if both its ends are positions in the text. -/
def slice? (cs : List Char) (span : Span) : Option (List Char) :=
  if span.start ≤ span.stop then
    (dropBytes? span.start cs).bind (takeBytes? (span.stop - span.start))
  else none

/-- The position of the first occurrence of a pattern. -/
def find? (pattern : List Char) : List Char → Option Nat
  | [] => if pattern.isEmpty then some 0 else none
  | c :: rest =>
    if pattern.isPrefixOf (c :: rest) then some 0
    else (find? pattern rest).map (c.utf8Size + ·)

/-- The length of two texts in a row is the sum of their lengths. -/
theorem byteLength_append (as bs : List Char) :
    byteLength (as ++ bs) = byteLength as + byteLength bs := by
  induction as with
  | nil => simp [byteLength]
  | cons a as ih => simp [byteLength, ih, Nat.add_assoc]

/-- What follows a text is found at its length. -/
theorem dropBytes?_append (as bs : List Char) :
    dropBytes? (byteLength as) (as ++ bs) = some bs := by
  induction as with
  | nil => simp [byteLength, dropBytes?]
  | cons a as ih =>
    have hpos : 0 < a.utf8Size := Char.utf8Size_pos a
    obtain ⟨n, hn⟩ : ∃ n, byteLength (a :: as) = n + 1 :=
      ⟨byteLength (a :: as) - 1, by simp only [byteLength]; omega⟩
    have hle : a.utf8Size ≤ n + 1 := by simp only [byteLength] at hn; omega
    have hsub : n + 1 - a.utf8Size = byteLength as := by simp only [byteLength] at hn; omega
    rw [hn, List.cons_append, dropBytes?, if_pos hle, hsub, ih]

/-- A text is what stands before its length. -/
theorem takeBytes?_append (as bs : List Char) :
    takeBytes? (byteLength as) (as ++ bs) = some as := by
  induction as with
  | nil => simp [byteLength, takeBytes?]
  | cons a as ih =>
    have hpos : 0 < a.utf8Size := Char.utf8Size_pos a
    obtain ⟨n, hn⟩ : ∃ n, byteLength (a :: as) = n + 1 :=
      ⟨byteLength (a :: as) - 1, by simp only [byteLength]; omega⟩
    have hle : a.utf8Size ≤ n + 1 := by simp only [byteLength] at hn; omega
    have hsub : n + 1 - a.utf8Size = byteLength as := by simp only [byteLength] at hn; omega
    rw [hn, List.cons_append, takeBytes?, if_pos hle, hsub, ih]
    rfl

end DiceNotation.Text
