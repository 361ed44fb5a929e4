/-
  DiceNotation.Proofs.Formula.Alphabet

  Characters that tokens do not hold.

  Numbers, dice, words and modifiers are made of letters, digits, points and signs of
  comparison. A character that is none of these (`isForeign`) ends such a token, and a
  token of a single character holds no other (`notMem_of_longest`).
-/

import DiceNotation.Proofs.Formula.Literal

namespace DiceNotation.Formula

open Text

/-- Whether a character stands in no number, dice, word or modifier. -/
def isForeign (c : Char) : Bool :=
  !isWordChar c && !(c == '.' || c == '<' || c == '>' || c == '=' || c == '\x7d')

/-- Whether the tokens of a class hold no foreign character, but for those that consist of
    one. -/
def TokenKind.isPlain : TokenKind → Bool
  | dataReference | flavor | emptyFlavor | unrecognized => false
  | _ => true

/-- The character of a class of tokens that consist of a single one. -/
def TokenKind.char? : TokenKind → Option Char
  | leftParen => some '('
  | rightParen => some ')'
  | leftBrace => some '\x7b'
  | comma => some ','
  | plus => some '+'
  | minus => some '-'
  | star => some '*'
  | slash => some '/'
  | percent => some '%'
  | _ => none

/-! ## Foreign characters -/

section

variable {x : Char}

theorem isWordChar_of_isForeign (hx : isForeign x = true) : isWordChar x = false := by
  rw [isForeign, Bool.and_eq_true, Bool.not_eq_true'] at hx
  exact hx.1

theorem ne_of_isForeign (hx : isForeign x = true) {c : Char} (hc : isForeign c = false) :
    x ≠ c := by
  rintro rfl
  rw [hx] at hc
  cases hc

theorem isAlpha_isDigit_of_isForeign (hx : isForeign x = true) :
    x.isAlpha = false ∧ x.isDigit = false := by
  have hword := isWordChar_of_isForeign hx
  rw [isWordChar, Char.isAlphanum, Bool.or_eq_false_iff, Bool.or_eq_false_iff] at hword
  exact hword.1

theorem isDigit_of_isForeign (hx : isForeign x = true) : x.isDigit = false :=
  (isAlpha_isDigit_of_isForeign hx).2

theorem isDiceLetter_of_isForeign (hx : isForeign x = true) : isDiceLetter x = false := by
  have hd := ne_of_isForeign hx (c := 'd') (by decide)
  have hD := ne_of_isForeign hx (c := 'D') (by decide)
  simp [isDiceLetter, hd, hD]

theorem isFaceLetter_of_isForeign (hx : isForeign x = true) : isFaceLetter x = false := by
  refine Bool.eq_false_iff.mpr fun hface => ?_
  rcases eq_of_isFaceLetter hface with rfl | rfl | rfl | rfl <;> cases hx

theorem next?_of_isForeign (hx : isForeign x = true) (state : SuffixState) :
    state.next? x = none := by
  obtain ⟨halpha, hdigit⟩ := isAlpha_isDigit_of_isForeign hx
  have hless := ne_of_isForeign hx (c := '<') (by decide)
  have hgreater := ne_of_isForeign hx (c := '>') (by decide)
  have hequal := ne_of_isForeign hx (c := '=') (by decide)
  cases state <;> simp [SuffixState.next?, halpha, hdigit, hless, hgreater, hequal]

/-! ## Lengths of tokens -/

variable (u v : List Char)

theorem runLength_foreign {p : Char → Bool} (hp : p x = false) :
    runLength p (u ++ x :: v) ≤ u.length := by
  induction u with
  | nil => simp [runLength, hp]
  | cons c u ih =>
    simp only [List.cons_append, runLength, List.length_cons]
    split <;> omega

variable (hx : isForeign x = true)

include hx

theorem suffixLength_foreign (state : SuffixState) :
    suffixLength state (u ++ x :: v) ≤ u.length := by
  induction u generalizing state with
  | nil =>
    rw [List.nil_append, suffixLength, next?_of_isForeign hx]
    exact Nat.le_refl 0
  | cons c u ih =>
    simp only [List.cons_append, suffixLength, List.length_cons]
    split
    · next state' _ =>
      have hle := ih state'
      omega
    · omega

theorem numberLength_foreign : numberLength (u ++ x :: v) ≤ u.length := by
  have hdigit := isDigit_of_isForeign hx
  obtain hall | ⟨u₁, c, u₂, rfl, hu, hc⟩ := all_or_split Char.isDigit u
  · rw [numberLength_append_cons hall hdigit, if_neg (ne_of_isForeign hx (by decide))]
  · have hle := runLength_foreign u₂ v hdigit
    rw [List.append_assoc, List.cons_append, numberLength_append_cons hu hc, List.length_append,
      List.length_cons]
    split
    · split <;> omega
    · omega

theorem facesLength_foreign : facesLength (u ++ x :: v) ≤ u.length := by
  have hdigit := isDigit_of_isForeign hx
  cases u with
  | nil =>
    rw [List.nil_append, facesLength, isFaceLetter_of_isForeign hx, if_neg Bool.false_ne_true]
    exact runLength_foreign [] v hdigit
  | cons c u =>
    have hle := runLength_foreign (c :: u) v hdigit
    simp only [List.cons_append, facesLength, List.length_cons] at hle ⊢
    split <;> omega

theorem diceLength_foreign : diceLength (u ++ x :: v) ≤ u.length := by
  obtain hall | ⟨u₁, c, u₂, rfl, hu, hc⟩ := all_or_split Char.isDigit u
  · rw [diceLength_append_cons hall (isDigit_of_isForeign hx), isDiceLetter_of_isForeign hx,
      if_neg Bool.false_ne_true]
    exact Nat.zero_le _
  · have hfaces := facesLength_foreign u₂ v hx
    have hsuffix := suffixLength_foreign (u₂.drop (facesLength (u₂ ++ x :: v))) v hx .between
    rw [← List.drop_append_of_le_length hfaces, List.length_drop] at hsuffix
    rw [List.append_assoc, List.cons_append, diceLength_append_cons hu hc, List.length_append,
      List.length_cons]
    split
    · split <;> omega
    · omega

theorem dicePrefixLength_foreign : dicePrefixLength (u ++ x :: v) ≤ u.length := by
  obtain hall | ⟨u₁, c, u₂, rfl, hu, hc⟩ := all_or_split Char.isDigit u
  · rw [dicePrefixLength_append_cons hall (isDigit_of_isForeign hx),
      isDiceLetter_of_isForeign hx, Bool.and_false]
    exact Nat.zero_le _
  · rw [List.append_assoc, List.cons_append, dicePrefixLength_append_cons hu hc,
      List.length_append, List.length_cons]
    split <;> omega

theorem identifierLength_foreign : identifierLength (u ++ x :: v) ≤ u.length := by
  have hword := isWordChar_of_isForeign hx
  cases u with
  | nil =>
    have hstart : isWordStart x = false := by
      rw [isWordStart, (isAlpha_isDigit_of_isForeign hx).1, Bool.false_or, beq_eq_false_iff_ne]
      exact ne_of_isForeign hx (by decide)
    simp [identifierLength, hstart]
  | cons c u =>
    have hle := runLength_foreign u v hword
    simp only [List.cons_append, identifierLength, List.length_cons]
    split <;> omega

theorem rightBraceLength_foreign : rightBraceLength (u ++ x :: v) ≤ u.length := by
  cases u with
  | nil =>
    unfold rightBraceLength
    split
    · next heq =>
      cases heq
      cases hx
    · exact Nat.le_refl 0
  | cons c u =>
    have hle := suffixLength_foreign u v hx .between
    rw [List.cons_append, List.length_cons]
    unfold rightBraceLength
    split
    · next heq =>
      cases heq
      omega
    · omega

omit hx in
theorem charLength_foreign {d : Char} (hd : d ≠ x) : charLength d (u ++ x :: v) ≤ u.length := by
  cases u with
  | nil => simp [charLength, hd.symm]
  | cons c u =>
    simp only [List.cons_append, charLength, List.length_cons]
    split <;> omega

omit hx in
/-- A reference that begins before a character of no path does not go beyond it. -/
theorem dataReferenceLength_foreign (hp : isPathChar x = false) (c : Char) :
    dataReferenceLength (c :: u ++ x :: v) ≤ (c :: u).length := by
  have hle := runLength_foreign u v hp
  rw [List.length_cons]
  unfold dataReferenceLength
  split
  · next heq =>
    cases heq
    dsimp only
    split
    · exact Nat.zero_le _
    · rw [Nat.add_comm]
      exact Nat.succ_le_succ hle
  · exact Nat.zero_le _

/-- No token of a plain class goes beyond a foreign character. -/
theorem TokenKind.length_of_isPlain {kind : TokenKind} (h : kind.isPlain = true)
    (hchar : kind.char? ≠ some x) :
    ∃ length, rules.lookup kind = some length ∧ ∀ u v, length (u ++ x :: v) ≤ u.length := by
  cases kind with
  | number => exact ⟨_, rfl, fun u v => numberLength_foreign u v hx⟩
  | dice => exact ⟨_, rfl, fun u v => diceLength_foreign u v hx⟩
  | dicePrefix => exact ⟨_, rfl, fun u v => dicePrefixLength_foreign u v hx⟩
  | identifier => exact ⟨_, rfl, fun u v => identifierLength_foreign u v hx⟩
  | rightBrace => exact ⟨_, rfl, fun u v => rightBraceLength_foreign u v hx⟩
  | leftParen | rightParen | leftBrace | comma | plus | minus | star | slash | percent =>
    exact ⟨_, rfl, fun u v => charLength_foreign u v fun hd => hchar (congrArg some hd)⟩
  | dataReference | flavor | emptyFlavor | unrecognized => cases h

end

/-- The tokens of a plain class hold no foreign character, but for those that consist of
    one. -/
theorem notMem_of_longest {w r : List Char} {kind : TokenKind}
    (h : longest (w ++ r) = (kind, w.length)) (hkind : kind.isPlain = true) {x : Char}
    (hx : isForeign x = true) (hchar : kind.char? ≠ some x) : x ∉ w := by
  intro hmem
  obtain ⟨u, v, rfl⟩ := List.append_of_mem hmem
  obtain ⟨length, hlookup, hstops⟩ := TokenKind.length_of_isPlain hx hkind hchar
  have hlength := (length_of_longest h hlookup).1
  have hle := hstops u (v ++ r)
  rw [List.append_assoc, List.cons_append, List.length_append, List.length_cons] at hlength
  omega

end DiceNotation.Formula
