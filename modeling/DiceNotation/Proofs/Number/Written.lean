/-
  DiceNotation.Proofs.Number.Written

  The characters that numbers are written with.

  A number is written as letters, digits and a point, behind a minus sign if it has
  one (`Number.exists_chars`). A number that is read from a literal has none
  (`Number.isNegative_ofFloat`).
-/

import DiceNotation.Decimal.Layout
import DiceNotation.Formula.Token
import DiceNotation.Proofs.Number.Nonnegative
import DiceNotation.Proofs.Text.Numeral

namespace DiceNotation

open Formula Text

/-! ## Doubles -/

namespace Decimal

theorem isDigit_of_mem_zeros {n : Nat} {c : Char} (h : c ∈ zeros n) : c.isDigit = true := by
  rw [(List.mem_replicate.mp h).2]
  rfl

/-- The magnitude of a double is written with digits and a point. -/
theorem mem_magnitude {b : Binary} {c : Char} (h : c ∈ plain.magnitude b) :
    c.isDigit = true ∨ c = '.' := by
  have hpositional : plain.magnitude b =
      plain.positionalText (plain.leading b).1 (plain.leading b).2 := by
    simp only [Layout.magnitude, plain, Bool.or_true, if_true]
  have hdigits : ∀ {c}, c ∈ (plain.leading b).1 → c.isDigit = true :=
    fun h => isDigit_of_mem_natChars h
  rw [hpositional] at h
  simp only [Layout.positionalText, plain, Bool.false_eq_true, if_false, List.append_nil] at h
  split at h
  · simp only [List.mem_cons, List.mem_append] at h
    rcases h with rfl | rfl | h | h
    · exact .inl rfl
    · exact .inr rfl
    · exact .inl (isDigit_of_mem_zeros h)
    · exact .inl (hdigits h)
  · split at h
    · obtain h | h := List.mem_append.mp h
      · exact .inl (hdigits h)
      · exact .inl (isDigit_of_mem_zeros h)
    · simp only [List.mem_append, List.mem_cons] at h
      rcases h with h | rfl | h
      · exact .inl (hdigits (List.mem_of_mem_take h))
      · exact .inr rfl
      · exact .inl (hdigits (List.mem_of_mem_drop h))

end Decimal

/-! ## Numbers -/

namespace Number

/-- Whether a number has a minus sign. -/
def isNegative : Number → Bool
  | int n => n < 0
  | float x => (Decimal.decode x).isNegative

/-- A number is written with letters, digits and a point behind its minus sign. -/
theorem exists_chars (n : Number) :
    ∃ cs, n.chars = (if n.isNegative then ['-'] else []) ++ cs ∧
      ∀ c ∈ cs, (isWordChar c || c == '.') = true := by
  have hdigit : ∀ {c : Char}, c.isDigit = true → (isWordChar c || c == '.') = true := by
    intro c hc
    simp [isWordChar, Char.isAlphanum, hc]
  cases n with
  | int n =>
    refine ⟨natChars n.natAbs, ?_, fun c hc => hdigit (isDigit_of_mem_natChars hc)⟩
    simp only [chars, intChars, isNegative, decide_eq_true_eq]
    split <;> rfl
  | float x =>
    rcases hx : Decimal.decode x with _ | negative | b <;>
      simp only [chars, isNegative, Decimal.Layout.renderChars, hx]
    · exact ⟨['N', 'a', 'N'], rfl, List.all_eq_true.mp rfl⟩
    · exact ⟨['i', 'n', 'f'], rfl, List.all_eq_true.mp rfl⟩
    · refine ⟨_, rfl, fun c hc => ?_⟩
      obtain hc | rfl := Decimal.mem_magnitude hc
      · exact hdigit hc
      · rfl

/-- The whole part of a double without a minus sign has none. -/
theorem wholePart_nonneg {x : Float} (h : (Decimal.decode x).isNegative = false) :
    0 ≤ wholePart x := by
  rcases hx : Decimal.decode x with _ | negative | b <;> rw [hx] at h <;>
    simp only [wholePart, hx]
  · exact Int.le_refl 0
  · obtain rfl : negative = false := h
    decide
  · have hwhole : 0 ≤ b.whole := by
      rw [Decimal.Binary.whole, show b.negative = false from h, if_neg Bool.false_ne_true]
      exact Int.natCast_nonneg _
    exact Int.le_trans (Int.le_min.mpr ⟨by decide, hwhole⟩) (Int.le_max_right _ _)

/-- What a double without a minus sign comes to has none. -/
theorem isNegative_ofFloat {x : Float} (h : (Decimal.decode x).isNegative = false) :
    (ofFloat x).isNegative = false := by
  unfold ofFloat
  split
  · exact decide_eq_false (Int.not_lt.mpr (wholePart_nonneg h))
  · exact h

end Number

end DiceNotation
