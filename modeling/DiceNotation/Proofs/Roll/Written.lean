/-
  DiceNotation.Proofs.Roll.Written

  The characters that terms are written with.

  A row of operands is written without anything between them, and an operator
  behind an operand stands between blanks (`Term.rowChars`). The flavor of a term
  stands in brackets behind it (`Term.formula_setFlavor`).
-/

import DiceNotation.Roll.Build

namespace DiceNotation

/-! ## Rows -/

/-- The characters of terms that stand behind others. -/
def Term.rowChars (ts : List Term) : List Char :=
  ts.flatMap fun t => (Roll.formulaOf.piece t).toList

@[simp] theorem Term.rowChars_nil : Term.rowChars [] = [] := rfl

@[simp] theorem Term.rowChars_append (as bs : List Term) :
    Term.rowChars (as ++ bs) = Term.rowChars as ++ Term.rowChars bs := List.flatMap_append

theorem Term.rowChars_operand {t : Term} (ht : t.operator? = none) (ts : List Term) :
    Term.rowChars (t :: ts) = t.formula.toList ++ Term.rowChars ts := by
  rw [Term.rowChars, List.flatMap_cons, Roll.formulaOf.piece, ht]
  rfl

theorem Term.rowChars_operator (op : Operator) (a : Annotations) (ts : List Term) :
    Term.rowChars (.operator op a :: ts) = ' ' :: op.sign :: ' ' :: Term.rowChars ts := by
  have hpiece : (Roll.formulaOf.piece (.operator op a)).toList = [' ', op.sign, ' '] := by
    show (" " ++ op.text ++ " ").toList = _
    have htext : op.text.toList = [op.sign] := String.toList_ofList
    rw [String.toList_append, String.toList_append, htext]
    rfl
  rw [Term.rowChars, List.flatMap_cons, hpiece]
  rfl

namespace Roll

theorem toList_formulaOf_operand {t : Term} (ht : t.operator? = none) (ts : List Term) :
    (formulaOf (t :: ts)).toList = t.formula.toList ++ Term.rowChars ts := by
  simp only [formulaOf, ht, String.toList_append, String.toList_join, List.flatMap_map]
  rfl

/-- An operator at the very start stands right before the operand. -/
theorem toList_formulaOf_operator (op : Operator) (a : Annotations) (ts : List Term) :
    (formulaOf (.operator op a :: ts)).toList = op.sign :: Term.rowChars ts := by
  have htext : op.text.toList = [op.sign] := String.toList_ofList
  simp only [formulaOf, Term.operator?, String.toList_append, String.toList_join,
    List.flatMap_map, htext]
  rfl

theorem toList_formulaOf_minus (ts : List Term) :
    (formulaOf (Term.minus :: ts)).toList = '-' :: Term.rowChars ts :=
  toList_formulaOf_operator .sub {} ts

theorem toList_formulaOf_operands {ts : List Term} (hne : ts ≠ [])
    (hts : ∀ t ∈ ts, t.operator? = none) : (formulaOf ts).toList = Term.rowChars ts := by
  obtain ⟨t, ts, rfl⟩ := List.exists_cons_of_ne_nil hne
  have ht := hts t List.mem_cons_self
  rw [toList_formulaOf_operand ht, Term.rowChars_operand ht]

/-- What stands behind other terms is written behind them. -/
theorem toList_formulaOf_append {ts : List Term} (hne : ts ≠ []) (more : List Term) :
    (formulaOf (ts ++ more)).toList = (formulaOf ts).toList ++ Term.rowChars more := by
  obtain ⟨t, ts, rfl⟩ := List.exists_cons_of_ne_nil hne
  simp only [List.cons_append, formulaOf, String.toList_append, String.toList_join,
    List.flatMap_map, List.flatMap_append, List.append_assoc, List.map_append]
  rfl

end Roll

/-! ## Flavors -/

/-- The flavor of an operand stands behind it. -/
theorem Term.formula_setFlavor {t : Term} (ht : t.operator? = none)
    (ha : t.annotations.flavor = none) (flavor : String) :
    (t.setFlavor (some flavor)).formula.toList =
      t.formula.toList ++ ('[' :: flavor.toList ++ [']']) := by
  have hdecorate : ∀ (a : Annotations) (text : String), a.flavor = none →
      (Annotations.decorate { a with flavor := some flavor } text).toList =
        (a.decorate text).toList ++ ('[' :: flavor.toList ++ [']']) := by
    intro a text ha
    simp [Annotations.decorate, ha]
  cases t with
  | operator op a => cases ht
  | dice d => exact hdecorate d.annotations _ ha
  | pool p rolls => exact hdecorate p.annotations _ ha
  | numeric n a | function name arguments rolls result a | parenthetical text roll a
  | text content a evaluated => exact hdecorate a _ ha

theorem Term.operator?_setFlavor (t : Term) (flavor : Option String) :
    (t.setFlavor flavor).operator? = t.operator? := by
  cases t <;> rfl

end DiceNotation
