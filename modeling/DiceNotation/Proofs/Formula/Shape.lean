/-
  DiceNotation.Proofs.Formula.Shape

  What parsed formulas look like.

  The nodes of a formula are a row: an operand, and then operators and operands in
  turns (`Reads.row`). So the check of a row before its terms are made finds no
  fault in them (`checkRow_of_row`), and a formula that is read has terms
  (`Term.ofFormula_eq_ok`).
-/

import DiceNotation.Proofs.Formula.Reading
import DiceNotation.Proofs.Formula.Reference
import DiceNotation.Proofs.Infix.Row
import DiceNotation.Roll.Build

namespace DiceNotation.Formula

variable {source : List Char} {c c' : Cursor}

/-! ## Rows -/

theorem operator?_of_withFlavors {n n' : Node} (h : withFlavors source n c = .ok (n', c')) :
    n'.operator? = n.operator? ∨ ∃ flavor, n' = .annotated n flavor := by
  obtain ⟨⟨flavors, c₁⟩, -, heq⟩ := bind_eq_ok.mp h
  by_cases hempty : flavors.isEmpty = true
  · simp only [hempty, if_true] at heq
    cases heq
    exact .inl rfl
  · simp only [hempty, Bool.false_eq_true, if_false] at heq
    cases heq
    exact .inr ⟨_, rfl⟩

theorem operator?_eq_none_of_withFlavors {n n' : Node}
    (h : withFlavors source n c = .ok (n', c')) (hn : n.operator? = none) :
    n'.operator? = none := by
  obtain heq | ⟨flavor, rfl⟩ := operator?_of_withFlavors h
  · rw [heq, hn]
  · rfl

theorem Token.operator?_literal? {t : Token} {n : Node} (h : t.literal? = some n) :
    n.operator? = none := by
  unfold Token.literal? at h
  split at h
  · obtain ⟨value, -, rfl⟩ := Option.map_eq_some_iff.mp h
    rfl
  · simp only [diceOfLiteral?, Option.bind_eq_bind, Option.bind_eq_some_iff] at h
    obtain ⟨number, -, d, -, ms, -, h⟩ := h
    cases h
    rfl
  iterate 3
    cases h
    rfl
  cases h

theorem operator?_signed (sign : Option Operator) {n : Node} (h : n.operator? = none) :
    (signed sign n).operator? = none := by
  unfold signed
  split
  · rfl
  · exact h

/-- What the grammar says of the operators among the nodes of a piece. -/
def Piece.Aligned : Piece → Prop
  | .expression nodes => Infix.IsRow nodes
  | .rest nodes => Infix.Alternates nodes
  | .operand n | .atom n => n.operator? = none
  | _ => True

theorem Reads.aligned {p : Piece} (h : Reads source p c c') : p.Aligned := by
  induction h with
  | expression _ _ _ ihn ihns => exact .plain (operator?_signed _ ihn) ihns
  | restSum _ _ _ ihn ihns => exact .cons rfl ihn ihns
  | restProduct _ _ _ _ _ ihn ihns => exact .cons rfl (operator?_signed _ ihn) ihns
  | restEnd => exact .nil
  | @operand first more _ _ _ _ _ ihfirst _ =>
    cases more with
    | nil => exact ihfirst
    | cons part more => rfl
  | literal _ hn _ hflavors =>
    exact operator?_eq_none_of_withFlavors hflavors (Token.operator?_literal? hn)
  | callEmpty _ _ _ _ hflavors | call _ _ _ _ _ _ hflavors | group _ _ _ _ hflavors
  | pool _ _ _ _ _ _ _ hflavors => exact operator?_eq_none_of_withFlavors hflavors rfl
  | fragment | behindText | glueEnd | listLast | listMore | sub => trivial

/-- The nodes of an expression are a row. -/
theorem Reads.row {nodes : List Node} (h : Reads source (.expression nodes) c c') :
    Infix.IsRow nodes := h.aligned

/-- No row that was read has a fault. -/
theorem checkRow_of_row {nodes : List Node} (h : Infix.IsRow nodes) (formula : String) :
    Roll.checkRow formula nodes = .ok () := by
  obtain ⟨tree, htree, -⟩ := Infix.Tree.ofInfix_row h
  simp only [Roll.checkRow, htree]

end DiceNotation.Formula

namespace DiceNotation

open Formula

theorem Term.ofRow_cons (first : Bool) (n : Node) (ns : List Node) :
    Term.ofRow first (n :: ns) = (do
      let terms ← Term.ofNode first n
      let more ← Term.ofRow (first && terms.isEmpty) ns
      return terms ++ more) := rfl

/-- A number that is negated is another number; anything else that is negated has a minus
    sign before its term. -/
theorem Formula.Node.ofNode_negation (first : Bool) (n : Node) :
    (∃ value, n = .number value ∧
        Term.ofNode first (.negation n) = .ok [.numeric value.neg {}]) ∨
      Term.ofNode first (.negation n) = (do
        let terms ← Term.ofNode false n
        if first then return Term.minus :: terms
        else
          let roll := Roll.ofTerms (Term.minus :: terms)
          return [.parenthetical roll.formula roll {}]) := by
  cases n with
  | number value => exact .inl ⟨value, rfl, by rw [Term.ofNode]⟩
  | _ => exact .inr rfl

/-- The terms of a formula are those of its nodes. -/
theorem Term.ofFormula_eq_ok {formula : String} {row : List Term} :
    Term.ofFormula formula = .ok row ↔
      ∃ nodes, parse formula = .ok nodes ∧ Term.ofRow true nodes = .ok row := by
  constructor
  · intro h
    obtain ⟨nodes, hnodes, h⟩ := bind_eq_ok.mp h
    obtain ⟨-, -, hrow⟩ := bind_eq_ok.mp h
    exact ⟨nodes, hnodes, hrow⟩
  · rintro ⟨nodes, hnodes, hrow⟩
    obtain ⟨c, hread, -⟩ := parseChars_eq_ok.mp hnodes
    rw [Term.ofFormula, hnodes, ok_bind, Term.ofNodes, checkRow_of_row hread.row, ok_bind, hrow]

theorem Roll.withData_eq_ok {formula : String} {data : Json} {r : Roll} :
    Roll.withData formula data = .ok r ↔
      ∃ row, Term.ofFormula (substitute data none formula) = .ok row ∧
        r = { Roll.ofTerms row with data } := by
  constructor
  · intro h
    obtain ⟨row, hrow, heq⟩ := bind_eq_ok.mp h
    cases heq
    exact ⟨row, hrow, rfl⟩
  · rintro ⟨row, hrow, rfl⟩
    rw [Roll.withData, hrow]
    rfl

/-- The roll of a formula has the terms of its nodes. -/
theorem Roll.new_eq_ok {formula : String} {r : Roll} :
    Roll.new formula = .ok r ↔ ∃ nodes terms, parse formula = .ok nodes ∧
      Term.ofRow true nodes = .ok terms ∧ r = Roll.ofTerms terms := by
  rw [Roll.new, Roll.withData_eq_ok, substitute_null]
  constructor
  · rintro ⟨terms, hformula, rfl⟩
    obtain ⟨nodes, hnodes, hterms⟩ := Term.ofFormula_eq_ok.mp hformula
    exact ⟨nodes, terms, hnodes, hterms, rfl⟩
  · rintro ⟨nodes, terms, hnodes, hterms, rfl⟩
    exact ⟨terms, Term.ofFormula_eq_ok.mpr ⟨nodes, hnodes, hterms⟩, rfl⟩

end DiceNotation
