/-
  DiceNotation.Proofs.Formula.Numerals

  Rows of whole numbers are read with their signs.

  A number is written in digits behind its sign (`operandWritten_number`). The sign
  of a number in a product is read with it, but behind a plus or minus it makes the
  run of signs longer, and at the start of a row it is folded with the minus before
  it. So a row of whole numbers is read as the row in which the negative numbers
  that are added or taken away are turned (`Roll.new_ofInts`).
-/

import DiceNotation.Proofs.Formula.RoundTrip
import DiceNotation.Proofs.Infix.Turned

namespace DiceNotation.Formula

open Text

/-! ## Numbers -/

/-- A number that is not negative is written in its digits. -/
theorem operandWritten_number {n : Int} (hn : 0 ≤ n) (hmax : n < 2 ^ 63) :
    OperandWritten (.number (.int n)) [.numeric (.int n) {}] := by
  obtain ⟨m, rfl⟩ := Int.eq_ofNat_of_zero_le hn
  have hm : m ≤ Nat.pow 2 63 - 1 := by
    show m ≤ 2 ^ 63 - 1
    omega
  let t : Token := ⟨.number, natChars m, ⟨0, 0 + byteLength (natChars m)⟩⟩
  have hdigits : ∀ c ∈ natChars m, c.isDigit = true := fun c hc => isDigit_of_mem_natChars hc
  have hliteral : t.literal? = some (.number (.int m)) := by
    show (numberOfLiteral? (natChars m)).map Node.number = _
    rw [numberOfLiteral?_of_isDigit hdigits, int64?_natChars hm]
    rfl
  have hscans : Scans 0 (natChars m ++ []) [t] := by
    obtain ⟨c, cs, hc⟩ := List.exists_cons_of_ne_nil (natChars_ne_nil m)
    refine .token (natChars_ne_nil m) ?_ (longest_number hdigits (natChars_ne_nil m) rfl rfl rfl)
      (.done _)
    rw [hc]
    exact isSeparator_of_isDigit (hdigits c (hc ▸ List.mem_cons_self))
  have hpoint : '.' ∉ natChars m := point_notMem hdigits
  have hbefore : Cursor.Before ⟨[t], 0⟩ (natChars m ++ []) :=
    ⟨hscans, .of_notMem hscans.lexed fun t' ht' _ => List.mem_singleton.mp ht' ▸ hpoint⟩
  have hread : Reads [] (.operand (.number (.int m))) ⟨[t], 0⟩ ⟨[], t.span.stop⟩ :=
    .alone (.literal rfl hliteral nofun rfl) rfl
  obtain ⟨-, -, row, hrow⟩ := hread.written _ hbefore
  obtain rfl : row = [.numeric (.int m) {}] := (Except.ok.inj (hrow.terms true)).symm
  exact hrow

/-- A number is written with its sign, if it is negative. -/
theorem signedWritten_number (first : Bool) {n : Int} (hmin : -2 ^ 63 < n) (hmax : n < 2 ^ 63) :
    ∃ node, SignedWritten first node [.numeric (.int n) {}] := by
  by_cases hn : n < 0
  · have hneg : (Number.int (-n)).neg = .int n := by
      rw [Number.neg_int (fitsInt64_iff.mpr ⟨by omega, by omega⟩), Int.neg_neg]
    have hnegated := (operandWritten_number (n := -n) (by omega) (by omega)).negated_number first
    rw [hneg] at hnegated
    exact ⟨_, hnegated⟩
  · exact ⟨_, (operandWritten_number (by omega) hmax).unsigned first⟩

section

variable {n : Node} {row more : List Term} {op : Operator}

/-- A minus sign is read before what follows it. -/
theorem Rereads.minus {written : List Char} {after : List Char → Prop}
    {read : List Char → List Token → Cursor → Prop}
    (h : Rereads written after fun source _ => read source) :
    Rereads ('-' :: written) after fun source _ ts c =>
      ∃ t ts', ts = t :: ts' ∧ t.kind = .minus ∧ read source ts' c := by
  have hsign : Rereads ['-'] (fun _ => True) (fun _ => IsToken .minus ['-']) :=
    .char rfl fun _ _ => rfl
  exact hsign.append h (fun _ _ => trivial) fun _ _ _ middle _ htoken hread =>
    ⟨_, middle.rest, htoken, rfl, hread⟩

/-- Two minus signs before an operand come to none. -/
theorem OperandWritten.minus_minus (h : OperandWritten n row) (first : Bool) :
    Rereads ('-' :: '-' :: Term.rowChars row) EndsOperand fun source _ =>
      SignedRead first row source := by
  have hoperand : Rereads (Term.rowChars row) EndsOperand fun source _ ts c =>
      ∃ b, SameTerms n b ∧ ∀ stop, Reads source (.operand b) ⟨ts, stop⟩ c := h.reread
  refine hoperand.minus.minus.mono (fun _ hr => hr) ?_
  rintro source pos _ c ⟨t, _, rfl, ht, t', ts, rfl, ht', b, hsame, hread⟩
  refine ⟨some .add, b, (hsame.terms first).trans (h.terms first), fun stop =>
    ⟨⟨ts, t'.span.stop⟩, ?_, hread _⟩⟩
  have hrun := (hread t'.span.stop).signRun_operand (some .add)
  simp only [signs, signRun, ht, ht']
  exact hrun

/-- A minus sign behind the operator of a sum turns the operator. -/
theorem RestReread.turned {written : List Char} (hop : op.isAdditive = true)
    (h : OperandWritten n row) (hmore : RestReread written more) :
    RestReread (' ' :: op.sign :: ' ' :: '-' :: (Term.rowChars row ++ written))
      (.operator op.turned {} :: (row ++ more)) where
  ends := fun r _ => endsOperand_operator op _ r
  reread := by
    refine ((RestReread.operand h hmore).minus.operator op).mono (fun _ hr => hr) ?_
    rintro source pos _ c ⟨t, _, rfl, hkind, t', ts, rfl, hkind', b, ns', c₁, hb, hns', hread,
      hrest⟩
    refine ⟨_, Term.ofRow_operator hb h.ne_nil hns', .restSum ?_ (hread t'.span.stop) hrest⟩
    have hrun := (hread t'.span.stop).signRun_operand (some op.turned)
    cases op with
    | add | sub =>
      simp only [signs, signRun, hkind, kindOf, hkind']
      exact hrun
    | _ => cases hop

end

/-! ## Rows -/

/-- Operators and whole numbers as terms. -/
def Term.ofInts (ps : List (Operator × Int)) : List Term :=
  ps.flatMap fun p => [.operator p.1 {}, .numeric (.int p.2) {}]

theorem Term.ofInts_cons (op : Operator) (n : Int) (ps : List (Operator × Int)) :
    Term.ofInts ((op, n) :: ps) =
      .operator op {} :: ([.numeric (.int n) {}] ++ Term.ofInts ps) := rfl

theorem Term.rowChars_of_neg {n : Int} (hn : n < 0) :
    Term.rowChars [.numeric (.int n) {}] = '-' :: Term.rowChars [.numeric (.int (-n)) {}] := by
  rw [Term.rowChars_operand rfl, Term.rowChars_operand rfl]
  show (String.ofList (intChars n)).toList ++ [] =
    '-' :: ((String.ofList (intChars (-n))).toList ++ [])
  rw [String.toList_ofList, String.toList_ofList, intChars, if_pos hn, intChars,
    if_neg (by omega), Int.natAbs_neg]
  rfl

/-- Operators and whole numbers are read with the negative ones turned. -/
theorem RestReread.ofInts {ps : List (Operator × Int)}
    (h : ∀ p ∈ ps, -2 ^ 63 < p.2 ∧ p.2 < 2 ^ 63) :
    RestReread (Term.rowChars (Term.ofInts ps)) (Term.ofInts (ps.map Infix.Row.turn)) := by
  induction ps with
  | nil => exact RestWritten.nil.toReread
  | cons p ps ih =>
    obtain ⟨op, n⟩ := p
    obtain ⟨hmin, hmax⟩ := h (op, n) List.mem_cons_self
    have hmore := ih fun p hp => h p (List.mem_cons_of_mem _ hp)
    rw [Term.ofInts_cons, Term.rowChars_operator, Term.rowChars_append, List.map_cons]
    obtain ⟨hop, hn, hturn⟩ | ⟨hcase, hturn⟩ := Infix.Row.turn_cases op n
    · rw [hturn, Term.rowChars_of_neg hn]
      exact .turned hop (operandWritten_number (by omega) (by omega)) hmore
    · rw [hturn]
      cases hop : op.isAdditive with
      | true =>
        have hn : 0 ≤ n := hcase.resolve_left (by simp [hop])
        exact .sum hop (operandWritten_number hn hmax) hmore
      | false =>
        obtain ⟨node, hnode⟩ := signedWritten_number false hmin hmax
        exact .product hop hnode hmore

section

variable {n : Int} {ps : List (Operator × Int)} (hmin : -2 ^ 63 < n) (hmax : n < 2 ^ 63)
  (h : ∀ p ∈ ps, -2 ^ 63 < p.2 ∧ p.2 < 2 ^ 63)

include hmin hmax h

/-- A row of whole numbers is read with the negative ones behind the first turned. -/
theorem new_ofInts : Roll.new (Roll.formulaOf (.numeric (.int n) {} :: Term.ofInts ps)) =
    .ok (Roll.ofTerms (.numeric (.int n) {} :: Term.ofInts (ps.map Infix.Row.turn))) := by
  obtain ⟨node, hnode⟩ := signedWritten_number true hmin hmax
  have hread := RestReread.expression hnode.reread (List.cons_ne_nil _ _) (.ofInts h)
  rw [← Roll.toList_formulaOf_append (List.cons_ne_nil _ _)] at hread
  exact Roll.new_of_reread hread

/-- A minus sign at the start of the row is read as that of the first number. -/
theorem new_minus_ofInts :
    Roll.new (Roll.formulaOf (Term.minus :: .numeric (.int n) {} :: Term.ofInts ps)) =
      .ok (Roll.ofTerms (.numeric (.int (-n)) {} :: Term.ofInts (ps.map Infix.Row.turn))) := by
  have hfirst : Rereads ('-' :: Term.rowChars [.numeric (.int n) {}]) EndsOperand
      fun source _ => SignedRead true [.numeric (.int (-n)) {}] source := by
    by_cases hn : n < 0
    · rw [Term.rowChars_of_neg hn]
      exact (operandWritten_number (by omega) (by omega)).minus_minus true
    · refine (operandWritten_number (by omega) hmax).minus ?_
      rw [Term.ofNode, Number.neg_int (fitsInt64_iff.mpr ⟨by omega, by omega⟩)]
  have hread := RestReread.expression hfirst (List.cons_ne_nil _ _) (.ofInts h)
  rw [List.cons_append, ← Term.rowChars_append] at hread
  refine Roll.new_of_reread ?_
  rw [Roll.toList_formulaOf_minus]
  exact hread

end

end DiceNotation.Formula
