/-
  DiceNotation.Proofs.Evaluation.Displayed

  The displayed result of a roll is worth its total.

  The result of a roll is the row of its terms with their values in place of them. It
  is a formula again, although a value may be negative, and evaluated at once it comes
  to the total of the roll (`Lifetime.result_run`). That is so where all values are
  whole numbers and what the row comes to on the way is moderate (`Roll.Moderate`). A
  double in place of a product that was too large is displayed in its shortest digits,
  which are those of another whole number (`Lifetime.result_widened`).
-/

import DiceNotation.Proofs.Evaluation.Lifetime
import DiceNotation.Proofs.Formula.Numerals
import DiceNotation.Proofs.Infix.Exact
import DiceNotation.Proofs.Roll.Simplify
import DiceNotation.Report

namespace DiceNotation

open Formula

/-! ## Totals -/

/-- A roll that was evaluated holds the total of its terms. -/
def Roll.Totalled (r : Roll) : Prop :=
  r.evaluated = true → ∃ total, Term.totalOf r.formula r.terms = .ok total ∧ r.total = some total

namespace Evaluation

theorem spends_totalled_concludeRow (s : Setting) (nested : Nested) (r : Roll) (row : List Term)
    (collapsed : List Dice) :
    Spends (concludeRow s nested r row collapsed) fun _ x => x.1.Totalled := by
  refine (spends_true _).bind fun _ row _ => ?_
  refine (spends_liftExcept (P := fun _ total => Term.totalOf r.formula row = .ok total)
    fun _ h => h).bind fun _ total htotal => ?_
  exact spends_pure fun _ => ⟨total, htotal, rfl⟩

theorem spends_totalled_roll (s : Setting) (r : Roll) :
    Spends (roll s r) fun _ x => x.1.Totalled := by
  rw [roll_eq, rollWith_eq]
  split
  · exact spends_throw _
  · refine (spends_true _).bind fun _ c _ => ?_
    split
    · exact (spends_true _).bind fun _ _ _ => spends_totalled_concludeRow s _ r _ _
    · exact spends_totalled_concludeRow s _ r _ _

end Evaluation

/-! ## Rows without chance -/

/-- A number or an operator. -/
inductive Term.Constant : Term → Prop where
  | numeric (n : Number) (a : Annotations) : Constant (.numeric n a)
  | operator (op : Operator) (a : Annotations) : Constant (.operator op a)

section

variable {ts : List Term} (hts : ∀ t ∈ ts, t.Constant)

include hts

theorem Term.notText_of_constant : ∀ t ∈ ts, t.isText = false := by
  intro t ht
  cases hts t ht <;> rfl

theorem Evaluation.refuseChance_of_constant (o : EvaluationOptions) :
    refuseChance o ts = .ok () := by
  have hfind : ts.find? (fun t => !t.isDeterministic) = none := by
    rw [List.find?_eq_none]
    intro t ht
    cases hts t ht <;> simp [Term.isDeterministic]
  unfold refuseChance
  rw [hfind]
  split <;> rfl

theorem Evaluation.collapse_of_constant (s : Setting) (nested : Nested) :
    collapse s nested ts = pure (ts, []) := by
  induction ts with
  | nil => rfl
  | cons t rest ih =>
    rw [collapse, ih fun t ht => hts t (List.mem_cons_of_mem _ ht)]
    cases hts t List.mem_cons_self <;> rfl

theorem Evaluation.terms_of_constant (s : Setting) (nested : Nested) :
    terms s nested ts = pure ts := by
  induction ts with
  | nil => rfl
  | cons t rest ih =>
    rw [terms, ih fun t ht => hts t (List.mem_cons_of_mem _ ht)]
    cases hts t List.mem_cons_self <;> rfl

/-- A row of numbers is evaluated to its total, whatever the options are. -/
theorem Roll.evaluateNow_of_constant (hrow : Infix.IsRow ts) {total : Number}
    (htotal : Term.totalOf (Roll.formulaOf ts) ts = .ok total) {σ : Type} [Roller σ]
    (o : EvaluationOptions) (c : Context σ) :
    ∃ r, (Roll.ofTerms ts).evaluateNow o c = (.ok (r, total), c.restart) := by
  have hrefuse : (Roll.ofTerms ts).refuseNow o = .ok () :=
    Evaluation.refuseChance_of_constant hts o
  have hroll : Evaluation.roll ⟨o, c.functions, true⟩ (Roll.ofTerms ts) =
      pure ({ Roll.ofTerms ts with total := some total, evaluated := true }, total) := by
    rw [Evaluation.roll_eq, Evaluation.rollWith_eq]
    simp only [Roll.ofTerms, Bool.false_eq_true, if_false, if_true,
      Evaluation.collapse_of_constant hts]
    show (Evaluation.rollWith.liftExcept (Evaluation.refuseChance o (Term.simplify ts)) >>=
      fun _ => Evaluation.concludeRow _ _ _ (Term.simplify ts) []) = _
    rw [Term.simplify_eq hrow (Term.notText_of_constant hts),
      Evaluation.refuseChance_of_constant hts]
    show Evaluation.concludeRow _ _ _ ts [] = _
    rw [Evaluation.concludeRow, Evaluation.terms_of_constant hts]
    show (Evaluation.rollWith.liftExcept (Term.totalOf (Roll.formulaOf ts) ts) >>= _) = _
    rw [htotal]
    rfl
  exact ⟨_, by rw [Roll.evaluateNow_of_refuseNow hrefuse, hroll]; rfl⟩

end

/-! ## Results -/

/-- A term is displayed as another one is written. -/
structure Term.Displays (t t' : Term) : Prop where
  operator : t'.operator? = t.operator?
  text : t.operator? = none → t.valueText = .ok t'.formula

theorem Term.Displays.piece {t t' : Term} (h : Displays t t') :
    Term.row.piece Term.valueText t = .ok (Roll.formulaOf.piece t') := by
  rw [Term.row.piece, Roll.formulaOf.piece, h.operator]
  cases ht : t.operator? with
  | some op => rfl
  | none => exact h.text ht

theorem Term.mapM_piece {ts ts' : List Term} (h : List.Forall₂ Displays ts ts') :
    ts.mapM (Term.row.piece Term.valueText) = .ok (ts'.map Roll.formulaOf.piece) := by
  induction h with
  | nil => rfl
  | cons ht hts ih =>
    rw [List.mapM_cons, ht.piece, ih]
    rfl

/-- A row is displayed as the formula of a row. -/
theorem Term.row_displays {ts ts' : List Term} (h : List.Forall₂ Displays ts ts') :
    Term.row Term.valueText ts = .ok (Roll.formulaOf ts') := by
  cases h with
  | nil => rfl
  | @cons t t' ts ts' ht hts =>
    rw [Term.row, Roll.formulaOf, Term.mapM_piece hts, ht.operator]
    cases hop : t.operator? with
    | some op => rfl
    | none =>
      simp only [ht.text hop]
      rfl

theorem Term.displays_operator {t : Term} {op : Operator} (h : t.operator? = some op) :
    Displays t (.operator op {}) := by
  refine ⟨h.symm, fun hnone => ?_⟩
  cases h.symm.trans hnone

theorem Term.displays_number {t : Term} {n : Number} (ht : t.operator? = none)
    (hn : t.total = some n) : Displays t (.numeric n {}) := by
  refine ⟨ht.symm, fun _ => ?_⟩
  rw [Term.valueText, Term.valueOf, hn]
  rfl

/-! ## Rows of whole numbers -/

/-- An operand with a whole number strictly between `-2^63` and `2^63` as its value, and not
    with a double. -/
def Term.HasInt (t : Term) : Prop := ∃ n, t.total = some (.int n) ∧ -2 ^ 63 < n ∧ n < 2 ^ 63

instance : DecidablePred Term.HasInt := fun t =>
  match h : t.total with
  | some (.int n) => decidable_of_iff (-2 ^ 63 < n ∧ n < 2 ^ 63) (by simp [Term.HasInt, h])
  | some (.float x) => .isFalse (by simp [Term.HasInt, h])
  | none => .isFalse (by simp [Term.HasInt, h])

theorem Term.toOption_valueOf (t : Term) : t.valueOf.toOption = t.total := by
  unfold Term.valueOf
  cases t.total <;> rfl

/-- What stands behind the first operand of a row is displayed as operators and whole numbers. -/
theorem Term.displays_rest {rest : List Term} (h : Infix.Alternates rest)
    (hvalues : ∀ t ∈ rest, t.operator? = none → t.HasInt) :
    ∃ ps, (∀ p ∈ ps, -2 ^ 63 < p.2 ∧ p.2 < 2 ^ 63) ∧
      Infix.pairs? (fun t => t.valueOf.toOption) rest = some (Infix.Row.ofInts ps) ∧
      List.Forall₂ Displays rest (Term.ofInts ps) := by
  induction h with
  | nil => exact ⟨[], nofun, rfl, .nil⟩
  | @cons i x op rest hi hx hrest ih =>
    obtain ⟨ps, hps, hpairs, hdisplays⟩ := ih fun t ht =>
      hvalues t (List.mem_cons_of_mem _ (List.mem_cons_of_mem _ ht))
    obtain ⟨n, hn, hbounds⟩ := hvalues x (by simp) hx
    refine ⟨(op, n) :: ps, List.forall_mem_cons.mpr ⟨hbounds, hps⟩, ?_,
      .cons (displays_operator hi) (.cons (displays_number hx hn) hdisplays)⟩
    simp only [Infix.pairs?, hi, toOption_valueOf, hn]
    simp only [toOption_valueOf] at hpairs
    rw [hpairs]
    rfl

theorem Term.constant_ofInts (n : Int) (ps : List (Operator × Int)) :
    ∀ t ∈ Term.numeric (.int n) {} :: Term.ofInts ps, t.Constant := by
  refine List.forall_mem_cons.mpr ⟨.numeric _ _, fun t ht => ?_⟩
  obtain ⟨p, -, hp⟩ := List.mem_flatMap.mp ht
  rcases List.mem_cons.mp hp with rfl | hp
  · exact .operator _ _
  · rw [List.mem_singleton.mp hp]
    exact .numeric _ _

theorem Term.alternates_ofInts (ps : List (Operator × Int)) :
    Infix.Alternates (Term.ofInts ps) := by
  induction ps with
  | nil => exact .nil
  | cons p ps ih => exact .cons rfl rfl ih

theorem Term.pairs?_ofInts (ps : List (Operator × Int)) :
    Infix.pairs? (fun t : Term => t.valueOf.toOption) (Term.ofInts ps) =
      some (Infix.Row.ofInts ps) := by
  induction ps with
  | nil => rfl
  | cons p ps ih =>
    show (do
      let more ← Infix.pairs? (fun t : Term => t.valueOf.toOption) (Term.ofInts ps)
      return (p.1, Number.int p.2) :: more) = _
    rw [ih]
    rfl

/-- The total of a row of whole numbers. -/
theorem Term.totalOf_ofInts (formula : String) {n : Int} {ps : List (Operator × Int)}
    {total : Number} (h : Infix.Row.total none (.int n) (Infix.Row.ofInts ps) = some total) :
    Term.totalOf formula (.numeric (.int n) {} :: Term.ofInts ps) = .ok total := by
  have hrow : Infix.IsRow (Term.numeric (.int n) {} :: Term.ofInts ps) :=
    .plain rfl (alternates_ofInts ps)
  obtain ⟨tree, htree, hvalue⟩ := Infix.Tree.ofInfix_row hrow
  have htotal := hvalue Term.valueOf RollError.ofDivision
  rw [Infix.Row.value?_plain _ _ rfl, pairs?_ofInts] at htotal
  rw [Term.totalOf, htree]
  exact Text.toOption_eq_some.mp (htotal.trans h)

/-- A row that comes to a total does so when it is read with its negative numbers turned. -/
theorem Term.totalOf_turned (formula : String) {rest : List Term}
    (hrest : Infix.Alternates rest) {product : Infix.Tree Term} {n : Int}
    {ps : List (Operator × Int)} {total : Number}
    (hproduct : product.value? Term.valueOf .ofDivision = some (.int n))
    (hpairs : Infix.pairs? (fun t : Term => t.valueOf.toOption) rest = some (Infix.Row.ofInts ps))
    (hmoderate : (Infix.Tree.grow none product rest).Moderate Term.valueOf .ofDivision)
    (htotal : (Infix.Tree.grow none product rest).evaluate Term.valueOf .ofDivision = .ok total) :
    Term.totalOf formula (.numeric (.int n) {} :: Term.ofInts (ps.map Infix.Row.turn)) =
      .ok total := by
  have hcourse : Infix.Row.Course none (.int n) (Infix.Row.ofInts ps) :=
    Infix.Tree.course hrest hmoderate rfl hproduct hpairs
  refine Term.totalOf_ofInts formula ?_
  rw [hcourse.total_turned .same]
  have hvalue := Infix.Tree.value?_grow Term.valueOf RollError.ofDivision hrest none product
  rw [Infix.Tree.value?, htotal, hproduct, hpairs] at hvalue
  exact hvalue.symm

/-! ## Displayed results -/

/-- A roll whose terms have whole numbers as values, strictly between `-2^63` and `2^63`, as
    has everything that the row comes to on the way to its total. The values of the terms are
    held as whole numbers. It is not enough that a double is displayed exactly: what is read
    again is a whole number, and sums with it are exact where those with the double round. -/
structure Roll.Moderate (r : Roll) : Prop where
  values : ∀ t ∈ r.terms, t.operator? = none → t.HasInt
  parts : ∃ tree, Infix.Tree.ofInfix r.terms = .ok tree ∧ tree.Moderate Term.valueOf .ofDivision

instance : DecidablePred Roll.Moderate := fun r =>
  decidable_of_iff ((∀ t ∈ r.terms, t.operator? = none → t.HasInt) ∧
    ∃ tree ∈ (Infix.Tree.ofInfix r.terms).toOption, tree.Moderate Term.valueOf .ofDivision) <| by
      simp only [Option.mem_def, Text.toOption_eq_some]
      exact ⟨fun h => ⟨h.1, h.2⟩, fun h => ⟨h.values, h.parts⟩⟩

example : (Number.float 1e18).text = (Number.int (10 ^ 18)).text ∧
    wholePart ((1e18 : Float) + 1) = 10 ^ 18 := by decide +kernel

/-- A text is a formula that is evaluated at once to a total, whatever the options are and
    whatever is rolled. -/
def IsWorth (text : String) (total : Number) : Prop :=
  ∃ r, Roll.new text = .ok r ∧ ∀ {σ : Type} [Roller σ] (o : EvaluationOptions) (c : Context σ),
    ∃ r', r.evaluateNow o c = (.ok (r', total), c.restart)

theorem isWorth_of_new {text : String} {n : Int} {ps : List (Operator × Int)} {total : Number}
    (hnew : Roll.new text = .ok (Roll.ofTerms (.numeric (.int n) {} :: Term.ofInts ps)))
    (htotal : ∀ formula, Term.totalOf formula (.numeric (.int n) {} :: Term.ofInts ps) =
      .ok total) : IsWorth text total :=
  ⟨_, hnew, fun o c => Roll.evaluateNow_of_constant (Term.constant_ofInts n ps)
    (.plain rfl (Term.alternates_ofInts ps)) (htotal _) o c⟩

/-- Moderate terms are displayed as a formula that is worth their total. -/
theorem Term.row_isWorth {ts : List Term} (hvalues : ∀ t ∈ ts, t.operator? = none → t.HasInt)
    {tree : Infix.Tree Term} (htree : Infix.Tree.ofInfix ts = .ok tree)
    (hmoderate : tree.Moderate Term.valueOf .ofDivision) {total : Number}
    (htotal : tree.evaluate Term.valueOf .ofDivision = .ok total) :
    ∃ text, Term.row Term.valueText ts = .ok text ∧ IsWorth text total := by
  cases (Infix.Tree.exists_ofInfix_iff ts).mp ⟨tree, htree⟩ with
  | @plain x rest hx hrest =>
    obtain ⟨n, hn, hmin, hmax⟩ := hvalues x List.mem_cons_self hx
    obtain ⟨ps, hps, hpairs, hdisplays⟩ := displays_rest hrest fun t ht =>
      hvalues t (List.mem_cons_of_mem _ ht)
    cases (Infix.Tree.ofInfix_plain hx hrest).symm.trans htree
    have hfirst : (Infix.Tree.leaf x).value? Term.valueOf RollError.ofDivision = some (.int n) :=
      (toOption_valueOf x).trans hn
    refine ⟨_, row_displays (.cons (displays_number hx hn) hdisplays),
      isWorth_of_new (new_ofInts hmin hmax hps) fun formula => ?_⟩
    exact totalOf_turned formula hrest hfirst hpairs hmoderate htotal
  | @negated i x rest hi hx hrest =>
    obtain ⟨n, hn, hmin, hmax⟩ := hvalues x (by simp) hx
    obtain ⟨ps, hps, hpairs, hdisplays⟩ := displays_rest hrest fun t ht =>
      hvalues t (List.mem_cons_of_mem _ (List.mem_cons_of_mem _ ht))
    cases (Infix.Tree.ofInfix_negated hi hx hrest).symm.trans htree
    have hfirst : (Infix.Tree.neg (.leaf x)).value? Term.valueOf RollError.ofDivision =
        some (.int (-n)) := by
      rw [Infix.Tree.value?, Infix.Tree.evaluate, Infix.Tree.evaluate, valueOf, hn]
      show some (Number.int n).neg = _
      rw [Number.neg_int (Text.fitsInt64_iff.mpr ⟨by omega, by omega⟩)]
    refine ⟨_,
      row_displays (.cons (displays_operator hi) (.cons (displays_number hx hn) hdisplays)),
      isWorth_of_new (new_minus_ofInts hmin hmax hps) fun formula => ?_⟩
    exact totalOf_turned formula hrest hfirst hpairs hmoderate htotal

theorem Roll.Moderate.isWorth {r : Roll} (h : r.Moderate) {total : Number}
    (htotal : Term.totalOf r.formula r.terms = .ok total) :
    ∃ text, r.result = .ok text ∧ IsWorth text total := by
  obtain ⟨tree, htree, hmoderate⟩ := h.parts
  rw [Term.totalOf, htree] at htotal
  exact Term.row_isWorth h.values htree hmoderate htotal

variable {σ : Type} [Roller σ]

/-- Whatever was done with the roll of a formula until it was evaluated, if its terms and what
    they come to are moderate, then its result is a formula, and this formula evaluated at once
    comes to the total of the roll. -/
theorem Lifetime.result_run {formula : String} {r : Roll} (hnew : Roll.new formula = .ok r)
    (c : Context σ) (waiters : List Waiter) (history : List (Move σ))
    (hevaluated : (run history (start ⟨r, none⟩ c waiters)).live.roll.evaluated = true)
    (hmoderate : (run history (start ⟨r, none⟩ c waiters)).live.roll.Moderate) :
    ∃ text total, (run history (start ⟨r, none⟩ c waiters)).live.roll.result = .ok text ∧
      (run history (start ⟨r, none⟩ c waiters)).live.roll.total = some total ∧
        IsWorth text total := by
  have hstart : (start ⟨r, none⟩ c waiters).Holds Roll.Totalled := by
    refine holds_of_idle ?_ rfl
    obtain ⟨nodes, row, -, -, rfl⟩ := Roll.new_eq_ok.mp hnew
    exact nofun
  have htotalled := (hstart.run (fun s r _ => Evaluation.spends_totalled_roll s r) history).roll
  obtain ⟨total, htotal, hsome⟩ := htotalled hevaluated
  obtain ⟨text, htext, hworth⟩ := hmoderate.isWorth htotal
  exact ⟨text, total, htext, hsome, hworth⟩

/-- A sign before a negative number, and a negative number that is taken away as the beginning
    of a product. -/
theorem Lifetime.result_run_signed :
    ∃ r, Roll.new "-(2 - 7) - (1 - 2) * 2 % 3" = .ok r ∧
      (run [.evaluateNow .rolled] (start ⟨r, none⟩
        (Context.limited none (StepRoller.start 1 1)) [])).live.roll.result =
          .ok "--5 - -1 * 2 % 3" ∧ IsWorth "--5 - -1 * 2 % 3" (.int 7) := by
  have htokens : tokens "-(2 - 7) - (1 - 2) * 2 % 3".toList =
      [⟨.minus, ['-'], ⟨0, 1⟩⟩, ⟨.leftParen, ['('], ⟨1, 2⟩⟩, ⟨.number, ['2'], ⟨2, 3⟩⟩,
        ⟨.minus, ['-'], ⟨4, 5⟩⟩, ⟨.number, ['7'], ⟨6, 7⟩⟩, ⟨.rightParen, [')'], ⟨7, 8⟩⟩,
        ⟨.minus, ['-'], ⟨9, 10⟩⟩, ⟨.leftParen, ['('], ⟨11, 12⟩⟩, ⟨.number, ['1'], ⟨12, 13⟩⟩,
        ⟨.minus, ['-'], ⟨14, 15⟩⟩, ⟨.number, ['2'], ⟨16, 17⟩⟩, ⟨.rightParen, [')'], ⟨17, 18⟩⟩,
        ⟨.star, ['*'], ⟨19, 20⟩⟩, ⟨.number, ['2'], ⟨21, 22⟩⟩, ⟨.percent, ['%'], ⟨23, 24⟩⟩,
        ⟨.number, ['3'], ⟨25, 26⟩⟩] := rfl
  have hparse : parse "-(2 - 7) - (1 - 2) * 2 % 3" = .ok [
      .negation (.parenthetical ⟨"2 - 7", [.number (.int 2), .operator .sub, .number (.int 7)]⟩),
      .operator .sub,
      .parenthetical ⟨"1 - 2", [.number (.int 1), .operator .sub, .number (.int 2)]⟩,
      .operator .mul, .number (.int 2), .operator .rem, .number (.int 3)] := by
    refine parseChars_eq_ok.mpr ⟨⟨[], 26⟩, ?_, rfl⟩
    rw [htokens]
    exact @Reads.expression _ (some .sub) _ _ _ _ _ _ rfl
      (.alone (.group rfl rfl (.sub (@Reads.expression _ none _ _ _ _ _ _ rfl
        (.alone (.literal rfl rfl nofun rfl) rfl)
        (.restSum rfl (.alone (.literal rfl rfl nofun rfl) rfl) (.restEnd rfl rfl)))) rfl rfl) rfl)
      (.restSum rfl
        (.alone (.group rfl rfl (.sub (@Reads.expression _ none _ _ _ _ _ _ rfl
          (.alone (.literal rfl rfl nofun rfl) rfl)
          (.restSum rfl (.alone (.literal rfl rfl nofun rfl) rfl) (.restEnd rfl rfl)))) rfl rfl)
          rfl)
        (@Reads.restProduct _ _ none _ _ _ _ _ _ rfl rfl rfl
          (.alone (.literal rfl rfl nofun rfl) rfl)
          (@Reads.restProduct _ _ none _ _ _ _ _ _ rfl rfl rfl
            (.alone (.literal rfl rfl nofun rfl) rfl) (.restEnd rfl rfl))))
  have hnew := Roll.new_eq_ok.mpr ⟨_, _, hparse, rfl, rfl⟩
  obtain ⟨text, total, htext, htotal, hworth⟩ := Lifetime.result_run hnew
    (Context.limited none (StepRoller.start 1 1)) [] [.evaluateNow .rolled] rfl (by decide +kernel)
  obtain rfl : text = "--5 - -1 * 2 % 3" := by
    cases htext
    decide
  obtain rfl : total = .int 7 := by
    cases htotal
    rfl
  exact ⟨_, hnew, htext, hworth⟩

/-! ## A double among the values -/

/-- The product of `16440948372290153` and `561` as it is held, since it has more than 64
    bits. -/
def wideProduct : Float := Float.ofInt 16440948372290153 * Float.ofInt 561

theorem text_wideProduct : (Number.float wideProduct).text = "9223372036854775000" := by
  decide +kernel

theorem wideProduct_sub_one :
    (Number.float wideProduct).sub (.int 1) = .int 9223372036854774784 := by
  have hwhole : isWhole (wideProduct - Float.ofInt 1) = true ∧
      wholePart (wideProduct - Float.ofInt 1) = 9223372036854774784 := by decide +kernel
  show Number.ofFloat (wideProduct - Float.ofInt 1) = _
  rw [Number.ofFloat, if_pos hwhole.1, hwhole.2]

theorem parse_wideProduct :
    parse "(16440948372290153 * 561) - 1" = .ok [
      .parenthetical ⟨"16440948372290153 * 561",
        [.number (.int 16440948372290153), .operator .mul, .number (.int 561)]⟩,
      .operator .sub, .number (.int 1)] := by
  have htokens : tokens "(16440948372290153 * 561) - 1".toList =
      [⟨.leftParen, ['('], ⟨0, 1⟩⟩, ⟨.number, "16440948372290153".toList, ⟨1, 18⟩⟩,
        ⟨.star, ['*'], ⟨19, 20⟩⟩, ⟨.number, ['5', '6', '1'], ⟨21, 24⟩⟩,
        ⟨.rightParen, [')'], ⟨24, 25⟩⟩, ⟨.minus, ['-'], ⟨26, 27⟩⟩,
        ⟨.number, ['1'], ⟨28, 29⟩⟩] := rfl
  refine parseChars_eq_ok.mpr ⟨⟨[], 29⟩, ?_, rfl⟩
  rw [htokens]
  exact @Reads.expression _ none _ _ _ _ _ _ rfl
    (.alone (.group rfl rfl (.sub (@Reads.expression _ none _ _ _ _ _ _ rfl
      (.alone (.literal rfl rfl nofun rfl) rfl)
      (@Reads.restProduct _ _ none _ _ _ _ _ _ rfl rfl rfl
        (.alone (.literal rfl rfl nofun rfl) rfl) (.restEnd rfl rfl)))) rfl rfl) rfl)
    (.restSum rfl (.alone (.literal rfl rfl nofun rfl) rfl) (.restEnd rfl rfl))

/-- A roll with the product in a group. -/
def wideDifference : Roll :=
  .ofTerms [.parenthetical "16440948372290153 * 561"
    (.ofTerms [.numeric (.int 16440948372290153) {}, .operator .mul {}, .numeric (.int 561) {}]) {},
    .operator .sub {}, .numeric (.int 1) {}]

theorem new_wideDifference : Roll.new "(16440948372290153 * 561) - 1" = .ok wideDifference :=
  Roll.new_eq_ok.mpr ⟨_, _, parse_wideProduct, rfl, rfl⟩

/-- The product is worked out first and stands in place of the group. -/
theorem evaluateNow_wideDifference {σ : Type} [Roller σ] (c : Context σ) :
    ∃ r, wideDifference.evaluateNow { strict := true } c =
        (.ok (r, .int 9223372036854774784), c.restart) ∧
      r.terms = [.numeric (.float wideProduct) {}, .operator .sub {}, .numeric (.int 1) {}] := by
  rw [← wideProduct_sub_one]
  exact ⟨_, rfl, rfl⟩

/-- The text of the product is read as another whole number. -/
theorem isWorth_text_wideProduct :
    IsWorth "9223372036854775000 - 1" (.int 9223372036854774999) := by
  have hread := @new_ofInts 9223372036854775000 [(.sub, 1)] (by decide) (by decide) (by decide)
  rw [show Roll.formulaOf _ = "9223372036854775000 - 1" by decide] at hread
  exact isWorth_of_new hread fun formula => Term.totalOf_ofInts formula rfl

/-- A product that is too large is a double, whose shortest digits are those of another whole
    number: the result of `(16440948372290153 * 561) - 1` is displayed as a formula that is
    worth 215 more. -/
theorem Lifetime.result_widened :
    ∃ r r' c', Roll.new "(16440948372290153 * 561) - 1" = .ok r ∧
      r.evaluateNow { strict := true } (Context.limited none (StepRoller.start 1 1)) =
        (.ok (r', .int 9223372036854774784), c') ∧
      (∀ t ∈ r'.terms, t.operator? = none → ∃ v, t.total = some v ∧ v.Moderate) ∧
      (∃ tree, Infix.Tree.ofInfix r'.terms = .ok tree ∧
        tree.Moderate Term.valueOf .ofDivision) ∧
      r'.result = .ok "9223372036854775000 - 1" ∧
      IsWorth "9223372036854775000 - 1" (.int 9223372036854774999) := by
  obtain ⟨r', heval, hterms⟩ :=
    evaluateNow_wideDifference (Context.limited none (StepRoller.start 1 1))
  refine ⟨_, r', _, new_wideDifference, heval, ?_⟩
  rw [Roll.result, hterms]
  refine ⟨by decide +kernel, ⟨_, rfl, by decide +kernel⟩, ?_, isWorth_text_wideProduct⟩
  show Except.ok ((Number.float wideProduct).text ++ String.join [" - ", "1"]) = _
  rw [text_wideProduct]
  decide

end DiceNotation
