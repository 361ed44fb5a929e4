/-
  DiceNotation.Proofs.Evaluation.Meaning

  What a formula means, and that its evaluation comes to it.

  `Node.value?` gives the value of a node by recursion on nodes alone, with no
  terms, trees or plans: products bind more strongly than sums, a minus sign belongs
  to its own operand, and a flavor changes nothing. It knows neither fragments of
  text nor operands that are glued together. Where the value of every die is fixed,
  the roll of a formula without these evaluates to the value of its nodes
  (`Roll.evaluateNow_iff`).
-/

import DiceNotation.Proofs.Evaluation.Depth
import DiceNotation.Proofs.Evaluation.Pinned
import DiceNotation.Proofs.Formula.Shape

namespace DiceNotation.Formula

/-! ## Plain formulas -/

mutual

/-- Whether neither text nor glue is in a node, at any depth. -/
def Node.isPlain : Node → Bool
  | .text _ | .glued _ => false
  | .number _ | .dice _ _ _ | .operator _ => true
  | .function _ arguments => SubFormula.allPlain arguments
  | .pool items _ => SubFormula.allPlain items
  | .parenthetical inner => inner.isPlain
  | .negation inner => inner.isPlain
  | .annotated inner _ => inner.isPlain

/-- Whether neither text nor glue is in any of the nodes. -/
def Node.allPlain : List Node → Bool
  | [] => true
  | node :: rest => node.isPlain && Node.allPlain rest

/-- Whether neither text nor glue is in a formula. -/
def SubFormula.isPlain : SubFormula → Bool
  | ⟨_, nodes⟩ => Node.allPlain nodes

/-- Whether neither text nor glue is in any of the formulas. -/
def SubFormula.allPlain : List SubFormula → Bool
  | [] => true
  | sub :: rest => sub.isPlain && SubFormula.allPlain rest

end

/-! ## Values -/

/-- The total of dice that all show one value, after the modifiers that draw no dice. -/
def diceTotal (count : Nat) (d : Denomination) (ms : List Modifier) (value : Int) : Number :=
  let rs := List.replicate count (DieResult.fresh value)
  let rs := (ms.filter fun m => !m.effect.drawsDice).foldl
    (fun rs m => m.effect.apply d.least d.greatest rs) rs
  Number.sum ((DieResult.activeValues rs).map .int)

/-- The total of a pool whose items come to whole numbers, after its modifiers. -/
def poolTotal (ms : List Modifier) (values : List Int) : Number :=
  let rs := Evaluation.settle ms (values.map .fresh)
  Number.sum ((DieResult.activeValues rs).map .int)

section

variable (o : EvaluationOptions) (fs : FunctionRegistry)

mutual

/-- The value of a node. -/
def Node.value? : Node → Option Number
  | .number n => some n
  | .dice count d ms => (o.pinnedValue? d).map (diceTotal count d ms)
  | .function name arguments => do
    let values ← SubFormula.values? arguments
    (fs.call name values).toOption
  | .pool items ms => do
    let values ← SubFormula.values? items
    let whole ← values.mapM Number.whole?
    return poolTotal ms whole
  | .parenthetical inner => inner.value?
  | .negation inner => inner.value?.map Number.neg
  | .annotated inner _ => inner.value?
  | .text _ | .operator _ | .glued _ => none

/-- The value of an operand and what follows it. -/
def Node.rowValue? : List Node → Option Number
  | [] => none
  | first :: rest => do
    let n ← first.value?
    let ps ← Node.pairs? rest
    Infix.Row.total none n ps

/-- The operators in a row, each with the value of the operand behind it. -/
def Node.pairs? : List Node → Option (List (Operator × Number))
  | [] => some []
  | .operator op :: n :: rest => do
    let value ← n.value?
    let more ← Node.pairs? rest
    return (op, value) :: more
  | _ => none

/-- The value of a formula within a formula. -/
def SubFormula.value? : SubFormula → Option Number
  | ⟨_, nodes⟩ => Node.rowValue? nodes

/-- The values of formulas in a row. -/
def SubFormula.values? : List SubFormula → Option (List Number)
  | [] => some []
  | sub :: rest => do
    let value ← sub.value?
    let more ← SubFormula.values? rest
    return value :: more

end

end

end DiceNotation.Formula

namespace DiceNotation

open Formula Evaluation

variable {s : Setting}

/-! ## Terms -/

namespace Term

theorem setAnnotations_annotations (t : Term) : t.setAnnotations t.annotations = t := by
  cases t <;> rfl

theorem setAnnotations_setAnnotations (a b : Annotations) (t : Term) :
    (t.setAnnotations b).setAnnotations a = t.setAnnotations a := by
  cases t <;> rfl

/-- An operand that comes to a value, whatever is attached to it. -/
structure Means (s : Setting) (t : Term) (v : Option Number) : Prop where
  operand : t.operator? = none
  notText : t.isText = false
  value : ∀ a, termValue? s (roll s) (t.setAnnotations a) = v

theorem Means.eq {t : Term} {v : Option Number} (h : t.Means s v) :
    termValue? s (roll s) t = v := by
  rw [← h.value t.annotations, setAnnotations_annotations]

theorem Means.setAnnotations {t : Term} {v : Option Number} (h : t.Means s v)
    (b : Annotations) : (t.setAnnotations b).Means s v where
  operand := (operator?_setAnnotations b t).trans h.operand
  notText := (isText_setAnnotations b t).trans h.notText
  value := by
    intro a
    rw [setAnnotations_setAnnotations]
    exact h.value a

end Term

/-- A roll that is fresh and comes to a value. -/
structure Roll.Means (s : Setting) (r : Roll) (v : Option Number) : Prop where
  fresh : r.evaluated = false
  value : (Evaluation.value? s.options (roll s r)).map Prod.snd = v

/-- A row of terms comes to the total of the row. -/
theorem Roll.means_ofTerms (hpinned : s.options.isPinned = true) {ts : List Term}
    {v : Option Number} (hrow : Infix.IsRow ts) (htext : ∀ t ∈ ts, t.isText = false)
    (hvalue : Infix.Row.value? (termValue? s (roll s)) ts = v) : (Roll.ofTerms ts).Means s v where
  fresh := rfl
  value := by
    rw [roll_eq, value?_rollWith hpinned rfl hrow htext]
    exact hvalue

theorem Term.means_numeric (n : Number) (a : Annotations) :
    (Term.numeric n a).Means s (some n) where
  operand := rfl
  notText := rfl
  value := fun _ => rfl

theorem termValue?_of_fresh {nested : Nested} {t : Term} (h : t.isEvaluated = false) :
    termValue? s nested t = (Evaluation.value? s.options (term s nested t)).bind Term.total := by
  have hpending := @value?_pendingTerm_of_fresh s nested t h
  unfold termValue? reached? collapsed?
  split
  · rw [hpending]
    cases Evaluation.value? s.options (term s nested t) with
    | none => rfl
    | some t' =>
      simp only [Option.bind_some]
      cases t'.total <;> rfl
  · rw [Option.bind_some, hpending]

theorem total_of_roll {r r' : Roll} {v : Number}
    (h : Evaluation.value? s.options (roll s r) = some (r', v)) : r'.total = some v := by
  rw [roll_eq] at h
  exact total_of_rollWith h

theorem Term.means_parenthetical {r : Roll} {v : Option Number} (h : r.Means s v)
    (text : String) (a : Annotations) : (Term.parenthetical text r a).Means s v where
  operand := rfl
  notText := rfl
  value := by
    intro b
    show termValue? s _ (.parenthetical text r b) = v
    rw [termValue?_of_fresh (show (Term.parenthetical text r b).isEvaluated = false from h.fresh),
      value?_term_parenthetical, ← h.value]
    cases hr : Evaluation.value? s.options (roll s r) with
    | none => rfl
    | some e =>
      obtain ⟨r', n⟩ := e
      exact total_of_roll hr

/-! ## Rolls in a row -/

/-- Rolls that come to the values of formulas, one by one. -/
inductive Roll.MeanAll (s : Setting) : List Roll → List SubFormula → Prop where
  | nil : MeanAll s [] []
  | cons {r : Roll} {sub : SubFormula} {rs : List Roll} {subs : List SubFormula}
      (hr : r.Means s (sub.value? s.options s.functions)) (hrs : MeanAll s rs subs) :
      MeanAll s (r :: rs) (sub :: subs)

theorem Roll.MeanAll.arguments {rs : List Roll} {subs : List SubFormula}
    (h : Roll.MeanAll s rs subs) :
    (Evaluation.value? s.options (Evaluation.arguments (roll s) rs)).map
        (List.map Prod.snd) = SubFormula.values? s.options s.functions subs := by
  induction h with
  | nil => rfl
  | @cons r sub rs subs hr hrs ih =>
    rw [Evaluation.arguments, value?_bind, SubFormula.values?, ← hr.value, ← ih]
    cases Evaluation.value? s.options (roll s r) with
    | none => rfl
    | some e =>
      simp only [Option.bind_some, value?_bind]
      cases Evaluation.value? s.options (Evaluation.arguments (roll s) rs) <;> rfl

theorem Roll.MeanAll.items {rs : List Roll} {subs : List SubFormula}
    (h : Roll.MeanAll s rs subs) :
    (Evaluation.value? s.options (Evaluation.items (roll s) rs)).map
        (List.map Prod.snd) =
      (SubFormula.values? s.options s.functions subs).bind fun values =>
        values.mapM Number.whole? := by
  induction h with
  | nil => rfl
  | @cons r sub rs subs hr hrs ih =>
    rw [Evaluation.items, value?_bind, SubFormula.values?, ← hr.value]
    cases Evaluation.value? s.options (roll s r) with
    | none => rfl
    | some e =>
      obtain ⟨r', n⟩ := e
      simp only [Option.bind_some, Option.map_some]
      cases hn : n.whole? with
      | none =>
        cases SubFormula.values? s.options s.functions subs with
        | none => rfl
        | some values => simp [hn]
      | some m =>
        simp only [value?_bind]
        cases hvalues : SubFormula.values? s.options s.functions subs with
        | none =>
          rw [hvalues] at ih
          rw [Option.map_eq_none_iff.mp ih]
          rfl
        | some values =>
          rw [hvalues] at ih
          simp only [Option.bind_some] at ih
          cases hitems : Evaluation.value? s.options (Evaluation.items (roll s) rs) with
          | none =>
            rw [hitems] at ih
            simp [hn, ← ih]
          | some es =>
            rw [hitems] at ih
            simp [hn, ← ih]

/-- A node that becomes one term, wherever it stands, and comes to its value. -/
def Formula.Node.Yields (s : Setting) (n : Node) : Prop :=
  ∃ t, (∀ first, Term.ofNode first n = .ok [t]) ∧
    t.Means s (n.value? s.options s.functions)

theorem Formula.Node.Yields.annotated {n : Node} (h : n.Yields s) (flavor : String) :
    (Node.annotated n flavor).Yields s := by
  obtain ⟨t, ht, hmeans⟩ := h
  refine ⟨t.setFlavor (some flavor), fun first => ?_, ?_⟩
  · rw [Term.ofNode, ht]
    rfl
  · rw [Node.value?]
    exact hmeans.setAnnotations _

theorem Formula.Node.Yields.withFlavors {source : List Char} {n n' : Node} {c c' : Cursor}
    (h : Formula.withFlavors source n c = .ok (n', c'))
    (hn : n.isPlain = true → n.Yields s) (hplain : n'.isPlain = true) : n'.Yields s := by
  obtain ⟨⟨flavors, c₁⟩, -, heq⟩ := bind_eq_ok.mp h
  by_cases hempty : flavors.isEmpty = true
  · simp only [hempty, if_true] at heq
    cases heq
    exact hn hplain
  · simp only [hempty, Bool.false_eq_true, if_false] at heq
    cases heq
    rw [Node.isPlain] at hplain
    exact (hn hplain).annotated _

/-- A minus sign before an operand in a row of its own. -/
theorem Roll.means_minus (hpinned : s.options.isPinned = true) {t : Term} {v : Option Number}
    (h : t.Means s v) : (Roll.ofTerms [Term.minus, t]).Means s (v.map Number.neg) := by
  have hrow : Infix.IsRow [Term.minus, t] := .negated rfl h.operand .nil
  refine Roll.means_ofTerms hpinned hrow ?_ ?_
  · intro x hx
    obtain rfl | hx := List.mem_cons.mp hx
    · rfl
    · rw [List.mem_singleton.mp hx]
      exact h.notText
  · rw [Infix.Row.value?_negated _ _ _ rfl, h.eq]
    cases v <;> rfl

/-- An operand behind another one is one term, whatever its sign. -/
theorem Formula.Node.Yields.signed (hpinned : s.options.isPinned = true) {n : Node}
    (h : n.Yields s) (sign : Option Operator) :
    ∃ t, Term.ofNode false (signed sign n) = .ok [t] ∧
      t.Means s ((Formula.signed sign n).value? s.options s.functions) := by
  obtain ⟨t, ht, hmeans⟩ := h
  by_cases hsign : sign = some .sub
  · rw [Formula.signed, if_pos (by simp [hsign]), Node.value?]
    obtain ⟨value, rfl, hvalue⟩ | hnode := Node.ofNode_negation false n
    · exact ⟨_, hvalue, by rw [Node.value?]; exact Term.means_numeric value.neg {}⟩
    · refine ⟨_, by rw [hnode, ht, ok_bind]; rfl, ?_⟩
      exact Term.means_parenthetical (Roll.means_minus hpinned hmeans) _ _
  · rw [Formula.signed, if_neg (by simpa using hsign)]
    exact ⟨t, ht false, hmeans⟩

/-! ## Formulas -/

/-- Operators and operands in turns that come to the values behind the operators. -/
structure Term.RestMeans (s : Setting) (ts : List Term)
    (ps : Option (List (Operator × Number))) : Prop where
  alternates : Infix.Alternates ts
  notText : ∀ t ∈ ts, t.isText = false
  value : Infix.pairs? (termValue? s (roll s)) ts = ps

theorem Term.RestMeans.cons {t : Term} {ts : List Term} {v : Option Number}
    {ps : Option (List (Operator × Number))} (ht : t.Means s v) (hts : Term.RestMeans s ts ps)
    (op : Operator) :
    Term.RestMeans s (.operator op {} :: t :: ts) (do
      let value ← v
      let more ← ps
      return (op, value) :: more) where
  alternates := .cons rfl ht.operand hts.alternates
  notText := by
    intro x hx
    obtain rfl | hx := List.mem_cons.mp hx
    · rfl
    · obtain rfl | hx := List.mem_cons.mp hx
      · exact ht.notText
      · exact hts.notText x hx
  value := by
    rw [Infix.pairs?, ht.eq, hts.value]
    rfl

/-- What a piece of a formula becomes, unless text or glue is in it. -/
def Formula.Piece.Yields (s : Setting) : Piece → Prop
  | .expression nodes => Node.allPlain nodes = true →
    ∃ ts, Term.ofRow true nodes = .ok ts ∧
      (Roll.ofTerms ts).Means s (Node.rowValue? s.options s.functions nodes)
  | .rest nodes => Node.allPlain nodes = true →
    ∃ ts, Term.ofRow false nodes = .ok ts ∧
      Term.RestMeans s ts (Node.pairs? s.options s.functions nodes)
  | .operand n | .atom n => n.isPlain = true → n.Yields s
  | .list subs => SubFormula.allPlain subs = true →
    ∃ rs, Roll.ofSubs subs = .ok rs ∧ Roll.MeanAll s rs subs
  | .sub inner => inner.isPlain = true →
    ∃ r, Roll.ofSub inner = .ok r ∧ r.Means s (inner.value? s.options s.functions)
  | .glue _ _ => True

/-- A sign before the first operand of a row. -/
theorem Formula.Node.Yields.row (hpinned : s.options.isPinned = true) {n : Node} {ns : List Node}
    (h : n.Yields s) (sign : Option Operator) {ts : List Term}
    (hts : Term.ofRow false ns = .ok ts)
    (hrest : Term.RestMeans s ts (Node.pairs? s.options s.functions ns)) :
    ∃ ts, Term.ofRow true (Formula.signed sign n :: ns) = .ok ts ∧ (Roll.ofTerms ts).Means s
      (Node.rowValue? s.options s.functions (Formula.signed sign n :: ns)) := by
  have hplain : ∀ {m : Node} {t : Term}, Term.ofNode true m = .ok [t] →
      t.Means s (m.value? s.options s.functions) →
      ∃ ts, Term.ofRow true (m :: ns) = .ok ts ∧
        (Roll.ofTerms ts).Means s (Node.rowValue? s.options s.functions (m :: ns)) := by
    intro m t ht hmeans
    refine ⟨t :: ts, ?_, Roll.means_ofTerms hpinned (.plain hmeans.operand hrest.alternates) ?_ ?_⟩
    · rw [Term.ofRow_cons, ht, ok_bind]
      show (Term.ofRow false ns >>= fun more => .ok ([t] ++ more)) = _
      rw [hts, ok_bind]
      rfl
    · intro x hx
      obtain rfl | hx := List.mem_cons.mp hx
      · exact hmeans.notText
      · exact hrest.notText x hx
    · rw [Infix.Row.value?_plain _ _ hmeans.operand, hmeans.eq, hrest.value, Node.rowValue?]
  by_cases hsign : sign = some .sub
  · rw [Formula.signed, if_pos (by simp [hsign])]
    obtain ⟨value, rfl, hvalue⟩ | hnode := Node.ofNode_negation true n
    · refine hplain hvalue ?_
      rw [Node.value?, Node.value?]
      exact Term.means_numeric value.neg {}
    · obtain ⟨t, ht, hmeans⟩ := h
      refine ⟨Term.minus :: t :: ts, ?_,
        Roll.means_ofTerms hpinned (.negated rfl hmeans.operand hrest.alternates) ?_ ?_⟩
      · rw [Term.ofRow_cons, hnode, ht, ok_bind]
        show (Term.ofRow false ns >>= fun more => .ok ([Term.minus, t] ++ more)) = _
        rw [hts, ok_bind]
        rfl
      · intro x hx
        obtain rfl | hx := List.mem_cons.mp hx
        · rfl
        · obtain rfl | hx := List.mem_cons.mp hx
          · exact hmeans.notText
          · exact hrest.notText x hx
      · rw [Infix.Row.value?_negated _ _ _ rfl, hmeans.eq, hrest.value, Node.rowValue?,
          Node.value?]
        cases n.value? s.options s.functions <;> rfl
  · rw [Formula.signed, if_neg (by simpa using hsign)]
    obtain ⟨t, ht, hmeans⟩ := h
    exact hplain (ht true) hmeans

end DiceNotation
