/-
  DiceNotation.Proofs.Infix.Exact

  Rows of operands and operators are read exactly.

  `Begun` says which lists are beginnings of rows and what is due after them. While
  a list is the beginning of a row, the stacks are balanced (`Reading.Balanced`):
  there is one operand more than operators once an operand was read, so that
  operators never lack operands. So a list has a tree or a first item that is out
  of place, and either is what `Tree.ofInfix` gives (`Tree.ofInfix_exact`).
-/

import DiceNotation.Formula.Node
import DiceNotation.Proofs.Infix.Grouping

namespace DiceNotation.Infix

variable {α : Type} [Item α]

/-! ## Beginnings of rows -/

/-- The beginning of a row, and whether an operand is due after it. -/
inductive Begun : List α → Bool → Prop where
  | nil : Begun [] true
  /-- A minus sign before the first operand. -/
  | sign {i : α} (hi : Item.operator? i = some .sub) : Begun [i] true
  | operand {before : List α} {x : α} (hbefore : Begun before true)
      (hx : Item.operator? x = none) : Begun (before ++ [x]) false
  | operator {before : List α} {i : α} {op : Operator} (hbefore : Begun before false)
      (hi : Item.operator? i = some op) : Begun (before ++ [i]) true

/-- The first item of a list that is out of place, and why it is: an operator where an
    operand is due, an operand where an operator is due, or else the last item where the
    list ends before its last operand. -/
inductive Tree.Offends (items : List α) : Tree.Misplaced → Prop where
  | operator {before after : List α} {i : α} {op : Operator} (hbefore : Begun before true)
      (hi : Item.operator? i = some op) (hsign : before = [] → op ≠ .sub)
      (hitems : items = before ++ i :: after) : Offends items ⟨before.length, .missingOperand⟩
  | operand {before after : List α} {x : α} (hbefore : Begun before false)
      (hx : Item.operator? x = none) (hitems : items = before ++ x :: after) :
      Offends items ⟨before.length, .missingOperator⟩
  | ended (hitems : Begun items true) : Offends items ⟨items.length - 1, .missingOperand⟩

theorem Begun.ne_nil {items : List α} (h : Begun items false) : items ≠ [] := by
  generalize hdue : false = due at h
  cases h with
  | operand => simp
  | nil | sign | operator => cases hdue

theorem Alternates.append {xs ys : List α} (hx : Alternates xs) (hy : Alternates ys) :
    Alternates (xs ++ ys) := by
  induction hx with
  | nil => exact hy
  | cons hi hx hrest ih => exact .cons hi hx ih

/-- A row with one more operator and operand at the end. -/
theorem IsRow.append_pair {items : List α} (h : IsRow items) {i x : α} {op : Operator}
    (hi : Item.operator? i = some op) (hx : Item.operator? x = none) : IsRow (items ++ [i, x]) := by
  have hpair : Alternates [i, x] := .cons hi hx .nil
  cases h with
  | plain hfirst hrest => exact .plain hfirst (hrest.append hpair)
  | negated hsign hfirst hrest => exact .negated hsign hfirst (hrest.append hpair)

/-- A beginning after which an operator is due is a row; one after which an operand is due
    is empty, a sign, or a row with an operator behind it. -/
theorem Begun.cases_row {items : List α} {due : Bool} (h : Begun items due) :
    (due = false → IsRow items) ∧
      (due = true → items = [] ∨ (∃ i, Item.operator? i = some .sub ∧ items = [i]) ∨
        ∃ row i op, IsRow row ∧ Item.operator? i = some op ∧ items = row ++ [i]) := by
  induction h with
  | nil => exact ⟨nofun, fun _ => .inl rfl⟩
  | @sign i hi => exact ⟨nofun, fun _ => .inr (.inl ⟨i, hi, rfl⟩)⟩
  | @operand before x hbefore hx ih =>
    refine ⟨fun _ => ?_, nofun⟩
    rcases ih.2 rfl with rfl | ⟨i, hi, rfl⟩ | ⟨row, i, op, hrow, hi, rfl⟩
    · exact .plain hx .nil
    · exact .negated hi hx .nil
    · simpa using hrow.append_pair hi hx
  | @operator before i op hbefore hi ih =>
    exact ⟨nofun, fun _ => .inr (.inr ⟨before, i, op, ih.1 rfl, hi, rfl⟩)⟩

/-- A list is the beginning of a row, or an item of it is the first out of place. -/
theorem Begun.append_or_offends {before : List α} {due : Bool} (h : Begun before due)
    (rest : List α) :
    (∃ due, Begun (before ++ rest) due) ∨ ∃ e, Tree.Offends (before ++ rest) e := by
  induction rest generalizing before due with
  | nil =>
    rw [List.append_nil]
    exact .inl ⟨due, h⟩
  | cons i rest ih =>
    -- an item in place makes the beginning longer
    have hnext : ∀ due', Begun (before ++ [i]) due' →
        (∃ due, Begun (before ++ i :: rest) due) ∨
          ∃ e, Tree.Offends (before ++ i :: rest) e := by
      intro due' hlonger
      have := ih hlonger
      rwa [List.append_assoc, List.singleton_append] at this
    cases hi : Item.operator? i with
    | none =>
      cases due with
      | true => exact hnext false (h.operand hi)
      | false => exact .inr ⟨_, .operand h hi rfl⟩
    | some op =>
      cases due with
      | false => exact hnext true (h.operator hi)
      | true =>
        by_cases hsign : before = [] ∧ op = .sub
        · obtain ⟨rfl, rfl⟩ := hsign
          exact hnext true (.sign hi)
        · exact .inr ⟨_, .operator h hi (fun hnil hsub => hsign ⟨hnil, hsub⟩) rfl⟩

namespace Tree

/-! ## Balanced stacks -/

omit [Item α] in
/-- Where there is one operand more than operators, no operator lacks one. -/
theorem unwind_of_balanced (p : Nat) {operands : List (Tree α)}
    {operators : List (Operator × Nat)} (h : operands.length = operators.length + 1) :
    ∃ s, unwind p operands operators = .ok s ∧ s.operands.length = s.operators.length + 1 := by
  induction operators generalizing operands with
  | nil => exact ⟨⟨operands, []⟩, rfl, h⟩
  | cons entry operators ih =>
    obtain ⟨top, index⟩ := entry
    by_cases hlt : top.precedence < p
    · refine ⟨⟨operands, (top, index) :: operators⟩, ?_, h⟩
      simp only [unwind, hlt, if_true]
    · obtain ⟨right, rest, rfl⟩ := List.exists_cons_of_length_eq_add_one h
      obtain ⟨left, rest, rfl⟩ := List.exists_cons_of_length_eq_add_one (Nat.succ_inj.mp h)
      simp only [unwind, hlt, if_false]
      exact ih (by simpa using h)

namespace Reading

variable {r : Reading α} {index : Nat}

/-- There are as many operands as operators, and one more after an operand. -/
structure Balanced (due : Bool) (r : Reading α) : Prop where
  expecting : r.expecting = due
  length : r.held.operands.length = r.held.operators.length + if due then 0 else 1

omit [Item α] in
theorem balanced_start : Balanced true (start : Reading α) := ⟨rfl, rfl⟩

/-- An operand is read where one is due. -/
theorem Balanced.operand (h : Balanced true r) (index : Nat) {x : α} (hx : Item.operator? x = none) :
    ∃ r', r.step index x = .ok r' ∧ Balanced false r' := by
  have hstep : r.step index x = .ok ⟨{ r.held with
      operands := (if r.negate then neg (leaf x) else leaf x) :: r.held.operands }, false, false⟩ := by
    simp only [step, hx, h.expecting, if_true]
  have hlength := h.length
  exact ⟨_, hstep, rfl, by simpa using hlength⟩

/-- An operator is read behind an operand. -/
theorem Balanced.operator (h : Balanced false r) {i : α} {op : Operator}
    (hi : Item.operator? i = some op) (hindex : index ≠ 0) :
    ∃ r', r.step index i = .ok r' ∧ Balanced true r' := by
  obtain ⟨s, hunwind, hlength⟩ := unwind_of_balanced op.precedence h.length
  have hnonzero : (index == 0 && op == .sub) = false := by simp [hindex]
  have hstep : r.step index i =
      .ok ⟨{ s with operators := (op, index) :: s.operators }, true, r.negate⟩ := by
    simp only [step, hi, hnonzero, h.expecting, Bool.false_eq_true, if_false, hunwind]
    rfl
  exact ⟨_, hstep, rfl, by simpa using hlength⟩

/-- An operator where an operand is due is out of place, unless it is a sign before the
    first operand. -/
theorem Balanced.misplaced_operator (h : Balanced true r) (index : Nat) {i : α} {op : Operator}
    (hi : Item.operator? i = some op) (hsign : index = 0 → op ≠ .sub) :
    r.step index i = .error ⟨index, .missingOperand⟩ := by
  have hno : (index == 0 && op == .sub) = false := by
    simpa using hsign
  simp only [step, hi, hno, h.expecting, Bool.false_eq_true, if_false, if_true]

/-- An operand behind an operand is out of place. -/
theorem Balanced.misplaced_operand (h : Balanced false r) (index : Nat) {x : α}
    (hx : Item.operator? x = none) : r.step index x = .error ⟨index, .missingOperator⟩ := by
  simp only [step, hx, h.expecting, Bool.false_eq_true, if_false]

/-- One more item is read. -/
theorem steps_concat {items : List α} (hsteps : start.steps 0 items = .ok r) (i : α) :
    start.steps 0 (items ++ [i]) = r.step items.length i := by
  rw [steps_append, hsteps, Nat.zero_add]
  show r.steps items.length [i] = r.step items.length i
  rw [steps]
  cases r.step items.length i <;> rfl

/-- An item that cannot be read ends the reading. -/
theorem steps_of_misplaced {items : List α} (hsteps : start.steps 0 items = .ok r) {i : α}
    {e : Misplaced} (hstep : r.step items.length i = .error e) (rest : List α) :
    start.steps 0 (items ++ i :: rest) = .error e := by
  rw [steps_append, hsteps, Nat.zero_add]
  show r.steps items.length (i :: rest) = .error e
  rw [steps, hstep]
  rfl

/-- The beginning of a row is read with balanced stacks. -/
theorem steps_of_begun {items : List α} {due : Bool} (h : Begun items due) :
    ∃ r, start.steps 0 items = .ok r ∧ Balanced due r := by
  induction h with
  | nil => exact ⟨start, rfl, balanced_start⟩
  | @sign i hi =>
    refine ⟨{ start with negate := true }, ?_, rfl, rfl⟩
    simp only [steps, step, hi]
    rfl
  | @operand before x hbefore hx ih =>
    obtain ⟨r, hsteps, hr⟩ := ih
    obtain ⟨r', hstep, hr'⟩ := hr.operand before.length hx
    exact ⟨r', (steps_concat hsteps x).trans hstep, hr'⟩
  | @operator before i op hbefore hi ih =>
    obtain ⟨r, hsteps, hr⟩ := ih
    have hindex : before.length ≠ 0 := by
      simpa [List.length_eq_zero_iff] using hbefore.ne_nil
    obtain ⟨r', hstep, hr'⟩ := hr.operator hi hindex
    exact ⟨r', (steps_concat hsteps i).trans hstep, hr'⟩

end Reading

/-! ## What is read -/

/-- The item that is out of place first is what the reading of a list fails for. -/
theorem Offends.ofInfix {items : List α} {e : Misplaced} (h : Offends items e) :
    ofInfix items = .error e := by
  cases h with
  | @operator before after i op hbefore hi hsign hitems =>
    obtain ⟨r, hsteps, hr⟩ := Reading.steps_of_begun hbefore
    have hstep := hr.misplaced_operator before.length hi
      fun hzero => hsign (List.length_eq_zero_iff.mp hzero)
    rw [Tree.ofInfix, hitems, Reading.steps_of_misplaced hsteps hstep]
    rfl
  | @operand before after x hbefore hx hitems =>
    obtain ⟨r, hsteps, hr⟩ := Reading.steps_of_begun hbefore
    have hstep := hr.misplaced_operand before.length hx
    rw [Tree.ofInfix, hitems, Reading.steps_of_misplaced hsteps hstep]
    rfl
  | ended hitems =>
    obtain ⟨r, hsteps, hr⟩ := Reading.steps_of_begun hitems
    rw [Tree.ofInfix, hsteps]
    show r.finish (items.length - 1) = _
    simp only [Reading.finish, hr.expecting, if_true]

/-- A list is a row, or an item is the first out of place. -/
theorem isRow_or_offends (items : List α) : IsRow items ∨ ∃ e, Offends items e := by
  rcases Begun.nil.append_or_offends items with ⟨due, hbegun⟩ | hoffends
  · rw [List.nil_append] at hbegun
    cases due with
    | false => exact .inl (hbegun.cases_row.1 rfl)
    | true => exact .inr ⟨_, .ended hbegun⟩
  · exact .inr hoffends

/-- A list has a tree exactly if it is a row. -/
theorem exists_ofInfix_iff (items : List α) :
    (∃ t : Tree α, Tree.ofInfix items = .ok t) ↔ IsRow items := by
  constructor
  · rintro ⟨t, ht⟩
    rcases isRow_or_offends items with hrow | ⟨e, he⟩
    · exact hrow
    · rw [he.ofInfix] at ht
      cases ht
  · intro hrow
    obtain ⟨t, hranked, hsigned, hinorder⟩ := exists_ranked hrow
    exact ⟨t, ofInfix_of_inorder hranked hsigned hinorder.symm⟩

/-- The tree of a list is the one with its operators and operands in order that is grouped
    by precedence. -/
theorem ofInfix_eq_ok_iff (items : List α) (t : Tree α) :
    Tree.ofInfix items = .ok t ↔
      t.Ranked ∧ t.SignedFirst ∧ t.inorder = items.map Item.sorted := by
  constructor
  · intro ht
    obtain ⟨t', hranked, hsigned, hinorder⟩ := exists_ranked ((exists_ofInfix_iff items).mp ⟨t, ht⟩)
    rw [ofInfix_of_inorder hranked hsigned hinorder.symm] at ht
    cases ht
    exact ⟨hranked, hsigned, hinorder⟩
  · rintro ⟨hranked, hsigned, hinorder⟩
    exact ofInfix_of_inorder hranked hsigned hinorder.symm

/-- A list fails to be read for the item that is out of place first. -/
theorem ofInfix_eq_error_iff (items : List α) (e : Misplaced) :
    Tree.ofInfix items = .error e ↔ Offends items e := by
  refine ⟨fun he => ?_, Offends.ofInfix⟩
  rcases isRow_or_offends items with hrow | ⟨e', he'⟩
  · obtain ⟨t, ht⟩ := (exists_ofInfix_iff items).mpr hrow
    rw [ht] at he
    cases he
  · rw [he'.ofInfix] at he
    cases he
    exact he'

/-- The tree of a row is written as the row again, where an operator of the row is no more
    than the operator. -/
theorem toInfix_of_ofInfix {β : Type} [Operand β]
    (hoperator : ∀ (i : β) (op : Operator), Item.operator? i = some op → Operand.ofOperator op = i)
    {items : List β} {t : Tree β} (h : Tree.ofInfix items = .ok t) : t.toInfix = items := by
  obtain ⟨hranked, -, hinorder⟩ := (ofInfix_eq_ok_iff items t).mp h
  have hitem : ∀ i : β, Sum.elim Operand.ofOperator id (Item.sorted i) = i := by
    intro i
    cases hi : Item.operator? i with
    | none => simp [Item.sorted_of_operand hi]
    | some op => simpa [Item.sorted_of_operator hi] using hoperator i op hi
  rw [hranked.toInfix, hinorder, List.map_map]
  simp [Function.comp_def, hitem]

/-- What the reading of a list comes to. -/
structure ReadsExactly (items : List α) : Prop where
  /-- A list has a tree exactly if it is a row: a minus sign or nothing, an operand, and
      then operators and operands in turns. -/
  succeeds : (∃ t : Tree α, Tree.ofInfix items = .ok t) ↔ IsRow items
  /-- The tree has the operators and operands of the list in order, its operators stand above
      operands that bind strongly enough, and its negation, if it has one, is that of the
      first operand. There is no other such tree. -/
  tree : ∀ t : Tree α, Tree.ofInfix items = .ok t ↔
    t.Ranked ∧ t.SignedFirst ∧ t.inorder = items.map Item.sorted
  /-- Otherwise the fault is that of the first item out of place. -/
  fault : ∀ e, Tree.ofInfix items = .error e ↔ Offends items e

/-- Rows of any items are read exactly, and the tree of a row of parsed nodes is written as
    this row again. -/
theorem ofInfix_exact :
    (∀ {α : Type} [Item α] (items : List α), ReadsExactly items) ∧
      ∀ (nodes : List Formula.Node) (t : Tree Formula.Node),
        Tree.ofInfix nodes = .ok t → t.toInfix = nodes := by
  refine ⟨fun items => ?_, fun nodes t ht => ?_⟩
  · exact ⟨exists_ofInfix_iff items, ofInfix_eq_ok_iff items, ofInfix_eq_error_iff items⟩
  · refine toInfix_of_ofInfix (fun node op hnode => ?_) ht
    cases node <;> cases hnode
    rfl

end Tree

end DiceNotation.Infix
