/-
  DiceNotation.Proofs.Infix.Turned

  Rows in which negative numbers are added and taken away.

  To add a negative number is to take its opposite away. So a row has the total of
  the row in which every such number and the operator before it are turned
  (`Row.Course.total_turned`), although the number may begin a product, which then becomes
  the opposite in all its parts. What is worked out on the way must have an
  opposite, too: a `Row.Course` is a row in which all of it is moderate, and so is
  a tree that grows from a row if all its parts are (`Tree.course`).
-/

import DiceNotation.Proofs.Infix.Row
import DiceNotation.Proofs.Number.Opposite
import DiceNotation.Proofs.Text.Numeral

namespace DiceNotation

/-- The operator of sums with the other sign; an operator of products is as it was. -/
def Operator.turned : Operator → Operator
  | add => sub
  | sub => add
  | op => op

namespace Infix

/-! ## Rows of whole numbers -/

namespace Row

/-- A whole number and the operator before it, where a negative number that is added or
    taken away is replaced by its opposite. -/
def turn : Operator × Int → Operator × Int
  | (op, n) => if op.isAdditive && n < 0 then (op.turned, -n) else (op, n)

/-- A row of whole numbers. -/
def ofInts (ps : List (Operator × Int)) : List (Operator × Number) :=
  ps.map fun p => (p.1, .int p.2)

/-- A row that is worked out from a sum that is held and a product, where all sums and
    products on the way are moderate. -/
inductive Course : Option (Number × Operator) → Number → List (Operator × Number) → Prop where
  | last {held : Option (Number × Operator)} {p : Number} (hp : p.Moderate) : Course held p []
  | sum {held : Option (Number × Operator)} {p n s : Number} {op : Operator}
      {rest : List (Operator × Number)} (hop : op.isAdditive = true) (hp : p.Moderate)
      (hsum : close held p = some s) (hs : s.Moderate) (hrest : Course (some (s, op)) n rest) :
      Course held p ((op, n) :: rest)
  | product {held : Option (Number × Operator)} {p n q : Number} {op : Operator}
      {rest : List (Operator × Number)} (hop : op.isAdditive = false) (hp : p.Moderate)
      (hproduct : p.apply op n = .ok q) (hrest : Course held q rest) :
      Course held p ((op, n) :: rest)

/-- A sum and a product in whose place others come to the same: the product may be replaced
    by its opposite, where the operator before it is turned. -/
inductive Matches : Option (Number × Operator) → Number → Option (Number × Operator) → Number →
    Prop where
  | same {held : Option (Number × Operator)} {p : Number} : Matches held p held p
  | turned {s p p' : Number} {op : Operator} (hop : op.isAdditive = true) (hs : s.Moderate)
      (hp : p.Opposite p') : Matches (some (s, op)) p (some (s, op.turned)) p'

variable {held held' : Option (Number × Operator)} {p p' : Number}

theorem Course.moderate {rest : List (Operator × Number)} (h : Course held p rest) :
    p.Moderate := by
  cases h <;> assumption

theorem Matches.close (h : Matches held p held' p') : close held' p' = close held p := by
  cases h with
  | same => rfl
  | @turned s p p' op hop hs hp =>
    cases op with
    | add => exact congrArg some (hp.add hs).symm
    | sub => exact congrArg some (hp.sub hs).symm
    | mul | div | rem => cases hop

theorem Matches.apply (h : Matches held p held' p') {op : Operator} (hop : op.isAdditive = false)
    {n : Int} {q : Number} (hq : p.apply op (.int n) = .ok q) (hmoderate : q.Moderate) :
    ∃ q', p'.apply op (.int n) = .ok q' ∧ Matches held q held' q' := by
  cases h with
  | same => exact ⟨q, hq, .same⟩
  | turned hop' hs hp =>
    obtain ⟨q', hq', hopposite⟩ := hp.apply hop hq hmoderate
    exact ⟨q', hq', .turned hop' hs hopposite⟩

theorem isAdditive_turned (op : Operator) : op.turned.isAdditive = op.isAdditive := by
  cases op <;> rfl

/-- A number is turned if it is negative and a sum goes on with it. -/
theorem turn_cases (op : Operator) (n : Int) :
    (op.isAdditive = true ∧ n < 0 ∧ turn (op, n) = (op.turned, -n)) ∨
      (op.isAdditive = false ∨ 0 ≤ n) ∧ turn (op, n) = (op, n) := by
  cases hop : op.isAdditive with
  | false => exact .inr ⟨.inl rfl, by rw [turn, hop, Bool.false_and]; rfl⟩
  | true =>
    by_cases hn : n < 0
    · exact .inl ⟨rfl, hn, by rw [turn, hop, decide_eq_true hn]; rfl⟩
    · exact .inr ⟨.inr (by omega), by rw [turn, hop, decide_eq_false hn]; rfl⟩

/-- A number behind a sum and the number that it is turned to come to the same. -/
theorem matches_turn {op : Operator} (hop : op.isAdditive = true) {s : Number} (hs : s.Moderate)
    {n : Int} (hn : (Number.int n).Moderate) :
    Matches (some (s, op)) (.int n) (some (s, (turn (op, n)).1)) (.int (turn (op, n)).2) := by
  obtain ⟨-, -, hturn⟩ | ⟨-, hturn⟩ := turn_cases op n
  · obtain ⟨hmin, hmax⟩ := Number.moderate_int.mp hn
    rw [hturn]
    exact .turned hop hs (.int hmin hmax)
  · rw [hturn]
    exact .same

theorem isAdditive_turn (op : Operator) (n : Int) :
    (turn (op, n)).1.isAdditive = op.isAdditive := by
  obtain ⟨-, -, hturn⟩ | ⟨-, hturn⟩ := turn_cases op n
  · rw [hturn]
    exact isAdditive_turned op
  · rw [hturn]

theorem turn_of_product {op : Operator} (hop : op.isAdditive = false) (n : Int) :
    turn (op, n) = (op, n) := by
  rw [turn, hop, Bool.false_and]
  rfl

/-- A row in which negative numbers are turned has the same total. -/
theorem Course.total_turned {ps : List (Operator × Int)} (h : Course held p (ofInts ps))
    (hmatches : Matches held p held' p') :
    total held' p' (ofInts (ps.map turn)) = total held p (ofInts ps) := by
  induction ps generalizing held p held' p' with
  | nil => exact hmatches.close
  | cons pair ps ih =>
    obtain ⟨op, n⟩ := pair
    cases h with
    | @sum held p _ s _ _ hop hp hsum hs hrest =>
      have hnext := ih hrest (matches_turn hop hs hrest.moderate)
      have hsum' := hmatches.close.trans hsum
      simp only [ofInts, List.map_cons, total, isAdditive_turn, hop, if_true, hsum,
        hsum'] at hnext ⊢
      exact hnext
    | @product held p _ q _ _ hop hp hproduct hrest =>
      obtain ⟨q', hq', hmatches'⟩ := hmatches.apply hop hproduct hrest.moderate
      have hnext := ih hrest hmatches'
      simp only [ofInts, List.map_cons, turn_of_product hop, total, hop, Bool.false_eq_true,
        if_false, hproduct, hq'] at hnext ⊢
      exact hnext

end Row

/-! ## Trees of rows -/

namespace Tree

variable {α ε : Type} (valueOf : α → Except ε Number) (ofDivision : DivisionError → ε)

/-- All parts of a tree have moderate values. -/
def Moderate (t : Tree α) : Prop :=
  ∀ s ∈ t.visited, ∃ v, s.evaluate valueOf ofDivision = .ok v ∧ v.Moderate

instance : DecidablePred (Moderate valueOf ofDivision : Tree α → Prop) := fun t =>
  decidable_of_iff (∀ s ∈ t.visited, ∃ v ∈ s.value? valueOf ofDivision, v.Moderate) <|
    forall₂_congr fun _ _ => exists_congr fun _ => and_congr_left' Text.toOption_eq_some

variable {valueOf ofDivision} {t : Tree α}

theorem Moderate.value (h : t.Moderate valueOf ofDivision) :
    ∃ v, t.value? valueOf ofDivision = some v ∧ v.Moderate := by
  obtain ⟨v, hv, hmoderate⟩ := h t (mem_visited_self t)
  exact ⟨v, by rw [value?, hv]; rfl, hmoderate⟩

theorem Moderate.left {op : Operator} {l r : Tree α}
    (h : (binary op l r).Moderate valueOf ofDivision) : l.Moderate valueOf ofDivision :=
  fun s hs => h s (List.mem_append_left _ (List.mem_append_left _ hs))

theorem Moderate.right {op : Operator} {l r : Tree α}
    (h : (binary op l r).Moderate valueOf ofDivision) : r.Moderate valueOf ofDivision :=
  fun s hs => h s (List.mem_append_left _ (List.mem_append_right _ hs))

theorem Moderate.of_close {held : Option (Tree α × Operator)} {product : Tree α}
    (h : (close held product).Moderate valueOf ofDivision) :
    product.Moderate valueOf ofDivision := by
  cases held with
  | none => exact h
  | some entry => exact h.right

variable [Item α]

/-- The parts of the product under way, and of the sum that it completes, are parts of the
    tree that grows from them. -/
theorem Moderate.of_grow {items : List α} (hitems : Alternates items)
    {held : Option (Tree α × Operator)} {product : Tree α}
    (h : (grow held product items).Moderate valueOf ofDivision) :
    product.Moderate valueOf ofDivision ∧
      ∀ sum op, held = some (sum, op) → sum.Moderate valueOf ofDivision := by
  induction hitems generalizing held product with
  | nil =>
    refine ⟨h.of_close, ?_⟩
    rintro sum op rfl
    exact h.left
  | @cons i x op rest hi hx hrest ih =>
    cases hop : op.isAdditive with
    | true =>
      simp only [grow, hi, hop, if_true] at h
      have hclose := (ih h).2 _ _ rfl
      refine ⟨hclose.of_close, ?_⟩
      rintro sum op rfl
      exact hclose.left
    | false =>
      simp only [grow, hi, hop, Bool.false_eq_true, if_false] at h
      obtain ⟨hproduct, hheld⟩ := ih h
      exact ⟨hproduct.left, hheld⟩

/-- A tree that grows from a row is worked out as the row is. -/
theorem course {items : List α} (hitems : Alternates items)
    {held : Option (Tree α × Operator)} {product : Tree α}
    (h : (grow held product items).Moderate valueOf ofDivision)
    {sum : Option (Number × Operator)} {p : Number} {ps : List (Operator × Number)}
    (hsum : heldValue? valueOf ofDivision held = some sum)
    (hp : product.value? valueOf ofDivision = some p)
    (hps : pairs? (fun x => (valueOf x).toOption) items = some ps) : Row.Course sum p ps := by
  induction hitems generalizing held product sum p ps with
  | nil =>
    cases hps
    obtain ⟨v, hv, hmoderate⟩ := h.of_close.value
    cases hp.symm.trans hv
    exact .last hmoderate
  | @cons i x op rest hi hx hrest ih =>
    obtain ⟨v, hv, hmoderate⟩ := (h.of_grow (.cons hi hx hrest)).1.value
    cases hp.symm.trans hv
    simp only [pairs?, hi, Option.bind_eq_bind, Option.bind_some, Option.bind_eq_some_iff] at hps
    obtain ⟨n, hn, more, hmore, heq⟩ := hps
    cases heq
    cases hop : op.isAdditive with
    | true =>
      simp only [grow, hi, hop, if_true] at h
      obtain ⟨s, hs, hsmoderate⟩ := ((h.of_grow hrest).2 _ _ rfl).value
      have hclose : Row.close sum p = some s := by
        rw [← hs, value?_close, hsum, hp]
        rfl
      exact .sum hop hmoderate hclose hsmoderate
        (ih h (by rw [heldValue?, hs]; rfl) hn hmore)
    | false =>
      simp only [grow, hi, hop, Bool.false_eq_true, if_false] at h
      obtain ⟨q, hq, -⟩ := (h.of_grow hrest).1.value
      have hproduct : p.apply op n = .ok q := by
        have hleaf : (leaf x).value? valueOf ofDivision = some n := hn
        rw [value?_binary, hp, hleaf] at hq
        exact Text.toOption_eq_some.mp hq
      exact .product hop hmoderate hproduct (ih h hsum hq hmore)

end Tree

end Infix

end DiceNotation
