/-
  DiceNotation.Proofs.Infix.Arithmetic

  Arithmetic of whole numbers in trees.

  `Tree.integral?` is the value of a tree in the integers, without a bound. While
  the exact values of the parts of a tree have 64 bits, the tree is worked out
  to them; the first part without one decides the failure if it divides by zero
  (`Tree.evaluate_exact`). The parts stand in the order in which they are worked
  out (`Tree.visited`), so that the first of them is the first of the list.
-/

import DiceNotation.Infix.Tree

namespace DiceNotation

/-! ## Operators -/

/-- Whether an operator divides. -/
def Operator.Divides (op : Operator) : Prop := op = .div ∨ op = .rem

/-- What an operator comes to in the integers. A quotient must leave no remainder; a
    remainder has the sign of the dividend. -/
def Operator.integral? (op : Operator) (m n : Int) : Option Int :=
  match op with
  | .add => some (m + n)
  | .sub => some (m - n)
  | .mul => some (m * n)
  | .div => if n ≠ 0 ∧ n ∣ m then some (m / n) else none
  | .rem => if n ≠ 0 then some (m.tmod n) else none

namespace Number

/-- A number is negated exactly while its negative fits. -/
theorem neg_int {n : Int} (h : Text.fitsInt64 (-n) = true) : (int n).neg = int (-n) := by
  simp [neg, fitted, h]

theorem eq_zero_int (n : Int) : (int n).eq zero = (n == 0) := rfl

/-- Quotients of whole numbers are exact if they are whole and fit. -/
theorem div_int {m n : Int} (hn : n ≠ 0) (hdvd : n ∣ m) (h : Text.fitsInt64 (m / n) = true) :
    (int m).div (int n) = .ok (int (m / n)) := by
  have hquotient : m.tdiv n = m / n := Int.tdiv_eq_ediv_of_dvd hdvd
  have hrest : m.tmod n = 0 := Int.tmod_eq_zero_of_dvd hdvd
  simp [div, eq_zero_int, hn, hquotient, hrest, h]

/-- Remainders of whole numbers are exact. -/
theorem rem_int {m n : Int} (hn : n ≠ 0) : (int m).rem (int n) = .ok (int (m.tmod n)) := by
  simp [rem, eq_zero_int, hn]

/-- An operator is exact on whole numbers while the result fits. -/
theorem apply_exact {op : Operator} {m n v : Int} (hv : op.integral? m n = some v)
    (h : Text.fitsInt64 v = true) : (int m).apply op (int n) = .ok (int v) := by
  cases op with
  | add =>
    obtain rfl : m + n = v := Option.some.inj hv
    exact congrArg Except.ok (add_int h)
  | sub =>
    obtain rfl : m - n = v := Option.some.inj hv
    exact congrArg Except.ok (sub_int h)
  | mul =>
    obtain rfl : m * n = v := Option.some.inj hv
    exact congrArg Except.ok (mul_int h)
  | div =>
    obtain ⟨⟨hn, hdvd⟩, rfl⟩ : (n ≠ 0 ∧ n ∣ m) ∧ m / n = v := by
      simpa [Operator.integral?] using hv
    exact div_int hn hdvd h
  | rem =>
    obtain ⟨hn, rfl⟩ : n ≠ 0 ∧ m.tmod n = v := by
      simpa [Operator.integral?] using hv
    exact rem_int hn

/-- Nothing is divided by zero. -/
theorem apply_zero {op : Operator} (hop : op.Divides) (a : Number) :
    a.apply op zero = .error .byZero := by
  have hzero : zero.eq zero = true := rfl
  rcases hop with rfl | rfl
  · show a.div zero = _
    unfold div
    exact if_pos hzero
  · show a.rem zero = _
    unfold rem
    exact if_pos hzero

end Number

namespace Infix.Tree

variable {α ε : Type}

/-! ## The parts of a tree -/

/-- The parts of a tree in the order in which they are worked out: the left operand, the
    right one, and the tree itself at last. -/
def visited : Tree α → List (Tree α)
  | leaf x => [leaf x]
  | neg inner => inner.visited ++ [neg inner]
  | binary op left right => left.visited ++ right.visited ++ [binary op left right]

theorem mem_visited_self (t : Tree α) : t ∈ t.visited := by
  cases t <;> simp [visited]

/-- An item of two lists in a row is one of the first list, or one of the second, behind
    the whole first. -/
theorem append_eq_append_cons {xs ys before after : List α} {s : α}
    (h : xs ++ ys = before ++ s :: after) :
    (∃ mid, xs = before ++ s :: mid) ∨
      ∃ mid, before = xs ++ mid ∧ ys = mid ++ s :: after := by
  rcases List.append_eq_append_iff.mp h with ⟨mid, hbefore, hys⟩ | ⟨mid, hxs, hafter⟩
  · exact .inr ⟨mid, hbefore, hys⟩
  · cases mid with
    | nil =>
      rw [List.append_nil] at hxs
      exact .inr ⟨[], by simp [hxs], by simpa using hafter.symm⟩
    | cons s' mid =>
      obtain ⟨rfl, -⟩ := List.cons.inj hafter
      exact .inl ⟨mid, hxs⟩

theorem singleton_eq_append_cons {x s : α} {before after : List α}
    (h : [x] = before ++ s :: after) : before = [] ∧ x = s := by
  cases before with
  | nil => exact ⟨rfl, (List.cons.inj h).1⟩
  | cons y before => simp at h

/-! ## Exact values -/

/-- The value of a tree in the integers, where `value` gives that of an operand. -/
def integral? (value : α → Int) : Tree α → Option Int
  | leaf x => some (value x)
  | neg inner => (inner.integral? value).map (- ·)
  | binary op left right => do
    let m ← left.integral? value
    let n ← right.integral? value
    op.integral? m n

/-- The exact value of a tree has 64 bits. -/
def Fits (value : α → Int) (t : Tree α) : Prop :=
  ∃ n, t.integral? value = some n ∧ Text.fitsInt64 n = true

instance (value : α → Int) : DecidablePred (Fits value) := fun t =>
  decidable_of_iff ((t.integral? value).any Text.fitsInt64 = true)
    (by simp [Fits, Option.any_eq_true])

/-- The operands as numbers. -/
def whole (value : α → Int) (x : α) : Except ε Number := .ok (.int (value x))

variable (value : α → Int) (ofDivision : DivisionError → ε)

/-- A tree is worked out to its exact value while the exact values of its parts fit. -/
theorem evaluate_of_fits {t : Tree α} (h : ∀ s ∈ t.visited, s.Fits value) :
    ∃ n, t.integral? value = some n ∧ t.evaluate (whole value) ofDivision = .ok (.int n) := by
  induction t with
  | leaf x => exact ⟨value x, rfl, rfl⟩
  | neg inner ih =>
    obtain ⟨n, hexact, hn⟩ := ih fun s hs => h s (List.mem_append_left _ hs)
    obtain ⟨v, hv, hfits⟩ := h _ (mem_visited_self _)
    obtain rfl : -n = v := by simpa [integral?, hexact] using hv
    refine ⟨-n, hv, ?_⟩
    rw [evaluate, hn]
    exact congrArg Except.ok (Number.neg_int hfits)
  | binary op left right ihl ihr =>
    obtain ⟨m, hleft, hm⟩ := ihl fun s hs =>
      h s (List.mem_append_left _ (List.mem_append_left _ hs))
    obtain ⟨n, hright, hn⟩ := ihr fun s hs =>
      h s (List.mem_append_left _ (List.mem_append_right _ hs))
    obtain ⟨v, hv, hfits⟩ := h _ (mem_visited_self _)
    have hop : op.integral? m n = some v := by
      simpa [integral?, hleft, hright] using hv
    refine ⟨v, hv, ?_⟩
    rw [evaluate, hm, hn]
    show ((Number.int m).apply op (.int n)).mapError ofDivision = _
    rw [Number.apply_exact hop hfits]
    rfl

/-- A tree fails for the division by zero that comes first, where all parts that are worked
    out before it have exact values that fit. -/
theorem evaluate_of_division {t left right : Tree α} {op : Operator}
    {before after : List (Tree α)} (ht : t.visited = before ++ binary op left right :: after)
    (hbefore : ∀ s ∈ before, s.Fits value) (hop : op.Divides)
    (hzero : right.integral? value = some 0) :
    t.evaluate (whole value) ofDivision = .error (ofDivision .byZero) := by
  induction t generalizing before after with
  | leaf x =>
    -- an operand has no part that divides
    cases (singleton_eq_append_cons ht).2
  | neg inner ih =>
    rcases append_eq_append_cons ht with ⟨mid, hinner⟩ | ⟨mid, -, hmid⟩
    · rw [evaluate, ih hinner hbefore]
      rfl
    · cases (singleton_eq_append_cons hmid).2
  | binary op' l r ihl ihr =>
    rcases append_eq_append_cons ht with ⟨mid, hparts⟩ | ⟨mid, hmid, hself⟩
    · rcases append_eq_append_cons hparts with ⟨mid, hl⟩ | ⟨mid, rfl, hr⟩
      · rw [evaluate, ihl hl hbefore]
        rfl
      · obtain ⟨m, -, hm⟩ := evaluate_of_fits value ofDivision fun s hs =>
          hbefore s (List.mem_append_left _ hs)
        have hfails := ihr hr fun s hs => hbefore s (List.mem_append_right _ hs)
        rw [evaluate, hm, hfails]
        rfl
    · obtain ⟨rfl, hsame⟩ := singleton_eq_append_cons hself
      cases hsame
      rw [List.append_nil] at hmid
      subst hmid
      obtain ⟨m, -, hm⟩ := evaluate_of_fits value ofDivision fun s hs =>
        hbefore s (List.mem_append_left _ hs)
      obtain ⟨n, hexact, hn⟩ := evaluate_of_fits value ofDivision fun s hs =>
        hbefore s (List.mem_append_right _ hs)
      obtain rfl : n = 0 := Option.some.inj (hexact.symm.trans hzero)
      rw [evaluate, hm, hn]
      show ((Number.int m).apply op Number.zero).mapError ofDivision = _
      rw [Number.apply_zero hop]
      rfl

/-- The least whole number leaves no remainder when it is divided by minus one, although
    the quotient does not fit. -/
theorem evaluate_rem_neg_one {left right : Tree α}
    (h : ∀ s ∈ left.visited ++ right.visited, s.Fits value)
    (hleft : left.integral? value = some Text.minInt64)
    (hright : right.integral? value = some (-1)) :
    (binary .rem left right).evaluate (whole value) ofDivision = .ok (.int 0) := by
  have hexact : (binary .rem left right).integral? value = some 0 := by
    simp [integral?, hleft, hright, Operator.integral?, Text.minInt64]
  obtain ⟨n, hn, heval⟩ := evaluate_of_fits value ofDivision (t := binary .rem left right)
    fun s hs => by
      rcases List.mem_append.mp hs with hs | hs
      · exact h s hs
      · obtain rfl := List.mem_singleton.mp hs
        exact ⟨0, hexact, by decide⟩
  rwa [Option.some.inj (hn.symm.trans hexact)] at heval

/-- Arithmetic of whole numbers is exact up to 64 bits. While the exact values of all parts
    of a tree fit, the tree is worked out to its exact value, also where the least whole
    number is divided by minus one for the remainder. Where the first part without such a
    value, in the order in which they are worked out, divides by zero, the failure says so. -/
theorem evaluate_exact (t : Tree α) :
    ((∀ s ∈ t.visited, s.Fits value) →
      ∃ n, t.integral? value = some n ∧ t.evaluate (whole value) ofDivision = .ok (.int n)) ∧
    (∀ left right : Tree α, t = binary .rem left right →
      (∀ s ∈ left.visited ++ right.visited, s.Fits value) →
      left.integral? value = some Text.minInt64 → right.integral? value = some (-1) →
      t.evaluate (whole value) ofDivision = .ok (.int 0)) ∧
    ∀ (before after : List (Tree α)) (op : Operator) (left right : Tree α),
      t.visited = before ++ binary op left right :: after →
      (∀ s ∈ before, s.Fits value) → op.Divides → right.integral? value = some 0 →
      t.evaluate (whole value) ofDivision = .error (ofDivision .byZero) := by
  refine ⟨evaluate_of_fits value ofDivision, ?_, ?_⟩
  · rintro left right rfl hfits hleft hright
    exact evaluate_rem_neg_one value ofDivision hfits hleft hright
  · intro before after op left right ht hbefore hop hzero
    exact evaluate_of_division value ofDivision ht hbefore hop hzero

/-- At the edge of the 64 bits: the least whole number is reached from the largest, it is
    divided by minus one for the remainder, and a division by zero comes before an overflow. -/
theorem evaluate_exact_edge :
    (binary .sub (neg (leaf Text.maxInt64)) (leaf 1)).evaluate (whole id) id =
        .ok (.int Text.minInt64) ∧
      (binary .rem (leaf Text.minInt64) (neg (leaf 1))).evaluate (whole id) id = .ok (.int 0) ∧
      (binary .add (binary .div (leaf 7) (binary .sub (leaf 2) (leaf 2)))
        (neg (leaf Text.minInt64))).evaluate (whole id) id = .error .byZero := by
  refine ⟨?_, ?_, ?_⟩
  · obtain ⟨n, hexact, heval⟩ := (evaluate_exact id (id : DivisionError → DivisionError)
      (binary .sub (neg (leaf Text.maxInt64)) (leaf 1))).1 (by decide)
    obtain rfl : Text.minInt64 = n := Option.some.inj hexact
    exact heval
  · exact (evaluate_exact id id _).2.1 (leaf Text.minInt64) (neg (leaf 1)) rfl (by decide) rfl rfl
  · exact (evaluate_exact id id _).2.2
      [leaf 7, leaf 2, leaf 2, binary .sub (leaf 2) (leaf 2)] _ .div _ _ rfl (by decide)
      (.inl rfl) rfl

end Infix.Tree

end DiceNotation
