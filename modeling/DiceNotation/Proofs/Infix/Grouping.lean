/-
  DiceNotation.Proofs.Infix.Grouping

  The tree that a row stands for.

  Of all trees with the operators and operands of a row in order, one groups them as
  precedence demands: the left side of an operator binds at least as strongly as the
  operator and the right side more strongly (`Tree.Ranked`), and a minus sign belongs
  to the operand that begins the row (`Tree.SignedFirst`). `Tree.ofInfix` gives this
  tree (`Tree.ofInfix_of_inorder`): while the row of a subtree is read, the stacks
  below stay as they are, and once it has been read, they come to the subtree on top
  of what was there (`Reading.Took`).

  Nothing here depends on how many precedences there are.
-/

import DiceNotation.Proofs.Infix.Row

namespace DiceNotation.Infix

variable {α : Type}

/-! ## Items as operators and operands -/

section

variable [Item α]

/-- An item as the operator that it is, or else as an operand. -/
def Item.sorted (i : α) : Operator ⊕ α :=
  match Item.operator? i with
  | some op => .inl op
  | none => .inr i

theorem Item.sorted_of_operator {i : α} {op : Operator} (h : Item.operator? i = some op) :
    Item.sorted i = .inl op := by
  simp only [Item.sorted, h]

theorem Item.sorted_of_operand {i : α} (h : Item.operator? i = none) :
    Item.sorted i = .inr i := by
  simp only [Item.sorted, h]

theorem Item.operator?_of_sorted_inl {i : α} {op : Operator} (h : Item.sorted i = .inl op) :
    Item.operator? i = some op := by
  unfold Item.sorted at h
  split at h
  · next heq => rw [heq, Sum.inl.inj h]
  · cases h

theorem Item.operator?_of_sorted_inr {i x : α} (h : Item.sorted i = .inr x) :
    Item.operator? i = none ∧ i = x := by
  unfold Item.sorted at h
  split at h
  · cases h
  · next heq => exact ⟨heq, Sum.inr.inj h⟩

end

namespace Tree

/-! ## Grouping -/

/-- The operators and operands of a tree from left to right; a negation is a minus sign
    before its operand. -/
def inorder : Tree α → List (Operator ⊕ α)
  | leaf x => [.inr x]
  | neg inner => .inl .sub :: inner.inorder
  | binary op left right => left.inorder ++ .inl op :: right.inorder

/-- Whether the operator at the top of a tree, if there is one, binds at least as strongly
    as a precedence. -/
def BindsFrom (p : Nat) (t : Tree α) : Prop := ∀ op, t.topOperator? = some op → p ≤ op.precedence

/-- Every operator stands above operands that bind strongly enough: on the left at least as
    strongly, on the right more strongly. -/
def Ranked : Tree α → Prop
  | leaf _ => True
  | neg inner => inner.Ranked
  | binary op left right =>
    left.BindsFrom op.precedence ∧ right.BindsFrom (op.precedence + 1) ∧ left.Ranked ∧ right.Ranked

/-- A tree without negations. -/
def Unsigned : Tree α → Prop
  | leaf _ => True
  | neg _ => False
  | binary _ left right => left.Unsigned ∧ right.Unsigned

/-- A tree without negations but of its first operand. -/
def SignedFirst : Tree α → Prop
  | leaf _ => True
  | neg inner => ∃ x, inner = leaf x
  | binary _ left right => left.SignedFirst ∧ right.Unsigned

theorem inorder_ne_nil (t : Tree α) : t.inorder ≠ [] := by
  cases t <;> simp [inorder]

theorem bindsFrom_leaf (p : Nat) (x : α) : (leaf x).BindsFrom p := nofun

theorem bindsFrom_binary {p : Nat} {op : Operator} {left right : Tree α} :
    (binary op left right).BindsFrom p ↔ p ≤ op.precedence := by
  constructor
  · intro h
    exact h op rfl
  · rintro h _ ⟨⟩
    exact h

theorem BindsFrom.of_le {p q : Nat} {t : Tree α} (h : t.BindsFrom q) (hpq : p ≤ q) :
    t.BindsFrom p := fun op hop => Nat.le_trans hpq (h op hop)

/-! ## Rows in parentheses -/

/-- An operand is put in parentheses where it does not bind strongly enough. -/
theorem needsGrouping_eq_false_iff {p : Nat} {right : Bool} {t : Tree α} :
    needsGrouping p right t = false ↔ t.BindsFrom (if right then p + 1 else p) := by
  unfold needsGrouping BindsFrom
  cases t.topOperator? with
  | none => simp
  | some op =>
    cases right with
    | true =>
      have hiff : (p ≤ op.precedence ∧ op.precedence ≠ p) ↔ p + 1 ≤ op.precedence := by omega
      simpa using hiff
    | false => simp

/-- A tree that is grouped by precedence is written without parentheses. -/
theorem Ranked.toInfix [Operand α] {t : Tree α} (h : t.Ranked) :
    t.toInfix = t.inorder.map (Sum.elim Operand.ofOperator id) := by
  induction t with
  | leaf x => rfl
  | neg inner ih =>
    have hbare : needsGrouping 0 false inner = false :=
      needsGrouping_eq_false_iff.mpr fun op _ => Nat.zero_le op.precedence
    simp [Tree.toInfix, inorder, hbare, grouped, ih h]
  | binary op left right ihl ihr =>
    obtain ⟨hleft, hright, hl, hr⟩ := h
    have hbareLeft : needsGrouping op.precedence false left = false :=
      needsGrouping_eq_false_iff.mpr hleft
    have hbareRight : needsGrouping op.precedence true right = false :=
      needsGrouping_eq_false_iff.mpr hright
    simp [Tree.toInfix, inorder, hbareLeft, hbareRight, grouped, ihl hl, ihr hr]

/-! ## Rows have trees -/

/-- A tree with one more operator and operand at the end. The operator takes from the right
    edge of the tree what binds at least as strongly. -/
def extend (op : Operator) (x : α) : Tree α → Tree α
  | binary top left right =>
    if top.precedence < op.precedence then binary top left (right.extend op x)
    else binary op (binary top left right) (leaf x)
  | t => binary op t (leaf x)

theorem inorder_extend (op : Operator) (x : α) (t : Tree α) :
    (t.extend op x).inorder = t.inorder ++ [.inl op, .inr x] := by
  induction t with
  | leaf y => rfl
  | neg inner ih => rfl
  | binary top left right ihl ihr =>
    rw [extend]
    split
    · simp [inorder, ihr]
    · rfl

/-- What binds at least as strongly as the new operator and the old tree, does so still. -/
theorem BindsFrom.extend {p : Nat} {op : Operator} {t : Tree α} (h : t.BindsFrom p)
    (hop : p ≤ op.precedence) (x : α) : (t.extend op x).BindsFrom p := by
  cases t with
  | leaf y => exact bindsFrom_binary.mpr hop
  | neg inner => exact bindsFrom_binary.mpr hop
  | binary top left right =>
    rw [Tree.extend]
    split
    · exact bindsFrom_binary.mpr (bindsFrom_binary.mp h)
    · exact bindsFrom_binary.mpr hop

theorem Ranked.extend {t : Tree α} (h : t.Ranked) (op : Operator) (x : α) :
    (t.extend op x).Ranked := by
  induction t with
  | leaf y => exact ⟨bindsFrom_leaf _ y, bindsFrom_leaf _ x, trivial, trivial⟩
  | neg inner ih => exact ⟨nofun, bindsFrom_leaf _ x, h, trivial⟩
  | binary top left right ihl ihr =>
    rw [Tree.extend]
    split
    · next hlt =>
      obtain ⟨hleft, hright, hl, hr⟩ := h
      exact ⟨hleft, hright.extend hlt x, hl, ihr hr⟩
    · next hle =>
      exact ⟨bindsFrom_binary.mpr (Nat.le_of_not_lt hle), bindsFrom_leaf _ x, h, trivial⟩

theorem Unsigned.extend {t : Tree α} (h : t.Unsigned) (op : Operator) (x : α) :
    (t.extend op x).Unsigned := by
  induction t with
  | leaf y => exact ⟨trivial, trivial⟩
  | neg inner ih => exact h.elim
  | binary top left right ihl ihr =>
    rw [Tree.extend]
    split
    · exact ⟨h.1, ihr h.2⟩
    · exact ⟨h, trivial⟩

theorem SignedFirst.extend {t : Tree α} (h : t.SignedFirst) (op : Operator) (x : α) :
    (t.extend op x).SignedFirst := by
  cases t with
  | leaf y => exact ⟨trivial, trivial⟩
  | neg inner => exact ⟨h, trivial⟩
  | binary top left right =>
    rw [Tree.extend]
    split
    · exact ⟨h.1, h.2.extend op x⟩
    · exact ⟨h, trivial⟩

variable [Item α]

/-- A tree goes on with a row of operators and operands. -/
theorem exists_ranked_append {rest : List α} (hrest : Alternates rest) {t : Tree α}
    (hranked : t.Ranked) (hsigned : t.SignedFirst) :
    ∃ t' : Tree α, t'.Ranked ∧ t'.SignedFirst ∧ t'.inorder = t.inorder ++ rest.map Item.sorted := by
  induction hrest generalizing t with
  | nil => exact ⟨t, hranked, hsigned, by simp⟩
  | @cons i x op rest hi hx hrest ih =>
    obtain ⟨t', hranked', hsigned', heq⟩ := ih (hranked.extend op x) (hsigned.extend op x)
    refine ⟨t', hranked', hsigned', ?_⟩
    rw [heq, inorder_extend]
    simp [Item.sorted_of_operator hi, Item.sorted_of_operand hx]

/-- Every row has a tree that is grouped by precedence. -/
theorem exists_ranked {items : List α} (h : IsRow items) :
    ∃ t : Tree α, t.Ranked ∧ t.SignedFirst ∧ t.inorder = items.map Item.sorted := by
  cases h with
  | @plain x rest hx hrest =>
    obtain ⟨t, hranked, hsigned, heq⟩ :=
      exists_ranked_append hrest (t := leaf x) trivial trivial
    refine ⟨t, hranked, hsigned, ?_⟩
    rw [heq, List.map_cons, Item.sorted_of_operand hx]
    rfl
  | @negated i x rest hi hx hrest =>
    obtain ⟨t, hranked, hsigned, heq⟩ :=
      exists_ranked_append hrest (t := neg (leaf x)) trivial ⟨x, rfl⟩
    refine ⟨t, hranked, hsigned, ?_⟩
    rw [heq, List.map_cons, List.map_cons, Item.sorted_of_operator hi, Item.sorted_of_operand hx]
    rfl

/-! ## Reading the row of a tree -/

omit [Item α] in
/-- Operators that bind less strongly stay on the stack. -/
theorem unwind_of_below {p : Nat} {s : Stacks α}
    (h : ∀ entry ∈ s.operators.head?, entry.1.precedence < p) :
    unwind p s.operands s.operators = .ok s := by
  obtain ⟨operands, operators⟩ := s
  cases operators with
  | nil => rfl
  | cons entry operators =>
    have hlt : entry.1.precedence < p := h entry rfl
    simp only [unwind, hlt, if_true]

namespace Reading

/-- Items are read in two parts. -/
theorem steps_append (r : Reading α) (index : Nat) (xs ys : List α) :
    r.steps index (xs ++ ys) =
      (r.steps index xs).bind fun r' => r'.steps (index + xs.length) ys := by
  induction xs generalizing r index with
  | nil => rfl
  | cons x xs ih =>
    simp only [List.cons_append, steps, List.length_cons]
    cases r.step index x with
    | error e => rfl
    | ok r' =>
      have hindex : index + (xs.length + 1) = index + 1 + xs.length := by omega
      rw [hindex]
      exact ih r' (index + 1)

/-- A reading has taken a tree on top of stacks: an operator that does not bind more
    strongly than the tree finds what it would find with the tree itself there. -/
structure Took (t : Tree α) (s : Stacks α) (r : Reading α) : Prop where
  expecting : r.expecting = false
  negate : r.negate = false
  unwound : ∀ p, t.BindsFrom p →
    unwind p r.held.operands r.held.operators = unwind p (t :: s.operands) s.operators

/-- The row of a tree is read on top of stacks as the tree. -/
def Takes (t : Tree α) : Prop :=
  ∀ (s : Stacks α) (index : Nat) (items : List α), items.map Item.sorted = t.inorder →
    (∀ entry ∈ s.operators.head?, t.BindsFrom (entry.1.precedence + 1)) →
      ∃ r, Took t s r ∧ (⟨s, true, false⟩ : Reading α).steps index items = .ok r

variable {s : Stacks α} {r : Reading α}

omit [Item α] in
theorem took_top (t : Tree α) (s : Stacks α) :
    Took t s ⟨⟨t :: s.operands, s.operators⟩, false, false⟩ := ⟨rfl, rfl, fun _ _ => rfl⟩

/-- After the left side of an operator come the operator and its right side. -/
theorem Took.binary {op : Operator} {left right : Tree α} (h : Took left s r)
    (hleft : left.BindsFrom op.precedence) (hright : right.BindsFrom (op.precedence + 1))
    (htakes : Takes right) (hbelow : ∀ entry ∈ s.operators.head?, entry.1.precedence < op.precedence)
    {i : α} (hi : Item.operator? i = some op) {index : Nat} (hindex : index ≠ 0) {items : List α}
    (hitems : items.map Item.sorted = right.inorder) :
    ∃ r', Took (Tree.binary op left right) s r' ∧ r.steps index (i :: items) = .ok r' := by
  -- the operator finds the left side on top, and leaves it there
  have hunwind : unwind op.precedence r.held.operands r.held.operators =
      .ok ⟨left :: s.operands, s.operators⟩ := by
    rw [h.unwound op.precedence hleft]
    exact unwind_of_below (s := ⟨left :: s.operands, s.operators⟩) hbelow
  have hstep : r.step index i =
      .ok ⟨⟨left :: s.operands, (op, index) :: s.operators⟩, true, false⟩ := by
    have hnonzero : (index == 0 && op == .sub) = false := by simp [hindex]
    simp only [step, hi, hnonzero, h.expecting, h.negate, Bool.false_eq_true, if_false, hunwind]
    rfl
  obtain ⟨r', htook, hsteps⟩ := htakes ⟨left :: s.operands, (op, index) :: s.operators⟩ (index + 1)
    items hitems (by simpa using hright)
  refine ⟨r', ⟨htook.expecting, htook.negate, fun p hp => ?_⟩, ?_⟩
  · -- whatever binds no more strongly than the operator combines it first
    have hle : p ≤ op.precedence := bindsFrom_binary.mp hp
    have hnot : ¬ op.precedence < p := Nat.not_lt.mpr hle
    rw [htook.unwound p (hright.of_le (by omega))]
    simp only [unwind, hnot, if_false]
  · rw [steps, hstep]
    exact hsteps

/-- The row of a tree without negations is read as the tree. -/
theorem takes_of_unsigned {t : Tree α} (hranked : t.Ranked) (hunsigned : t.Unsigned) :
    Takes t := by
  induction t with
  | leaf x =>
    intro s index items hitems _
    obtain ⟨i, rest, rfl, hi, hrest⟩ := List.map_eq_cons_iff.mp hitems
    obtain rfl := List.map_eq_nil_iff.mp hrest
    obtain ⟨hoperand, rfl⟩ := Item.operator?_of_sorted_inr hi
    refine ⟨_, took_top (leaf i) s, ?_⟩
    simp only [steps, step, hoperand, if_true, Bool.false_eq_true, if_false]
    rfl
  | neg inner ih => exact hunsigned.elim
  | binary op left right ihl ihr =>
    intro s index items hitems hbelow
    obtain ⟨hleft, hright, hrankedLeft, hrankedRight⟩ := hranked
    obtain ⟨xs, ys, rfl, hxs, hys⟩ := List.map_eq_append_iff.mp hitems
    obtain ⟨i, ys, rfl, hi, hys⟩ := List.map_eq_cons_iff.mp hys
    have hlt : ∀ entry ∈ s.operators.head?, entry.1.precedence < op.precedence :=
      fun entry hentry => bindsFrom_binary.mp (hbelow entry hentry)
    have hleftBelow : ∀ entry ∈ s.operators.head?, left.BindsFrom (entry.1.precedence + 1) :=
      fun entry hentry => hleft.of_le (hlt entry hentry)
    obtain ⟨r₁, htook₁, hsteps₁⟩ := ihl hrankedLeft hunsigned.1 s index xs hxs hleftBelow
    have hnonempty : index + xs.length ≠ 0 := by
      have hxs' : xs ≠ [] := fun hnil => left.inorder_ne_nil (by simp [← hxs, hnil])
      have := List.length_pos_iff.mpr hxs'
      omega
    obtain ⟨r₂, htook₂, hsteps₂⟩ := htook₁.binary hleft hright (ihr hrankedRight hunsigned.2) hlt
      (Item.operator?_of_sorted_inl hi) hnonempty hys
    refine ⟨r₂, htook₂, ?_⟩
    rw [steps_append, hsteps₁]
    exact hsteps₂

/-- The row of a tree that begins with a sign at most is read as the tree. -/
theorem took_of_signedFirst {t : Tree α} (hranked : t.Ranked) (hsigned : t.SignedFirst)
    {items : List α} (hitems : items.map Item.sorted = t.inorder) :
    ∃ r, Took t ⟨[], []⟩ r ∧ start.steps 0 items = .ok r := by
  induction t generalizing items with
  | leaf x => exact takes_of_unsigned hranked trivial ⟨[], []⟩ 0 items hitems (by simp)
  | neg inner ih =>
    obtain ⟨x, rfl⟩ := hsigned
    obtain ⟨i, rest, rfl, hi, hrest⟩ := List.map_eq_cons_iff.mp hitems
    obtain ⟨y, rest, rfl, hy, hrest⟩ := List.map_eq_cons_iff.mp hrest
    obtain rfl := List.map_eq_nil_iff.mp hrest
    obtain ⟨hoperand, rfl⟩ := Item.operator?_of_sorted_inr hy
    have hsign := Item.operator?_of_sorted_inl hi
    refine ⟨_, took_top (neg (leaf y)) ⟨[], []⟩, ?_⟩
    simp only [steps, start, step, hsign, hoperand]
    rfl
  | binary op left right ihl ihr =>
    obtain ⟨hleft, hright, hrankedLeft, hrankedRight⟩ := hranked
    obtain ⟨xs, ys, rfl, hxs, hys⟩ := List.map_eq_append_iff.mp hitems
    obtain ⟨i, ys, rfl, hi, hys⟩ := List.map_eq_cons_iff.mp hys
    obtain ⟨r₁, htook₁, hsteps₁⟩ := ihl hrankedLeft hsigned.1 hxs
    have hnonempty : 0 + xs.length ≠ 0 := by
      have hxs' : xs ≠ [] := fun hnil => left.inorder_ne_nil (by simp [← hxs, hnil])
      have := List.length_pos_iff.mpr hxs'
      omega
    obtain ⟨r₂, htook₂, hsteps₂⟩ := htook₁.binary hleft hright
      (takes_of_unsigned hrankedRight hsigned.2) (by simp) (Item.operator?_of_sorted_inl hi)
      hnonempty hys
    refine ⟨r₂, htook₂, ?_⟩
    rw [steps_append, hsteps₁]
    exact hsteps₂

end Reading

/-- A tree that is grouped by precedence is the one of the row of its operators and
    operands. -/
theorem ofInfix_of_inorder {t : Tree α} (hranked : t.Ranked) (hsigned : t.SignedFirst)
    {items : List α} (hitems : items.map Item.sorted = t.inorder) : ofInfix items = .ok t := by
  obtain ⟨r, htook, hsteps⟩ := Reading.took_of_signedFirst hranked hsigned hitems
  have hunwound : unwind 0 r.held.operands r.held.operators = .ok ⟨[t], []⟩ :=
    htook.unwound 0 fun op _ => Nat.zero_le op.precedence
  rw [ofInfix, hsteps]
  show r.finish (items.length - 1) = .ok t
  simp only [Reading.finish, htook.expecting, Bool.false_eq_true, if_false, hunwound]
  rfl

end Tree

end DiceNotation.Infix
