/-
  DiceNotation.Proofs.Infix.Row

  The trees of rows in which operators and operands alternate.

  `Row.total` is what such a row comes to, without stacks and without trees: the
  sum so far and the product under way are held, and each operator of the row goes
  on with one of them. `Tree.ofInfix` gives a tree for every row (`IsRow`), and the
  value of the tree is the total of the row (`Tree.ofInfix_row`).
-/

import DiceNotation.Infix.Tree

namespace DiceNotation.Infix

/-! ## Totals of rows -/

namespace Row

/-- The sum that is held, completed by a product. -/
def close (held : Option (Number × Operator)) (product : Number) : Option Number :=
  match held with
  | none => some product
  | some (sum, op) => (sum.apply op product).toOption

/-- The total of a row of which the sum so far is held with the operator behind it and
    `product` is under way. Sums and products both go from left to right. -/
def total (held : Option (Number × Operator)) (product : Number) :
    List (Operator × Number) → Option Number
  | [] => close held product
  | (op, n) :: rest =>
    if op.isAdditive then do
      let sum ← close held product
      total (some (sum, op)) n rest
    else do
      let product ← (product.apply op n).toOption
      total held product rest

end Row

variable {α β : Type}

section

variable [Item α]

/-- Operators and operands in turns, an operator first. -/
inductive Alternates : List α → Prop where
  | nil : Alternates []
  | cons {i x : α} {op : Operator} {rest : List α} (hi : Item.operator? i = some op)
      (hx : Item.operator? x = none) (hrest : Alternates rest) : Alternates (i :: x :: rest)

/-- Rows of operands and operators, with a minus sign before them at most. -/
inductive IsRow : List α → Prop where
  | plain {x : α} {rest : List α} (hx : Item.operator? x = none) (hrest : Alternates rest) :
      IsRow (x :: rest)
  | negated {i x : α} {rest : List α} (hi : Item.operator? i = some .sub)
      (hx : Item.operator? x = none) (hrest : Alternates rest) : IsRow (i :: x :: rest)

/-- The operators of a row, each with the value of the operand behind it. -/
def pairs? (valueOf : α → Option β) : List α → Option (List (Operator × β))
  | [] => some []
  | i :: x :: rest => do
    let op ← Item.operator? i
    let value ← valueOf x
    let more ← pairs? valueOf rest
    return (op, value) :: more
  | [_] => none

/-- The total of a row, where `valueOf` gives the value of an operand. -/
def Row.value? (valueOf : α → Option Number) : List α → Option Number
  | [] => none
  | x :: rest =>
    match Item.operator? x, rest with
    | none, rest => do
      let n ← valueOf x
      let ps ← pairs? valueOf rest
      Row.total none n ps
    | some .sub, y :: rest => do
      let n ← valueOf y
      let ps ← pairs? valueOf rest
      Row.total none n.neg ps
    | _, _ => none

theorem Row.value?_plain (valueOf : α → Option Number) {x : α} (rest : List α)
    (hx : Item.operator? x = none) :
    Row.value? valueOf (x :: rest) = (do
      let n ← valueOf x
      let ps ← pairs? valueOf rest
      Row.total none n ps) := by
  cases rest <;> simp [Row.value?, hx]

theorem Row.value?_negated (valueOf : α → Option Number) {i : α} (x : α) (rest : List α)
    (hi : Item.operator? i = some .sub) :
    Row.value? valueOf (i :: x :: rest) = (do
      let n ← valueOf x
      let ps ← pairs? valueOf rest
      Row.total none n.neg ps) := by
  simp [Row.value?, hi]

/-! ## Rows whose operands are replaced -/

theorem Alternates.of_operators {items items' : List α} (h : Alternates items)
    (heq : items'.map Item.operator? = items.map Item.operator?) : Alternates items' := by
  induction h generalizing items' with
  | nil =>
    obtain rfl := List.map_eq_nil_iff.mp heq
    exact .nil
  | cons hi hx hrest ih =>
    obtain ⟨i', _, rfl, hi', htail⟩ := List.map_eq_cons_iff.mp heq
    obtain ⟨x', rest', rfl, hx', hrest'⟩ := List.map_eq_cons_iff.mp htail
    exact .cons (hi'.trans hi) (hx'.trans hx) (ih hrest')

/-- What has the operators of a row where the row has them is a row. -/
theorem IsRow.of_operators {items items' : List α} (h : IsRow items)
    (heq : items'.map Item.operator? = items.map Item.operator?) : IsRow items' := by
  cases h with
  | plain hx hrest =>
    obtain ⟨x', rest', rfl, hx', hrest'⟩ := List.map_eq_cons_iff.mp heq
    exact .plain (hx'.trans hx) (hrest.of_operators hrest')
  | negated hi hx hrest =>
    obtain ⟨i', _, rfl, hi', htail⟩ := List.map_eq_cons_iff.mp heq
    obtain ⟨x', rest', rfl, hx', hrest'⟩ := List.map_eq_cons_iff.mp htail
    exact .negated (hi'.trans hi) (hx'.trans hx) (hrest.of_operators hrest')

theorem mapM_cons_eq_some {α β : Type} {g : α → Option β} {a : α} {as : List α} {bs : List β} :
    (a :: as).mapM g = some bs ↔
      ∃ b bs', g a = some b ∧ as.mapM g = some bs' ∧ bs = b :: bs' := by
  rw [List.mapM_cons]
  cases g a <;> cases as.mapM g <;> simp [eq_comm]

section

variable {g : α → Option α} {items : List α}
  (hkeeps : ∀ a b, g a = some b → Item.operator? b = Item.operator? a)

theorem pairs?_mapM (hoperator : ∀ a op, Item.operator? a = some op → g a = some a)
    (valueOf : α → Option β) (h : Alternates items) :
    (items.mapM g).bind (pairs? valueOf) = pairs? (fun a => (g a).bind valueOf) items := by
  induction h with
  | nil => rfl
  | @cons i x op rest hi hx hrest ih =>
    rw [List.mapM_cons, List.mapM_cons, hoperator i op hi, pairs?, hi, ← ih]
    cases g x with
    | none => rfl
    | some y =>
      cases rest.mapM g with
      | none =>
        show none = (valueOf y).bind fun _ => none
        cases valueOf y <;> rfl
      | some ys =>
        show pairs? valueOf (i :: y :: ys) = _
        rw [pairs?, hi]
        rfl

include hkeeps

/-- A row whose operands are replaced is a row. -/
theorem IsRow.of_mapM {items' : List α} (h : IsRow items) (hitems' : items.mapM g = some items') :
    IsRow items' := by
  refine h.of_operators ?_
  clear h
  induction items generalizing items' with
  | nil =>
    cases hitems'
    rfl
  | cons a rest ih =>
    obtain ⟨b, bs, hb, hbs, rfl⟩ := mapM_cons_eq_some.mp hitems'
    rw [List.map_cons, List.map_cons, hkeeps a b hb, ih hbs]

/-- The total of a row whose operands are replaced. -/
theorem Row.value?_mapM (hoperator : ∀ a op, Item.operator? a = some op → g a = some a)
    (valueOf : α → Option Number) (h : IsRow items) :
    (items.mapM g).bind (Row.value? valueOf) =
      Row.value? (fun a => (g a).bind valueOf) items := by
  cases h with
  | @plain x rest hx hrest =>
    rw [List.mapM_cons, Row.value?_plain _ _ hx, ← pairs?_mapM hoperator valueOf hrest]
    cases hg : g x with
    | none => rfl
    | some y =>
      cases rest.mapM g with
      | none =>
        show none = (valueOf y).bind fun _ => none
        cases valueOf y <;> rfl
      | some ys => exact Row.value?_plain valueOf ys ((hkeeps x y hg).trans hx)
  | @negated i x rest hi hx hrest =>
    rw [List.mapM_cons, List.mapM_cons, hoperator i _ hi, Row.value?_negated _ _ _ hi,
      ← pairs?_mapM hoperator valueOf hrest]
    cases g x with
    | none => rfl
    | some y =>
      cases rest.mapM g with
      | none =>
        show none = (valueOf y).bind fun _ => none
        cases valueOf y <;> rfl
      | some ys => exact Row.value?_negated valueOf y ys hi

end

end

namespace Tree

/-! ## Stacks -/

/-- The tree of the sum that is held, completed by that of a product. -/
def close (held : Option (Tree α × Operator)) (product : Tree α) : Tree α :=
  match held with
  | none => product
  | some (sum, op) => binary op sum product

/-- The tree of a row, of which the tree of the sum so far is held and that of a product
    is under way. -/
def grow [Item α] (held : Option (Tree α × Operator)) (product : Tree α) : List α → Tree α
  | i :: x :: rest =>
    match Item.operator? i with
    | some op =>
      if op.isAdditive then grow (some (close held product, op)) (leaf x) rest
      else grow held (binary op product (leaf x)) rest
    | none => close held product
  | _ => close held product

/-- The stacks that hold a sum and a product. -/
def stacksOf (held : Option (Tree α × Operator)) (index : Nat) (product : Tree α) : Stacks α :=
  match held with
  | none => ⟨[product], []⟩
  | some (sum, op) => ⟨[product, sum], [(op, index)]⟩

theorem precedence_of_additive {op : Operator} (h : op.isAdditive = true) :
    op.precedence = 10 := by
  cases op <;> first | rfl | exact absurd h (by decide)

theorem precedence_of_not_additive {op : Operator} (h : op.isAdditive = false) :
    op.precedence = 20 := by
  cases op <;> first | rfl | exact absurd h (by decide)

/-- What binds strongly may be combined first. -/
theorem unwind_of_le {p q : Nat} (h : p ≤ q) {operands : List (Tree α)}
    {operators : List (Operator × Nat)} {s : Stacks α}
    (hq : unwind q operands operators = .ok s) :
    unwind p operands operators = unwind p s.operands s.operators := by
  induction operators generalizing operands with
  | nil =>
    simp only [unwind] at hq
    cases hq
    rfl
  | cons entry operators ih =>
    obtain ⟨top, index⟩ := entry
    by_cases htop : top.precedence < q
    · simp only [unwind, htop, if_true] at hq
      cases hq
      rfl
    · have htop' : ¬ top.precedence < p := by omega
      obtain _ | ⟨right, _ | ⟨left, operands⟩⟩ := operands
      · simp [unwind, htop] at hq
      · simp [unwind, htop] at hq
      · simp only [unwind, htop, if_false] at hq
        rw [unwind]
        simp only [htop', if_false]
        exact ih hq

theorem unwind_stacksOf {p : Nat} (hp : p ≤ 10) (held : Option (Tree α × Operator)) (index : Nat)
    (product : Tree α) (hheld : ∀ sum op, held = some (sum, op) → op.isAdditive = true) :
    unwind p (stacksOf held index product).operands (stacksOf held index product).operators =
      .ok ⟨[close held product], []⟩ := by
  cases held with
  | none => rfl
  | some entry =>
    obtain ⟨sum, op⟩ := entry
    have hop := precedence_of_additive (hheld sum op rfl)
    have hlt : ¬ op.precedence < p := by omega
    simp [stacksOf, unwind, hlt, close]

/-- A reading after an operand, whose stacks come to a sum and a product. -/
structure Reading.Holds (r : Reading α) (held : Option (Tree α × Operator))
    (product : Tree α) : Prop where
  expecting : r.expecting = false
  negate : r.negate = false
  unwound : ∃ index, unwind 20 r.held.operands r.held.operators = .ok (stacksOf held index product)
  additive : ∀ sum op, held = some (sum, op) → op.isAdditive = true

namespace Reading

variable {r : Reading α} {held : Option (Tree α × Operator)} {p : Tree α}

theorem Holds.unwind_of_le (h : r.Holds held p) {n : Nat} (hn : n ≤ 10) :
    unwind n r.held.operands r.held.operators = .ok ⟨[close held p], []⟩ := by
  obtain ⟨index, hunwound⟩ := h.unwound
  rw [Tree.unwind_of_le (show n ≤ 20 by omega) hunwound]
  exact unwind_stacksOf hn held index p h.additive

theorem Holds.finish (h : r.Holds held p) (last : Nat) :
    r.finish last = .ok (close held p) := by
  simp only [Reading.finish, h.expecting, Bool.false_eq_true, if_false]
  rw [h.unwind_of_le (Nat.zero_le 10)]
  rfl

variable [Item α]

/-- An operator that binds more strongly than the stacks of `held` goes on with the product. -/
theorem Holds.product (h : r.Holds held p) {index : Nat} (hindex : index ≠ 0) {i x : α}
    {op : Operator} (hi : Item.operator? i = some op) (hx : Item.operator? x = none)
    (hop : op.isAdditive = false) (rest : List α) :
    ∃ r' : Reading α, r'.Holds held (binary op p (leaf x)) ∧
      r.steps index (i :: x :: rest) = r'.steps (index + 1 + 1) rest := by
  obtain ⟨i₀, hunwound⟩ := h.unwound
  have hprecedence := precedence_of_not_additive hop
  have hunwind : unwind op.precedence r.held.operands r.held.operators =
      .ok (stacksOf held i₀ p) := by rw [hprecedence, hunwound]
  refine ⟨⟨⟨leaf x :: (stacksOf held i₀ p).operands,
    (op, index) :: (stacksOf held i₀ p).operators⟩, false, false⟩, ⟨rfl, rfl, ⟨i₀, ?_⟩,
      h.additive⟩, ?_⟩
  · cases hheld : held with
    | none => simp [stacksOf, unwind, hprecedence]
    | some entry =>
      obtain ⟨sum, op'⟩ := entry
      have hop' := precedence_of_additive (h.additive sum op' hheld)
      simp [stacksOf, unwind, hprecedence, hop']
  · have hstep : r.step index i = .ok ⟨⟨(stacksOf held i₀ p).operands,
        (op, index) :: (stacksOf held i₀ p).operators⟩, true, false⟩ := by
      have hnonzero : (index == 0 && op == .sub) = false := by simp [hindex]
      simp only [step, hi, hnonzero, h.expecting, h.negate, Bool.false_eq_true, if_false]
      rw [hunwind]
      rfl
    rw [steps, hstep]
    simp only [steps, step, hx]
    rfl

/-- An operator that binds no more strongly completes the sum. -/
theorem Holds.sum (h : r.Holds held p) {index : Nat} (hindex : index ≠ 0) {i x : α}
    {op : Operator} (hi : Item.operator? i = some op) (hx : Item.operator? x = none)
    (hop : op.isAdditive = true) (rest : List α) :
    ∃ r' : Reading α, r'.Holds (some (close held p, op)) (leaf x) ∧
      r.steps index (i :: x :: rest) = r'.steps (index + 1 + 1) rest := by
  have hprecedence := precedence_of_additive hop
  have hunwind := h.unwind_of_le (show op.precedence ≤ 10 by omega)
  refine ⟨⟨⟨[leaf x, close held p], [(op, index)]⟩, false, false⟩, ⟨rfl, rfl, ⟨index, ?_⟩,
    ?_⟩, ?_⟩
  · simp [stacksOf, unwind, hprecedence]
  · intro sum op' heq
    cases heq
    exact hop
  · have hstep : r.step index i =
        .ok ⟨⟨[close held p], [(op, index)]⟩, true, false⟩ := by
      have hnonzero : (index == 0 && op == .sub) = false := by simp [hindex]
      simp only [step, hi, hnonzero, h.expecting, h.negate, Bool.false_eq_true, if_false]
      rw [hunwind]
      rfl
    rw [steps, hstep]
    simp only [steps, step, hx]
    rfl

/-- A reading goes on with a row that alternates up to the tree that grows from it. -/
theorem Holds.steps (h : r.Holds held p) {items : List α} (hitems : Alternates items)
    {index : Nat} (hindex : index ≠ 0) :
    ∃ r' : Reading α, r.steps index items = .ok r' ∧
      ∀ last, r'.finish last = .ok (grow held p items) := by
  induction hitems generalizing r held p index with
  | nil => exact ⟨r, rfl, h.finish⟩
  | @cons i x op rest hi hx hrest ih =>
    cases hop : op.isAdditive with
    | false =>
      obtain ⟨r₁, hr₁, hsteps⟩ := h.product hindex hi hx hop rest
      simp only [hsteps, grow, hi, hop, Bool.false_eq_true, if_false]
      exact ih hr₁ (by omega)
    | true =>
      obtain ⟨r₁, hr₁, hsteps⟩ := h.sum hindex hi hx hop rest
      simp only [hsteps, grow, hi, hop, if_true]
      exact ih hr₁ (by omega)

end Reading

/-! ## Values -/

section

variable {ε : Type} (valueOf : α → Except ε Number) (ofDivision : DivisionError → ε)

/-- The value of a tree, if it has one. -/
def value? (t : Tree α) : Option Number := (t.evaluate valueOf ofDivision).toOption

/-- The sum that is held, if it has a value. -/
def heldValue? : Option (Tree α × Operator) → Option (Option (Number × Operator))
  | none => some none
  | some (sum, op) => (sum.value? valueOf ofDivision).map fun n => some (n, op)

theorem value?_binary (op : Operator) (l r : Tree α) :
    (binary op l r).value? valueOf ofDivision = (do
      let m ← l.value? valueOf ofDivision
      let n ← r.value? valueOf ofDivision
      (m.apply op n).toOption) := by
  simp only [value?, evaluate]
  cases l.evaluate valueOf ofDivision with
  | error e => rfl
  | ok m =>
    cases r.evaluate valueOf ofDivision with
    | error e => rfl
    | ok n =>
      show ((m.apply op n).mapError ofDivision).toOption = (m.apply op n).toOption
      cases m.apply op n <;> rfl

theorem value?_close (held : Option (Tree α × Operator)) (product : Tree α) :
    (close held product).value? valueOf ofDivision = (do
      let sum ← heldValue? valueOf ofDivision held
      let n ← product.value? valueOf ofDivision
      Row.close sum n) := by
  cases held with
  | none => simp [close, heldValue?, Row.close]
  | some entry =>
    obtain ⟨sum, op⟩ := entry
    rw [close, value?_binary, heldValue?]
    cases sum.value? valueOf ofDivision <;> rfl

/-- The tree that grows from a row has the total of the row. -/
theorem value?_grow [Item α] {items : List α} (hitems : Alternates items)
    (held : Option (Tree α × Operator)) (product : Tree α) :
    (grow held product items).value? valueOf ofDivision = (do
      let sum ← heldValue? valueOf ofDivision held
      let n ← product.value? valueOf ofDivision
      let ps ← pairs? (fun x => (valueOf x).toOption) items
      Row.total sum n ps) := by
  induction hitems generalizing held product with
  | nil => simpa [grow, pairs?, Row.total] using value?_close valueOf ofDivision held product
  | @cons i x op rest hi hx hrest ih =>
    have hleaf : (leaf x).value? valueOf ofDivision = (valueOf x).toOption := rfl
    cases hop : op.isAdditive with
    | false =>
      simp only [grow, hi, hop, Bool.false_eq_true, if_false, ih, value?_binary, hleaf, pairs?]
      cases heldValue? valueOf ofDivision held <;> cases product.value? valueOf ofDivision <;>
        cases (valueOf x).toOption <;>
          cases pairs? (fun x => (valueOf x).toOption) rest <;>
            simp [Row.total, hop]
    | true =>
      simp only [grow, hi, hop, if_true, ih, hleaf, pairs?]
      rw [heldValue?, value?_close]
      cases heldValue? valueOf ofDivision held with
      | none => rfl
      | some sum =>
        cases product.value? valueOf ofDivision with
        | none => rfl
        | some n =>
          cases hsum : Row.close sum n <;> cases (valueOf x).toOption <;>
            cases pairs? (fun x => (valueOf x).toOption) rest <;>
              simp [Row.total, hop, hsum]

end

variable [Item α]

/-- A row that begins with an operand has a tree that grows from it. -/
theorem ofInfix_plain {x : α} {rest : List α} (hx : Item.operator? x = none)
    (hrest : Alternates rest) : ofInfix (x :: rest) = .ok (grow none (leaf x) rest) := by
  have hfirst : (⟨⟨[leaf x], []⟩, false, false⟩ : Reading α).Holds none (leaf x) :=
    ⟨rfl, rfl, ⟨0, rfl⟩, fun _ _ h => nomatch h⟩
  have hstep : Reading.start.step 0 x = .ok ⟨⟨[leaf x], []⟩, false, false⟩ := by
    simp [Reading.step, hx, Reading.start]
  obtain ⟨r, hsteps, hfinish⟩ := hfirst.steps hrest (show 1 ≠ 0 by decide)
  rw [ofInfix, Reading.steps, hstep]
  show (Reading.steps _ 1 rest >>= fun r => r.finish _) = _
  rw [hsteps]
  exact hfinish _

/-- A row that begins with a minus sign has a tree that grows from its first operand,
    negated. -/
theorem ofInfix_negated {i x : α} {rest : List α} (hi : Item.operator? i = some .sub)
    (hx : Item.operator? x = none) (hrest : Alternates rest) :
    ofInfix (i :: x :: rest) = .ok (grow none (neg (leaf x)) rest) := by
  have hfirst : (⟨⟨[neg (leaf x)], []⟩, false, false⟩ : Reading α).Holds none (neg (leaf x)) :=
    ⟨rfl, rfl, ⟨0, rfl⟩, fun _ _ h => nomatch h⟩
  have hsign : Reading.start.step 0 i = .ok ⟨⟨([] : List (Tree α)), []⟩, true, true⟩ := by
    simp [Reading.step, hi, Reading.start]
  have hstep : (⟨⟨[], []⟩, true, true⟩ : Reading α).step 1 x =
      .ok ⟨⟨[neg (leaf x)], []⟩, false, false⟩ := by
    simp [Reading.step, hx]
  obtain ⟨r, hsteps, hfinish⟩ := hfirst.steps hrest (show 2 ≠ 0 by decide)
  rw [ofInfix, Reading.steps, hsign]
  show (Reading.steps _ 1 (x :: rest) >>= fun r => r.finish _) = _
  rw [Reading.steps, hstep]
  show (Reading.steps _ 2 rest >>= fun r => r.finish _) = _
  rw [hsteps]
  exact hfinish _

/-- Every row has a tree, whose value is the total of the row. -/
theorem ofInfix_row {items : List α} (h : IsRow items) :
    ∃ tree, ofInfix items = .ok tree ∧
      ∀ {ε : Type} (valueOf : α → Except ε Number) (ofDivision : DivisionError → ε),
        tree.value? valueOf ofDivision = Row.value? (fun x => (valueOf x).toOption) items := by
  cases h with
  | plain hx hrest =>
    refine ⟨_, ofInfix_plain hx hrest, fun valueOf ofDivision => ?_⟩
    rw [value?_grow valueOf ofDivision hrest, Row.value?_plain _ _ hx]
    rfl
  | @negated i x rest hi hx hrest =>
    refine ⟨_, ofInfix_negated hi hx hrest, fun valueOf ofDivision => ?_⟩
    have hneg : (neg (leaf x)).value? valueOf ofDivision =
        (valueOf x).toOption.map Number.neg := by
      simp only [value?, evaluate]
      cases valueOf x <;> rfl
    rw [value?_grow valueOf ofDivision hrest, Row.value?_negated _ _ _ hi, hneg]
    cases (valueOf x).toOption <;> rfl

/-! ## Operands of trees -/

/-- What holds of all operands of a tree. -/
def All (p : α → Prop) : Tree α → Prop
  | leaf x => p x
  | neg inner => inner.All p
  | binary _ left right => left.All p ∧ right.All p

omit [Item α] in
theorem All.close {p : α → Prop} {held : Option (Tree α × Operator)} {product : Tree α}
    (hheld : ∀ sum op, held = some (sum, op) → sum.All p) (hproduct : product.All p) :
    (close held product).All p := by
  cases held with
  | none => exact hproduct
  | some entry => exact ⟨hheld entry.1 entry.2 rfl, hproduct⟩

/-- The operands of a tree that grows from a row are those of the row. -/
theorem All.grow {p : α → Prop} {items : List α} (hitems : Alternates items)
    (hp : ∀ x ∈ items, Item.operator? x = none → p x) {held : Option (Tree α × Operator)}
    {product : Tree α} (hheld : ∀ sum op, held = some (sum, op) → sum.All p)
    (hproduct : product.All p) : (grow held product items).All p := by
  induction hitems generalizing held product with
  | nil => exact All.close hheld hproduct
  | @cons i x op rest hi hx hrest ih =>
    have hleaf : p x := hp x (by simp) hx
    have hmore : ∀ y ∈ rest, Item.operator? y = none → p y := fun y hy =>
      hp y (List.mem_cons_of_mem _ (List.mem_cons_of_mem _ hy))
    cases hop : op.isAdditive with
    | true =>
      simp only [Tree.grow, hi, hop, if_true]
      refine ih hmore ?_ hleaf
      intro sum op' heq
      cases heq
      exact All.close hheld hproduct
    | false =>
      simp only [Tree.grow, hi, hop, Bool.false_eq_true, if_false]
      exact ih hmore hheld ⟨hproduct, hleaf⟩

/-- Every row has a tree of its operands. -/
theorem ofInfix_all {p : α → Prop} {items : List α} (h : IsRow items)
    (hp : ∀ x ∈ items, Item.operator? x = none → p x) :
    ∃ tree, ofInfix items = .ok tree ∧ tree.All p := by
  cases h with
  | @plain x rest hx hrest =>
    have hmore : ∀ y ∈ rest, Item.operator? y = none → p y := fun y hy =>
      hp y (List.mem_cons_of_mem _ hy)
    exact ⟨_, ofInfix_plain hx hrest, All.grow hrest hmore nofun (hp x List.mem_cons_self hx)⟩
  | @negated i x rest hi hx hrest =>
    have hmore : ∀ y ∈ rest, Item.operator? y = none → p y := fun y hy =>
      hp y (List.mem_cons_of_mem _ (List.mem_cons_of_mem _ hy))
    exact ⟨_, ofInfix_negated hi hx hrest, All.grow hrest hmore nofun (hp x (by simp) hx)⟩

omit [Item α] in
/-- A tree whose operands have values fails with a division at most. -/
theorem All.evaluate {ε : Type} {valueOf : α → Except ε Number} {t : Tree α}
    (h : t.All fun x => ∃ n, valueOf x = .ok n) (ofDivision : DivisionError → ε) :
    ∀ e, t.evaluate valueOf ofDivision = .error e → ∃ d, e = ofDivision d := by
  induction t with
  | leaf x =>
    obtain ⟨n, hn⟩ := h
    intro e he
    rw [Tree.evaluate, hn] at he
    cases he
  | neg inner ih =>
    intro e he
    rw [Tree.evaluate] at he
    cases hinner : inner.evaluate valueOf ofDivision with
    | ok n =>
      rw [hinner] at he
      cases he
    | error e' =>
      rw [hinner] at he
      cases he
      exact ih h e hinner
  | binary op left right ihl ihr =>
    intro e he
    rw [Tree.evaluate] at he
    cases hleft : left.evaluate valueOf ofDivision with
    | error e' =>
      rw [hleft] at he
      cases he
      exact ihl h.1 e hleft
    | ok l =>
      cases hright : right.evaluate valueOf ofDivision with
      | error e' =>
        rw [hleft, hright] at he
        cases he
        exact ihr h.2 e hright
      | ok r =>
        rw [hleft, hright] at he
        replace he : (l.apply op r).mapError ofDivision = .error e := he
        cases hop : l.apply op r with
        | ok n =>
          rw [hop] at he
          cases he
        | error d =>
          rw [hop] at he
          cases he
          exact ⟨d, rfl⟩

end Tree

end DiceNotation.Infix
