/-
  DiceNotation.Proofs.Infix.Rereading

  Trees that are written as rows and read again.

  A row that is put in parentheses is one operand, which stands for the tree of its
  own row. `Entry` keeps such operands apart from the operands of the tree that is
  written, whatever these are, so that each has a value (`Entry.value`). A tree
  whose signs begin rows (`Tree.SignsLead`) is read again with its value
  (`Tree.ofInfix_toInfix_evaluate`): parentheses stand where its operators would otherwise
  group differently, and nowhere else (`Tree.reread_ranked`).

  Signs do not get parentheses. A sign before a sum is read as the sign of its
  first operand, and a sign behind an operator is not read at all
  (`Tree.sign_reread_differently`).
-/

import DiceNotation.Proofs.Infix.Exact

namespace DiceNotation.Infix

/-! ## Entries -/

/-- What a tree is written with: its operands, its operators, and rows in parentheses. -/
inductive Entry (α : Type) where
  | operand (x : α)
  | operator (op : Operator)
  | group (row : List (Entry α))

/-- An operator beside anything else is an item. -/
instance {β : Type} : Item (Operator ⊕ β) where
  operator? := Sum.getLeft?

namespace Entry

variable {α : Type}

instance : Operand (Entry α) where
  operator?
    | operator op => some op
    | _ => none
  ofOperator := operator
  parenthesized := group

section

variable [Operand α]

mutual

/-- The item that an entry is written as. -/
def item : Entry α → α
  | operand x => x
  | operator op => Operand.ofOperator op
  | group row => Operand.parenthesized (items row)

/-- The items that entries are written as. -/
def items : List (Entry α) → List α
  | [] => []
  | entry :: rest => entry.item :: items rest

end

theorem items_eq_map (row : List (Entry α)) : items row = row.map item := by
  induction row with
  | nil => rfl
  | cons entry rest ih => rw [items, ih, List.map_cons]

end

section

variable {ε : Type} (valueOf : α → Except ε Number) (ofDivision : DivisionError → ε)
  (ofMisplaced : Tree.Misplaced → ε)

/-- The value of an item; an operator has none. -/
def itemValue : Operator ⊕ Except ε Number → Except ε Number :=
  Sum.elim (fun _ => .error (ofMisplaced ⟨0, .missingOperand⟩)) id

/-- The value of the tree that a row stands for. -/
def rowValue (row : List (Operator ⊕ Except ε Number)) : Except ε Number := do
  let tree ← (Tree.ofInfix row).mapError ofMisplaced
  tree.evaluate (itemValue ofMisplaced) ofDivision

mutual

/-- An entry as an operator or else as the value of an operand. A row in parentheses has
    the value of its tree. -/
def valued : Entry α → Operator ⊕ Except ε Number
  | operand x => .inr (valueOf x)
  | operator op => .inl op
  | group row => .inr (rowValue ofDivision ofMisplaced (allValued row))

/-- The entries of a row as operators and values. -/
def allValued : List (Entry α) → List (Operator ⊕ Except ε Number)
  | [] => []
  | entry :: rest => entry.valued :: allValued rest

end

/-- The value of an entry. -/
def value (entry : Entry α) : Except ε Number :=
  itemValue ofMisplaced (entry.valued valueOf ofDivision ofMisplaced)

theorem allValued_eq_map (row : List (Entry α)) :
    allValued valueOf ofDivision ofMisplaced row =
      row.map (valued valueOf ofDivision ofMisplaced) := by
  induction row with
  | nil => rfl
  | cons entry rest ih => rw [allValued, ih, List.map_cons]

end

end Entry

namespace Tree

variable {α β : Type}

/-! ## Trees with other operands -/

/-- A tree with its operands replaced. -/
def map (f : α → β) : Tree α → Tree β
  | leaf x => leaf (f x)
  | neg inner => neg (inner.map f)
  | binary op left right => binary op (left.map f) (right.map f)

theorem map_map {γ : Type} (g : β → γ) (f : α → β) (t : Tree α) :
    (t.map f).map g = t.map (g ∘ f) := by
  induction t with
  | leaf x => rfl
  | neg inner ih => rw [map, map, ih, map]
  | binary op left right ihl ihr => rw [map, map, ihl, ihr, map]

theorem map_id (t : Tree α) : t.map id = t := by
  induction t with
  | leaf x => rfl
  | neg inner ih => rw [map, ih]
  | binary op left right ihl ihr => rw [map, ihl, ihr]

theorem topOperator?_map (f : α → β) (t : Tree α) :
    (t.map f).topOperator? = t.topOperator? := by
  cases t <;> rfl

theorem needsGrouping_map (f : α → β) (p : Nat) (right : Bool) (t : Tree α) :
    needsGrouping p right (t.map f) = needsGrouping p right t := by
  rw [needsGrouping, needsGrouping, topOperator?_map]

theorem inorder_map (f : α → β) (t : Tree α) :
    (t.map f).inorder = t.inorder.map (Sum.map id f) := by
  induction t with
  | leaf x => rfl
  | neg inner ih => simp [map, inorder, ih]
  | binary op left right ihl ihr => simp [map, inorder, ihl, ihr]

theorem BindsFrom.map {p : Nat} {t : Tree α} (h : t.BindsFrom p) (f : α → β) :
    (t.map f).BindsFrom p := by
  rw [BindsFrom, topOperator?_map]
  exact h

theorem Ranked.map {t : Tree α} (h : t.Ranked) (f : α → β) : (t.map f).Ranked := by
  induction t with
  | leaf x => trivial
  | neg inner ih => exact ih h
  | binary op left right ihl ihr =>
    obtain ⟨hleft, hright, hl, hr⟩ := h
    exact ⟨hleft.map f, hright.map f, ihl hl, ihr hr⟩

theorem Unsigned.map {t : Tree α} (h : t.Unsigned) (f : α → β) : (t.map f).Unsigned := by
  induction t with
  | leaf x => trivial
  | neg inner ih => exact h.elim
  | binary op left right ihl ihr => exact ⟨ihl h.1, ihr h.2⟩

theorem SignedFirst.map {t : Tree α} (h : t.SignedFirst) (f : α → β) :
    (t.map f).SignedFirst := by
  induction t with
  | leaf x => trivial
  | neg inner ih =>
    obtain ⟨x, rfl⟩ := h
    exact ⟨f x, rfl⟩
  | binary op left right ihl ihr => exact ⟨ihl h.1, h.2.map f⟩

section

variable [Item α] [Item β] {f : α → β}

theorem sorted_map {i : α} (h : Item.operator? (f i) = Item.operator? i) :
    Item.sorted (f i) = Sum.map id f (Item.sorted i) := by
  rw [Item.sorted, Item.sorted, h]
  cases Item.operator? i <;> rfl

/-- The tree of a row whose items are replaced, where operators stay what they are. -/
theorem ofInfix_map {items : List α} {t : Tree α} (ht : ofInfix items = .ok t)
    (hf : ∀ i ∈ items, Item.operator? (f i) = Item.operator? i) :
    ofInfix (items.map f) = .ok (t.map f) := by
  obtain ⟨hranked, hsigned, hinorder⟩ := (ofInfix_eq_ok_iff items t).mp ht
  refine ofInfix_of_inorder (hranked.map f) (hsigned.map f) ?_
  rw [inorder_map, hinorder, List.map_map, List.map_map]
  exact List.map_congr_left fun i hi => sorted_map (hf i hi)

end

theorem evaluate_map {ε : Type} (f : α → β) (valueOf : β → Except ε Number)
    (ofDivision : DivisionError → ε) (t : Tree α) :
    (t.map f).evaluate valueOf ofDivision = t.evaluate (valueOf ∘ f) ofDivision := by
  induction t with
  | leaf x => rfl
  | neg inner ih => rw [map, evaluate, evaluate, ih]
  | binary op left right ihl ihr => rw [map, evaluate, evaluate, ihl, ihr]

/-- The items of a tree whose operands are replaced, where operators and parentheses stay
    what they are. -/
theorem toInfix_map [Operand α] [Operand β] (f : α → β)
    (hoperator : ∀ op, f (Operand.ofOperator op) = Operand.ofOperator op)
    (hgroup : ∀ row, f (Operand.parenthesized row) = Operand.parenthesized (row.map f))
    (t : Tree α) : (t.map f).toInfix = t.toInfix.map f := by
  have hgrouped : ∀ needed row, (grouped needed row).map f = grouped needed (row.map f) := by
    intro needed row
    cases needed with
    | true => simp [grouped, hgroup]
    | false => rfl
  induction t with
  | leaf x => rfl
  | neg inner ih => simp [map, toInfix, needsGrouping_map, hgrouped, hoperator, ih]
  | binary op left right ihl ihr =>
    simp [map, toInfix, needsGrouping_map, hgrouped, hoperator, ihl, ihr]

/-! ## Entries of trees -/

/-- The entries that a tree is written with. -/
def entries (t : Tree α) : List (Entry α) := (t.map Entry.operand).toInfix

theorem entries_neg (inner : Tree α) : (neg inner).entries = .operator .sub :: inner.entries := by
  have hbare : needsGrouping 0 false (inner.map Entry.operand) = false :=
    needsGrouping_eq_false_iff.mpr fun op _ => Nat.zero_le op.precedence
  simp only [entries, map, toInfix, hbare]
  rfl

theorem entries_binary (op : Operator) (left right : Tree α) :
    (binary op left right).entries =
      grouped (needsGrouping op.precedence false left) left.entries ++
        .operator op :: grouped (needsGrouping op.precedence true right) right.entries := by
  simp only [entries, map, toInfix, needsGrouping_map]
  rfl

/-- The items that a tree is written as are those of its entries. -/
theorem entries_items [Operand α] (t : Tree α) : t.entries.map Entry.item = t.toInfix := by
  rw [entries, ← toInfix_map Entry.item (fun _ => rfl), map_map]
  · exact congrArg toInfix t.map_id
  · intro row
    exact congrArg Operand.parenthesized (Entry.items_eq_map row)

theorem mem_grouped {needed : Bool} {row : List (Entry α)} {x : α}
    (h : Entry.operand x ∈ grouped needed row) : Entry.operand x ∈ row := by
  cases needed with
  | true => cases List.mem_singleton.mp h
  | false => exact h

/-- The operands among the entries of a tree are operands of the tree. -/
theorem All.of_mem_entries {p : α → Prop} {t : Tree α} (h : t.All p) {x : α}
    (hx : Entry.operand x ∈ t.entries) : p x := by
  induction t with
  | leaf y =>
    cases List.mem_singleton.mp hx
    exact h
  | neg inner ih =>
    rw [entries_neg] at hx
    rcases List.mem_cons.mp hx with heq | hx
    · cases heq
    · exact ih h hx
  | binary op left right ihl ihr =>
    rw [entries_binary] at hx
    rcases List.mem_append.mp hx with hx | hx
    · exact ihl h.1 (mem_grouped hx)
    · rcases List.mem_cons.mp hx with heq | hx
      · cases heq
      · exact ihr h.2 (mem_grouped hx)

/-! ## Trees that are read again -/

/-- A tree in which a side of an operator became one operand if it was put in parentheses. -/
def enclosed (needed : Bool) (row : List (Entry α)) (t : Tree (Entry α)) : Tree (Entry α) :=
  if needed then leaf (.group row) else t

/-- A tree as it is read again. -/
def reread : Tree α → Tree (Entry α)
  | leaf x => leaf (.operand x)
  | neg inner => neg inner.reread
  | binary op left right =>
    binary op (enclosed (needsGrouping op.precedence false left) left.entries left.reread)
      (enclosed (needsGrouping op.precedence true right) right.entries right.reread)

/-- Whether the signs of a tree stand before operands that begin rows, where `first` says
    whether the tree itself begins a row. -/
def SignsLead : Tree α → Bool → Prop
  | leaf _, _ => True
  | neg inner, first => first = true ∧ ∃ x, inner = leaf x
  | binary op left right, first =>
    left.SignsLead (needsGrouping op.precedence false left || first) ∧
      right.SignsLead (needsGrouping op.precedence true right)

theorem topOperator?_reread (t : Tree α) : t.reread.topOperator? = t.topOperator? := by
  cases t <;> rfl

/-- A side of an operator binds strongly enough once it is in parentheses where needed. -/
theorem bindsFrom_enclosed (p : Nat) (right : Bool) (t : Tree α) :
    (enclosed (needsGrouping p right t) t.entries t.reread).BindsFrom
      (if right then p + 1 else p) := by
  cases hneeded : needsGrouping p right t with
  | true => exact bindsFrom_leaf _ _
  | false =>
    have hbinds := needsGrouping_eq_false_iff.mp hneeded
    rw [BindsFrom, ← topOperator?_reread] at hbinds
    exact hbinds

theorem ranked_enclosed (needed : Bool) (row : List (Entry α)) {t : Tree (Entry α)}
    (h : t.Ranked) : (enclosed needed row t).Ranked := by
  cases needed with
  | true => trivial
  | false => exact h

/-- The operators of a tree that is read again group by precedence. -/
theorem reread_ranked (t : Tree α) : t.reread.Ranked := by
  induction t with
  | leaf x => trivial
  | neg inner ih => exact ih
  | binary op left right ihl ihr =>
    exact ⟨bindsFrom_enclosed op.precedence false left, bindsFrom_enclosed op.precedence true right,
      ranked_enclosed _ _ ihl, ranked_enclosed _ _ ihr⟩

theorem inorder_enclosed (needed : Bool) {row : List (Entry α)} {t : Tree (Entry α)}
    (h : t.inorder = row.map Item.sorted) :
    (enclosed needed row t).inorder = (grouped needed row).map Item.sorted := by
  cases needed with
  | true => rfl
  | false => exact h

/-- A tree that is read again has the entries of the tree in order. -/
theorem inorder_reread (t : Tree α) : t.reread.inorder = t.entries.map Item.sorted := by
  induction t with
  | leaf x => rfl
  | neg inner ih =>
    rw [entries_neg, reread, inorder, ih]
    rfl
  | binary op left right ihl ihr =>
    rw [entries_binary, reread, inorder, inorder_enclosed _ ihl, inorder_enclosed _ ihr,
      List.map_append, List.map_cons]
    rfl

/-- Where a tree does not begin a row, its signs are all in parentheses. -/
theorem SignsLead.unsigned {t : Tree α} (h : t.SignsLead false) : t.reread.Unsigned := by
  induction t with
  | leaf x => trivial
  | neg inner ih => cases h.1
  | binary op left right ihl ihr =>
    obtain ⟨hleft, hright⟩ := h
    rw [Bool.or_false] at hleft
    constructor
    · cases hneeded : needsGrouping op.precedence false left with
      | true => trivial
      | false => exact ihl (hneeded ▸ hleft)
    · cases hneeded : needsGrouping op.precedence true right with
      | true => trivial
      | false => exact ihr (hneeded ▸ hright)

/-- Where a tree begins a row, a sign of the row stands before its first operand. -/
theorem SignsLead.signedFirst {t : Tree α} (h : t.SignsLead true) : t.reread.SignedFirst := by
  induction t with
  | leaf x => trivial
  | neg inner ih =>
    obtain ⟨-, x, rfl⟩ := h
    exact ⟨.operand x, rfl⟩
  | binary op left right ihl ihr =>
    obtain ⟨hleft, hright⟩ := h
    rw [Bool.or_true] at hleft
    constructor
    · cases needsGrouping op.precedence false left with
      | true => trivial
      | false => exact ihl hleft
    · cases hneeded : needsGrouping op.precedence true right with
      | true => trivial
      | false => exact (hneeded ▸ hright : right.SignsLead false).unsigned

/-- The entries of a tree are read as the tree, up to parentheses. -/
theorem SignsLead.ofInfix_entries {t : Tree α} (h : t.SignsLead true) :
    ofInfix t.entries = .ok t.reread :=
  ofInfix_of_inorder (reread_ranked t) h.signedFirst (inorder_reread t).symm

/-! ## Values -/

section

variable {ε : Type} (valueOf : α → Except ε Number) (ofDivision : DivisionError → ε)
  (ofMisplaced : Misplaced → ε)

/-- A row in parentheses has the value of its tree. -/
theorem value_group {row : List (Entry α)} {t : Tree (Entry α)} (ht : ofInfix row = .ok t) :
    (Entry.group row).value valueOf ofDivision ofMisplaced =
      t.evaluate (Entry.value valueOf ofDivision ofMisplaced) ofDivision := by
  have hoperator : ∀ entry : Entry α,
      Item.operator? (entry.valued valueOf ofDivision ofMisplaced) = Item.operator? entry := by
    intro entry
    cases entry <;> rfl
  have hvalued : ofInfix (row.map (Entry.valued valueOf ofDivision ofMisplaced)) =
      .ok (t.map (Entry.valued valueOf ofDivision ofMisplaced)) :=
    ofInfix_map ht fun entry _ => hoperator entry
  calc (Entry.group row).value valueOf ofDivision ofMisplaced
      = Entry.rowValue ofDivision ofMisplaced
          (Entry.allValued valueOf ofDivision ofMisplaced row) := rfl
    _ = (t.map (Entry.valued valueOf ofDivision ofMisplaced)).evaluate
          (Entry.itemValue ofMisplaced) ofDivision := by
        rw [Entry.rowValue, Entry.allValued_eq_map, hvalued]
        rfl
    _ = t.evaluate (Entry.value valueOf ofDivision ofMisplaced) ofDivision :=
        evaluate_map _ _ _ t

/-- A side of an operator keeps its value in parentheses. -/
theorem evaluate_enclosed {t : Tree α} {needed : Bool} (h : needed = true → t.SignsLead true) :
    (enclosed needed t.entries t.reread).evaluate (Entry.value valueOf ofDivision ofMisplaced)
        ofDivision =
      t.reread.evaluate (Entry.value valueOf ofDivision ofMisplaced) ofDivision := by
  cases needed with
  | false => rfl
  | true => exact value_group valueOf ofDivision ofMisplaced (h rfl).ofInfix_entries

/-- A tree that is read again has the value of the tree. -/
theorem SignsLead.evaluate_reread {t : Tree α} {first : Bool} (h : t.SignsLead first) :
    t.reread.evaluate (Entry.value valueOf ofDivision ofMisplaced) ofDivision =
      t.evaluate valueOf ofDivision := by
  induction t generalizing first with
  | leaf x => rfl
  | neg inner ih =>
    obtain ⟨-, x, rfl⟩ := h
    rfl
  | binary op left right ihl ihr =>
    obtain ⟨hleft, hright⟩ := h
    have hl : (enclosed (needsGrouping op.precedence false left) left.entries
        left.reread).evaluate (Entry.value valueOf ofDivision ofMisplaced) ofDivision =
          left.evaluate valueOf ofDivision := by
      rw [evaluate_enclosed valueOf ofDivision ofMisplaced, ihl hleft]
      intro hneeded
      rwa [hneeded, Bool.true_or] at hleft
    have hr : (enclosed (needsGrouping op.precedence true right) right.entries
        right.reread).evaluate (Entry.value valueOf ofDivision ofMisplaced) ofDivision =
          right.evaluate valueOf ofDivision := by
      rw [evaluate_enclosed valueOf ofDivision ofMisplaced, ihr hright]
      intro hneeded
      rwa [hneeded] at hright
    rw [reread, evaluate, evaluate, hl, hr]

end

/-- A tree of parsed nodes whose signs begin rows is written as a row that is read again with
    the value of the tree, whatever the values of its operands and of a division are. A row
    in parentheses has the value of its own tree. -/
theorem ofInfix_toInfix_evaluate (t : Tree Formula.Node)
    (hoperands : t.All fun node => Item.operator? node = none) (hsigns : t.SignsLead true) :
    ∃ tree : Tree (Entry Formula.Node),
      t.entries.map Entry.item = t.toInfix ∧ ofInfix t.entries = .ok tree ∧
        ofInfix t.toInfix = .ok (tree.map Entry.item) ∧
          ∀ {ε : Type} (valueOf : Formula.Node → Except ε Number)
            (ofDivision : DivisionError → ε) (ofMisplaced : Misplaced → ε),
            tree.evaluate (Entry.value valueOf ofDivision ofMisplaced) ofDivision =
              t.evaluate valueOf ofDivision := by
  have hentries : ofInfix t.entries = .ok t.reread := hsigns.ofInfix_entries
  have hoperator : ∀ entry ∈ t.entries,
      Item.operator? (Entry.item entry) = Item.operator? entry := by
    intro entry hentry
    cases entry with
    | operand node => exact hoperands.of_mem_entries hentry
    | operator op => rfl
    | group row => rfl
  refine ⟨t.reread, entries_items t, hentries, ?_, ?_⟩
  · rw [← entries_items t]
    exact ofInfix_map hentries hoperator
  · intro ε valueOf ofDivision ofMisplaced
    exact hsigns.evaluate_reread valueOf ofDivision ofMisplaced

/-- The value of a node that is a number. -/
def numeral : Formula.Node → Except Misplaced Number
  | .number n => .ok n
  | _ => .error ⟨0, .missingOperand⟩

/-- The tree of `2 * (-5 - 3)` is read again from `2 * (- 5 - 3)`, where the sign begins the
    row in parentheses. -/
theorem ofInfix_toInfix_evaluate_signed :
    let t : Tree Formula.Node := binary .mul (leaf (.number (.int 2)))
      (binary .sub (neg (leaf (.number (.int 5)))) (leaf (.number (.int 3))))
    (t.All fun node => Item.operator? node = none) ∧ t.SignsLead true ∧
      ∃ tree : Tree (Entry Formula.Node), ofInfix t.toInfix = .ok (tree.map Entry.item) ∧
        tree.evaluate (Entry.value numeral (fun _ => ⟨0, .missingOperand⟩) id)
          (fun _ => ⟨0, .missingOperand⟩) = .ok (.int (-16)) := by
  intro t
  have hoperands : t.All fun node => Item.operator? node = none := ⟨rfl, rfl, rfl⟩
  have hsigns : t.SignsLead true := ⟨trivial, ⟨rfl, _, rfl⟩, trivial⟩
  obtain ⟨tree, -, -, hread, hvalue⟩ := ofInfix_toInfix_evaluate t hoperands hsigns
  refine ⟨hoperands, hsigns, tree, hread, ?_⟩
  rw [hvalue]
  rfl

/-- A sign before a sum is read as the sign of its first operand, so that `-(1 + 2)` becomes
    `- 1 + 2`, and a sign behind an operator as in `2 * -3` is out of place. -/
theorem sign_reread_differently :
    (∃ tree : Tree Formula.Node,
      ofInfix (neg (binary .add (leaf (Formula.Node.number (.int 1)))
        (leaf (Formula.Node.number (.int 2))))).toInfix = .ok tree ∧
          tree.evaluate numeral (fun _ => ⟨0, .missingOperand⟩) = .ok (.int 1)) ∧
      (neg (binary .add (leaf (Formula.Node.number (.int 1)))
        (leaf (Formula.Node.number (.int 2))))).evaluate numeral
          (fun _ => ⟨0, .missingOperand⟩) = .ok (.int (-3)) ∧
      ofInfix (binary .mul (leaf (Formula.Node.number (.int 2)))
        (neg (leaf (Formula.Node.number (.int 3))))).toInfix = .error ⟨2, .missingOperand⟩ := by
  refine ⟨⟨binary .add (neg (leaf (.number (.int 1)))) (leaf (.number (.int 2))), rfl, rfl⟩,
    rfl, rfl⟩

end Tree

end DiceNotation.Infix
