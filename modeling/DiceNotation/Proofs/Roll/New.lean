/-
  DiceNotation.Proofs.Roll.New

  Rolls as they are read.

  `Roll.New` says what a roll looks like before it is evaluated: its terms are a row
  of operands with operators between them, operands stand back to back only where
  one of them is a fragment of text, and nothing in it has a value yet, at any depth.
  Every formula that is read has such a roll (`Roll.new_of_withData`), and so has
  what is read out of a fragment while a roll is evaluated. A row of this kind is
  simplified to one in which operands and operators take turns
  (`Term.isRow_simplify`).
-/

import DiceNotation.Proofs.Formula.Shape
import DiceNotation.Proofs.Modifier.Suffix
import DiceNotation.Proofs.Roll.Simplify

namespace DiceNotation

open Formula

/-! ## New rolls -/

/-- Dice with faces, whose modifiers are those of their family. -/
structure Dice.WellMade (d : Dice) : Prop where
  faces : 0 < d.denomination.faces
  modifiers : ∀ m ∈ d.modifiers, m.IsOf (.ofDenomination d.denomination)

/-- A pool whose modifiers are those of pools. -/
def Pool.WellMade (p : Pool) : Prop := ∀ m ∈ p.modifiers, m.IsOf .pool

mutual

/-- A roll as it is read from a formula. -/
inductive Roll.New : Roll → Prop where
  | mk {formula : String} {data : Json} {annotations : Annotations} {terms : List Term}
      (hgrouped : Term.Grouped terms) (hterms : ∀ t ∈ terms, Term.New t) :
      Roll.New ⟨formula, data, annotations, terms, none, false, []⟩

/-- A term that has no value yet unless it is a number. -/
inductive Term.New : Term → Prop where
  | numeric (n : Number) (a : Annotations) : Term.New (.numeric n a)
  | operator (op : Operator) (a : Annotations) : Term.New (.operator op a)
  | dice {d : Dice} (hd : d.WellMade) (hpending : d.evaluated = false) : Term.New (.dice d)
  | pool {p : Pool} {rolls : List Roll} (hp : p.WellMade) (hpending : p.evaluated = false)
      (hrolls : ∀ r ∈ rolls, Roll.New r) : Term.New (.pool p rolls)
  | function {name : String} {arguments : List String} {rolls : List Roll} {a : Annotations}
      (hrolls : ∀ r ∈ rolls, Roll.New r) : Term.New (.function name arguments rolls none a)
  | parenthetical {text : String} {roll : Roll} {a : Annotations} (hroll : Roll.New roll) :
      Term.New (.parenthetical text roll a)
  | text (content : String) (a : Annotations) : Term.New (.text content a false)

end

theorem Roll.New.ofTerms {terms : List Term} (hgrouped : Term.Grouped terms)
    (hterms : ∀ t ∈ terms, t.New) : (Roll.ofTerms terms).New := .mk hgrouped hterms

theorem Term.New.setAnnotations {t : Term} (h : t.New) (a : Annotations) :
    (t.setAnnotations a).New := by
  cases h with
  | numeric n => exact .numeric n a
  | operator op => exact .operator op a
  | dice hd hpending => exact .dice ⟨hd.faces, hd.modifiers⟩ hpending
  | pool hp hpending hrolls => exact .pool hp hpending hrolls
  | function hrolls => exact .function hrolls
  | parenthetical hroll => exact .parenthetical hroll
  | text content => exact .text content a

/-- Denominations that are read have faces. -/
theorem Denomination.faces_pos_of_ofFaces? {cs : List Char} {d : Denomination}
    (h : Denomination.ofFaces? cs = some d) : 0 < d.faces := by
  unfold Denomination.ofFaces? at h
  split at h
  iterate 4
    cases h
    decide
  split at h
  · cases h
    exact Nat.succ_pos _
  · cases h

/-! ## What nodes become -/

/-- A row that begins with an operand. -/
theorem Term.ofRow_group {first : Bool} {n : Node} {ns : List Node} {ts more : List Term}
    (hts : Term.ofNode first n = .ok ts) (hne : ts.isEmpty = false)
    (hmore : Term.ofRow false ns = .ok more) : Term.ofRow first (n :: ns) = .ok (ts ++ more) := by
  rw [Term.ofRow_cons, hts, ok_bind, hne, Bool.and_false, hmore]
  rfl

namespace Formula

/-- A node that becomes a new operand, wherever it stands, which is a fragment of text if
    `fragment` says so. -/
def Node.BuildsTerm (fragment : Bool) (n : Node) : Prop :=
  ∃ t, (∀ first, Term.ofNode first n = .ok [t]) ∧ t.operator? = none ∧ t.New ∧
    (fragment = true → t.isText = true)

/-- A node that becomes new operands that are glued together, wherever it stands. -/
def Node.BuildsGroup (n : Node) : Prop :=
  ∃ ts, (∀ first, Term.ofNode first n = .ok ts) ∧ Term.Glued ts ∧ ∀ t ∈ ts, t.New

/-- What a piece of a formula becomes. -/
def Piece.Builds : Piece → Prop
  | .expression nodes =>
    ∃ ts, Term.ofRow true nodes = .ok ts ∧ Term.Grouped ts ∧ ∀ t ∈ ts, t.New
  | .rest nodes =>
    ∃ ts, Term.ofRow false nodes = .ok ts ∧ Term.Trailing ts ∧ ∀ t ∈ ts, t.New
  | .operand n => n.BuildsGroup
  | .glue afterText parts =>
    ∃ ts, (∀ first, Term.ofRow first parts = .ok ts) ∧ (∀ t ∈ ts, t.New) ∧
      ∀ t : Term, t.operator? = none → (afterText = true → t.isText = true) → Term.Glued (t :: ts)
  | .atom n => n.BuildsTerm n.isText
  | .list subs => ∃ rs, Roll.ofSubs subs = .ok rs ∧ ∀ r ∈ rs, r.New
  | .sub s => ∃ r, Roll.ofSub s = .ok r ∧ r.New

/-- Flavors change nothing of what a node becomes but its annotations. -/
theorem Node.BuildsTerm.withFlavors {source : List Char} {fragment : Bool} {n n' : Node}
    {c c' : Cursor} (h : Formula.withFlavors source n c = .ok (n', c'))
    (hn : n.BuildsTerm fragment) : n'.BuildsTerm fragment := by
  obtain ⟨⟨flavors, c₁⟩, -, heq⟩ := bind_eq_ok.mp h
  by_cases hempty : flavors.isEmpty = true
  · simp only [hempty, if_true] at heq
    cases heq
    exact hn
  · simp only [hempty, Bool.false_eq_true, if_false] at heq
    cases heq
    obtain ⟨t, ht, hoperand, hnew, htext⟩ := hn
    refine ⟨t.setFlavor (some (String.intercalate " " flavors)), fun first => ?_,
      (Term.operator?_setAnnotations _ t).trans hoperand, hnew.setAnnotations _,
      fun h => (Term.isText_setAnnotations _ t).trans (htext h)⟩
    rw [Term.ofNode, ht]
    rfl

/-- Only what was a fragment before its flavors is one with them. -/
theorem Node.BuildsTerm.atom {source : List Char} {n n' : Node} {c c' : Cursor}
    (h : Formula.withFlavors source n c = .ok (n', c')) (hn : n.BuildsTerm n.isText) :
    n'.BuildsTerm n'.isText := by
  obtain ⟨t, ht, hoperand, hnew, htext⟩ := hn.withFlavors h
  refine ⟨t, ht, hoperand, hnew, fun htext' => htext ?_⟩
  obtain ⟨⟨flavors, c₁⟩, -, heq⟩ := bind_eq_ok.mp h
  by_cases hempty : flavors.isEmpty = true
  · simp only [hempty, if_true] at heq
    cases heq
    exact htext'
  · simp only [hempty, Bool.false_eq_true, if_false] at heq
    cases heq
    cases htext'

theorem Node.buildsTerm_text (content : String) : (Node.text content).BuildsTerm true :=
  ⟨_, fun _ => by rw [Term.ofNode], rfl, .text content {}, fun _ => rfl⟩

theorem Token.buildsTerm_literal? {t : Token} {n : Node} (h : t.literal? = some n) :
    n.BuildsTerm n.isText := by
  unfold Token.literal? at h
  split at h
  · obtain ⟨value, -, rfl⟩ := Option.map_eq_some_iff.mp h
    exact ⟨_, fun _ => by rw [Term.ofNode], rfl, .numeric value {}, (absurd · Bool.false_ne_true)⟩
  · simp only [diceOfLiteral?, Option.bind_eq_bind, Option.bind_eq_some_iff] at h
    obtain ⟨number, -, d, hd, ms, hms, h⟩ := h
    cases h
    have hmade : Dice.WellMade { number, denomination := d, modifiers := ms } :=
      ⟨Denomination.faces_pos_of_ofFaces? hd,
        Modifier.isOf_of_ofSuffix (Text.toOption_eq_some.mp hms)⟩
    exact ⟨_, fun _ => by rw [Term.ofNode], rfl, .dice hmade rfl, (absurd · Bool.false_ne_true)⟩
  iterate 3
    cases h
    exact Node.buildsTerm_text _
  cases h

/-- An operand behind another one, with its sign. -/
theorem Node.BuildsGroup.signed {n : Node} (h : n.BuildsGroup) (sign : Option Operator) :
    ∃ ts, Term.ofNode false (Formula.signed sign n) = .ok ts ∧ Term.Glued ts ∧
      ∀ t ∈ ts, t.New := by
  obtain ⟨ts, hts, hglued, hnew⟩ := h
  by_cases hsign : sign = some .sub
  · rw [Formula.signed, if_pos (by simp [hsign])]
    obtain ⟨value, rfl, hvalue⟩ | hnode := Node.ofNode_negation false n
    · exact ⟨_, hvalue, .one rfl, List.forall_mem_singleton.mpr (.numeric _ _)⟩
    · have hgrouped : Term.Grouped (Term.minus :: ts) := by
        simpa only [List.append_nil] using Term.Grouped.negated rfl hglued .nil
      have hall : ∀ t ∈ Term.minus :: ts, t.New :=
        List.forall_mem_cons.mpr ⟨.operator _ _, hnew⟩
      refine ⟨_, by rw [hnode, hts, ok_bind]; rfl, .one rfl, ?_⟩
      exact List.forall_mem_singleton.mpr (.parenthetical (.ofTerms hgrouped hall))
  · rw [Formula.signed, if_neg (by simpa using hsign)]
    exact ⟨ts, hts false, hglued, hnew⟩

/-- A sign before the first operand of a row. -/
theorem Node.BuildsGroup.row {n : Node} {ns : List Node} (h : n.BuildsGroup)
    (sign : Option Operator) {more : List Term} (hmore : Term.ofRow false ns = .ok more)
    (htrailing : Term.Trailing more) (hnew : ∀ t ∈ more, t.New) :
    ∃ ts, Term.ofRow true (Formula.signed sign n :: ns) = .ok ts ∧ Term.Grouped ts ∧
      ∀ t ∈ ts, t.New := by
  obtain ⟨ts, hts, hglued, hall⟩ := h
  by_cases hsign : sign = some .sub
  · rw [Formula.signed, if_pos (by simp [hsign])]
    obtain ⟨value, rfl, hvalue⟩ | hnode := Node.ofNode_negation true n
    · exact ⟨_, Term.ofRow_group hvalue rfl hmore, .plain (.one rfl) htrailing,
        List.forall_mem_cons.mpr ⟨.numeric _ _, hnew⟩⟩
    · have hnegated : Term.ofNode true (.negation n) = .ok (Term.minus :: ts) := by
        rw [hnode, hts, ok_bind]
        rfl
      refine ⟨_, Term.ofRow_group hnegated rfl hmore, .negated rfl hglued htrailing, ?_⟩
      exact List.forall_mem_cons.mpr ⟨.operator _ _, List.forall_mem_append.mpr ⟨hall, hnew⟩⟩
  · rw [Formula.signed, if_neg (by simpa using hsign)]
    exact ⟨_, Term.ofRow_group (hts true) hglued.isEmpty hmore, .plain hglued htrailing,
      List.forall_mem_append.mpr ⟨hall, hnew⟩⟩

/-- An operator with an operand behind it. -/
theorem Piece.builds_rest {op : Operator} {n : Node} {ns : List Node}
    (hn : ∃ ts, Term.ofNode false n = .ok ts ∧ Term.Glued ts ∧ ∀ t ∈ ts, t.New)
    (hns : (Piece.rest ns).Builds) : (Piece.rest (.operator op :: n :: ns)).Builds := by
  obtain ⟨ts, hts, hglued, hall⟩ := hn
  obtain ⟨more, hmore, htrailing, hnew⟩ := hns
  have hoperator : Term.ofNode false (.operator op) = .ok [.operator op {}] := by
    rw [Term.ofNode]
  refine ⟨.operator op {} :: (ts ++ more),
    Term.ofRow_group hoperator rfl (Term.ofRow_group hts hglued.isEmpty hmore),
    .cons rfl hglued htrailing, ?_⟩
  exact List.forall_mem_cons.mpr ⟨.operator _ _, List.forall_mem_append.mpr ⟨hall, hnew⟩⟩

/-- A part that is glued to what stands before it. -/
theorem Node.BuildsTerm.glue {fragment afterText : Bool} {part : Node} {more : List Node}
    (hpart : part.BuildsTerm fragment) (hfragment : part.isText = true → fragment = true)
    (hglue : afterText = true ∨ fragment = true)
    (hmore : (Piece.glue part.isText more).Builds) :
    (Piece.glue afterText (part :: more)).Builds := by
  obtain ⟨t, ht, hoperand, hnew, htext⟩ := hpart
  obtain ⟨ts, hts, hall, hglued⟩ := hmore
  have hrest : Term.Glued (t :: ts) := hglued t hoperand fun h => htext (hfragment h)
  refine ⟨t :: ts, fun first => ?_, List.forall_mem_cons.mpr ⟨hnew, hall⟩,
    fun t' ht' htext' => .cons ht' ?_ hrest⟩
  · exact Term.ofRow_group (ht first) rfl (hts false)
  · exact hglue.imp htext' htext

/-- Every piece of a formula becomes new terms. -/
theorem Reads.builds {source : List Char} {p : Piece} {c c' : Cursor}
    (h : Reads source p c c') : p.Builds := by
  induction h with
  | expression _ _ _ ihn ihns =>
    obtain ⟨more, hmore, htrailing, hnew⟩ := ihns
    exact ihn.row _ hmore htrailing hnew
  | restSum _ _ _ ihn ihns =>
    obtain ⟨ts, hts, hglued, hall⟩ := ihn
    exact Piece.builds_rest ⟨ts, hts false, hglued, hall⟩ ihns
  | restProduct _ _ _ _ _ ihn ihns => exact Piece.builds_rest (ihn.signed _) ihns
  | restEnd => exact ⟨[], rfl, .nil, List.forall_mem_nil _⟩
  | @operand first more _ _ _ _ _ ihfirst ihmore =>
    obtain ⟨t, ht, hoperand, hnew, htext⟩ := ihfirst
    obtain ⟨ts, hts, hall, hglued⟩ := ihmore
    have hgroup := hglued t hoperand htext
    cases more with
    | nil =>
      obtain rfl : [] = ts := Except.ok.inj (hts true)
      exact ⟨[t], ht, hgroup, List.forall_mem_singleton.mpr hnew⟩
    | cons part more =>
      refine ⟨t :: ts, fun b => ?_, hgroup, List.forall_mem_cons.mpr ⟨hnew, hall⟩⟩
      show Term.ofNode b (.glued (first :: part :: more)) = _
      rw [Term.ofNode]
      exact Term.ofRow_group (ht b) rfl (hts false)
  | fragment _ _ _ hpart _ ihmore =>
    exact ((Node.buildsTerm_text _).withFlavors hpart).glue (fun _ => rfl) (.inr rfl) ihmore
  | behindText _ _ _ _ _ ihpart ihmore => exact ihpart.glue id (.inl rfl) ihmore
  | glueEnd => exact ⟨[], fun _ => rfl, List.forall_mem_nil _, fun _ ht _ => .one ht⟩
  | literal _ hn _ hflavors => exact (Token.buildsTerm_literal? hn).atom hflavors
  | callEmpty _ _ _ _ hflavors =>
    exact Node.BuildsTerm.atom hflavors
      ⟨.function _ [] [] none {}, fun _ => rfl, rfl, .function (List.forall_mem_nil _),
        (absurd · Bool.false_ne_true)⟩
  | call _ _ _ _ _ _ hflavors ih =>
    obtain ⟨rs, hrs, hall⟩ := ih
    exact Node.BuildsTerm.atom hflavors
      ⟨_, fun _ => by rw [Term.ofNode, hrs, ok_bind]; rfl, rfl, .function hall,
        (absurd · Bool.false_ne_true)⟩
  | group _ _ _ _ hflavors ih =>
    obtain ⟨r, hr, hnew⟩ := ih
    exact Node.BuildsTerm.atom hflavors
      ⟨_, fun _ => by rw [Term.ofNode, hr, ok_bind]; rfl, rfl, .parenthetical hnew,
        (absurd · Bool.false_ne_true)⟩
  | pool _ _ _ _ _ _ hms hflavors ih =>
    obtain ⟨rs, hrs, hall⟩ := ih
    exact Node.BuildsTerm.atom hflavors
      ⟨_, fun _ => by rw [Term.ofNode, hrs, ok_bind]; rfl, rfl,
        .pool (Modifier.isOf_of_ofSuffix hms) rfl hall, (absurd · Bool.false_ne_true)⟩
  | listLast _ _ ih =>
    obtain ⟨r, hr, hnew⟩ := ih
    exact ⟨[r], by rw [Roll.ofSubs, hr]; rfl, List.forall_mem_singleton.mpr hnew⟩
  | listMore _ _ _ ihs ihmore =>
    obtain ⟨r, hr, hnew⟩ := ihs
    obtain ⟨rs, hrs, hall⟩ := ihmore
    exact ⟨r :: rs, by rw [Roll.ofSubs, hr, ok_bind, hrs]; rfl,
      List.forall_mem_cons.mpr ⟨hnew, hall⟩⟩
  | sub hnodes ih =>
    obtain ⟨ts, hts, hgrouped, hnew⟩ := ih
    refine ⟨Roll.ofTerms ts, ?_, .ofTerms hgrouped hnew⟩
    rw [Roll.ofSub, checkRow_of_row hnodes.row, ok_bind, hts]
    rfl

end Formula

/-! ## Formulas -/

/-- The terms of a formula are a grouped row of new terms. -/
theorem Term.new_of_ofFormula {formula : String} {row : List Term}
    (h : Term.ofFormula formula = .ok row) : Term.Grouped row ∧ ∀ t ∈ row, t.New := by
  obtain ⟨nodes, hnodes, hrow⟩ := Term.ofFormula_eq_ok.mp h
  obtain ⟨c, hread, -⟩ := parseChars_eq_ok.mp hnodes
  obtain ⟨ts, hts, hgrouped, hnew⟩ := hread.builds
  cases hts.symm.trans hrow
  exact ⟨hgrouped, hnew⟩

/-- The roll of a formula is new. -/
theorem Roll.new_of_withData {formula : String} {data : Json} {r : Roll}
    (h : Roll.withData formula data = .ok r) : r.New := by
  obtain ⟨row, hrow, rfl⟩ := Roll.withData_eq_ok.mp h
  obtain ⟨hgrouped, hnew⟩ := Term.new_of_ofFormula hrow
  exact .mk hgrouped hnew

/-! ## Simplified rows -/

namespace Term

/-- A fragment of text is an operand that has no value yet, whatever it is read as. -/
theorem new_classify (content : String) :
    (classify content).New ∧ (classify content).operator? = none := by
  unfold classify
  split
  · rename_i t heq
    obtain ⟨hgrouped, hnew⟩ := new_of_ofFormula heq
    split
    · exact ⟨.text content {}, rfl⟩
    · exact ⟨hnew t (List.mem_singleton_self t), hgrouped.operand_of_single⟩
  · exact ⟨.text content {}, rfl⟩

theorem New.reclassify {t : Term} (h : t.New) : t.reclassify.New := by
  cases t with
  | text content a evaluated => exact (new_classify content).1.setAnnotations _
  | _ => exact h

theorem operator?_reclassify (t : Term) : t.reclassify.operator? = t.operator? := by
  cases t with
  | text content a evaluated =>
    exact (operator?_setAnnotations _ _).trans (new_classify content).2
  | _ => rfl

/-- A new row is simplified to a new row in which operands and operators take turns. -/
theorem isRow_simplify {ts : List Term} (hgrouped : Grouped ts) (hnew : ∀ t ∈ ts, t.New) :
    Infix.IsRow (simplify ts) ∧ ∀ t ∈ simplify ts, t.New := by
  have hrow : Infix.IsRow ((joinAll ts).map reclassify) :=
    hgrouped.joinAll.of_operators (List.map_map.trans (List.map_congr_left fun t _ =>
      operator?_reclassify t))
  rw [simplify, trim_eq hrow]
  refine ⟨hrow, fun t ht => ?_⟩
  obtain ⟨u, hu, rfl⟩ := List.mem_map.mp ht
  obtain hmem | ⟨content, a, rfl⟩ := mem_joinAll hu
  · exact (hnew u hmem).reclassify
  · exact (New.text content a).reclassify

end Term

end DiceNotation
