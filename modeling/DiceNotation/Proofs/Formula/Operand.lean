/-
  DiceNotation.Proofs.Formula.Operand

  Operands that are read, written and read again.

  What is glued to an atom is written right behind it and glued to it again
  (`GlueWritten`), so that an operand is read as the same terms
  (`OperandWritten`). A sign before an operand goes into a number, stands before
  the first term or is put in parentheses with the operand (`SignedWritten`).
-/

import DiceNotation.Proofs.Formula.Atom

namespace DiceNotation.Formula

open Text

/-! ## Glue -/

/-- What is read is a part of what is glued together, whatever is glued to it. -/
def GlueRead (afterText : Bool) (source : List Char) (pos : Nat) (ts : List Token) (b : Node)
    (c : Cursor) : Prop :=
  ∀ more c', Reads source (.glue b.isText more) c c' →
    Reads source (.glue afterText (b :: more)) ⟨ts, pos⟩ c'

/-- Parts that are glued to an operand before the text `cs` are written as terms that are
    glued to it again. -/
structure GlueWritten (afterText : Bool) (parts : List Node) (cs : List Char)
    (row : List Term) : Prop where
  terms : ∀ first, Term.ofRow first parts = .ok row
  operands : ∀ t ∈ row, t.operator? = none
  follows : ∀ r, EndsOperand r → Follows cs (Term.rowChars row ++ r)
  reread : Rereads (Term.rowChars row) EndsOperand fun source pos ts c =>
    ∃ parts', (∀ first, Term.ofRow first parts' = .ok row) ∧ parts'.isEmpty = parts.isEmpty ∧
      Reads source (.glue afterText parts') ⟨ts, pos⟩ c

section

variable {n part : Node} {more : List Node} {t : Token} {term : Term} {terms : List Term}
  {rest : List Token} {c c₁ : Cursor} {cs cs₁ source : List Char} {afterText : Bool}

theorem GlueWritten.nil (afterText : Bool) (cs : List Char) : GlueWritten afterText [] cs [] where
  terms := fun _ => rfl
  operands := nofun
  follows := fun _ hr => hr.follows cs
  reread := .nil fun _ _ _ _ hk hr => ⟨[], fun _ => rfl, rfl, .glueEnd (hr.glues hk _)⟩

theorem Term.ofRow_of_ofNode {first : Bool} (hn : Term.ofNode first n = .ok [term])
    (hmore : ∀ first, Term.ofRow first more = .ok terms) :
    Term.ofRow first (n :: more) = .ok (term :: terms) := by
  rw [Term.ofRow_cons, hn, ok_bind, hmore]
  rfl

/-- A part is glued on in front of others. -/
theorem GlueWritten.cons {built : List Char → Nat → List Token → Node → Cursor → Prop}
    (h : TermWritten part cs₁ built term) (hmore : GlueWritten part.isText more cs₁ terms)
    (hfollows : ∀ r, Follows cs (term.formula.toList ++ r))
    (hread : ∀ source pos ts b c, built source pos ts b c → GlueRead afterText source pos ts b c) :
    GlueWritten afterText (part :: more) cs (term :: terms) where
  terms := fun first => Term.ofRow_of_ofNode (h.terms first) hmore.terms
  operands := List.forall_mem_cons.mpr ⟨h.operand, hmore.operands⟩
  follows := by
    intro r _
    rw [Term.rowChars_operand h.operand, List.append_assoc]
    exact hfollows _
  reread := by
    rw [Term.rowChars_operand h.operand]
    refine h.reread.append hmore.reread hmore.follows ?_
    rintro source pos ts middle c ⟨b, hsame, hbuilt⟩ ⟨parts', hparts', -, hglue⟩
    rw [← hsame.isText] at hglue
    exact ⟨b :: parts',
      fun first => Term.ofRow_of_ofNode ((hsame.terms first).trans (h.terms first)) hparts', rfl,
      hread source pos ts b middle hbuilt parts' c hglue⟩

/-- The class of a fragment begins with no bracket. -/
theorem begins_bracket_of_isFragment {cs : List Char} {kind : TokenKind} {n : Nat}
    (h : longest cs = (kind, n)) (hkind : kind.isFragment = true) :
    begins (· == '[') cs = false := by
  cases kind with
  | dice => exact begins_bracket_eq_false h rfl fun _ => rfl
  | dicePrefix => exact begins_bracket_eq_false h rfl fun _ => rfl
  | identifier => exact begins_bracket_eq_false h rfl fun _ => rfl
  | dataReference => exact begins_bracket_eq_false h rfl fun _ => rfl
  | _ => cases hkind

/-- A fragment of text is glued on as it is. -/
theorem BareWritten.fragment {r : List Char}
    (hlongest : longest (t.text ++ r) = (t.kind, t.text.length))
    (hhead : begins isSeparator t.text = false) (hne : t.text ≠ [])
    (hkind : t.kind.isFragment = true) (afterText : Bool) :
    BareWritten (.text (String.ofList t.text)) r (GlueRead afterText)
      (.text (String.ofList t.text) {} false) where
  terms := fun first => rfl
  operand := rfl
  plain := rfl
  reread := by
    have hbracket := begins_bracket_of_isFragment hlongest hkind
    rw [begins_append hne] at hbracket
    have hknown : t.kind ≠ .unrecognized := by
      intro h
      rw [h] at hkind
      cases hkind
    have hformula : (Term.text (String.ofList t.text) {} false).formula.toList = t.text :=
      String.toList_ofList
    rw [hformula]
    refine Rereads.mono (.token hne hhead fun r' hr' =>
      longest_of_endsLike hlongest hknown hbracket hr'.ends) (fun _ h => h) ?_
    rintro source pos ts c rfl
    refine ⟨_, .refl _, fun b' c' hflavors more c₂ hmore => ?_⟩
    exact .fragment (beq_self_eq_true _) rfl hkind hflavors hmore

theorem GlueWritten.fragment (hbefore : c.Before cs) (hadjacent : c.isAdjacent = true)
    (hc : c.rest = t :: rest) (hkind : t.kind.isFragment = true)
    (hpart : withFlavors source (.text (String.ofList t.text)) ⟨rest, t.span.stop⟩ =
      .ok (part, c₁)) (afterText : Bool) :
    ∃ cs₁ term, c₁.Before cs₁ ∧ ∀ more terms, GlueWritten part.isText more cs₁ terms →
      GlueWritten afterText (part :: more) cs (term :: terms) := by
  obtain ⟨ts, stop⟩ := c
  obtain rfl : ts = t :: rest := hc
  obtain ⟨blanks, r, rfl, hne, hhead, hlongest, hblanks, -, hr⟩ := hbefore.cons
  have hbare := BareWritten.fragment hlongest hhead hne hkind afterText
  obtain ⟨cs₁, term, flavors, hc₁, hwritten, hformula, -⟩ := hbare.withFlavors hr hpart
  have hfollows : ∀ r', Follows (t.text ++ r) (term.formula.toList ++ r') := by
    intro r'
    have hbracket := begins_bracket_of_isFragment hlongest hkind
    rw [begins_append hne] at hbracket
    obtain ⟨d, w, htext⟩ := List.exists_cons_of_ne_nil hne
    rw [htext] at hhead hbracket
    rw [hformula, List.append_assoc]
    show Follows (t.text ++ r) ((String.ofList t.text).toList ++ (flavors ++ r'))
    rw [String.toList_ofList, htext]
    exact .of_head hhead (by simpa [begins] using hbracket) _ _
  refine ⟨cs₁, term, hc₁, fun more terms hmore => ?_⟩
  rw [hblanks hadjacent]
  exact .cons hwritten hmore hfollows fun source pos ts b c h => h

/-- A number or a group is glued to text. -/
theorem GlueWritten.behindText {kind : TokenKind} (h : AtomWritten part c cs cs₁ term)
    (hadjacent : c.isAdjacent = true) (hpoint : c.Unpointed) (hc : c.kind? = some kind)
    (hkind : kind.isBehindText = true) (hmore : GlueWritten part.isText more cs₁ terms) :
    GlueWritten true (part :: more) cs (term :: terms) := by
  refine .cons h.toTermWritten hmore (h.opens hadjacent hpoint kind hc hkind) ?_
  intro source pos ts b c' ⟨hadjacent', hkind?, hread⟩ more c₂ hglue
  exact .behindText hadjacent' (hkind?.trans hc) hkind (hread pos) hglue

end

/-! ## Operands -/

/-- An operand is written as terms, and of their characters an operand with the same terms
    is read. -/
structure OperandWritten (n : Node) (row : List Term) : Prop where
  terms : ∀ first, Term.ofNode first n = .ok row
  ne_nil : row ≠ []
  operands : ∀ t ∈ row, t.operator? = none
  legible : ∀ value, n = .number value → IsLegible value
  reread : Rereads (Term.rowChars row) EndsOperand fun source _ ts c =>
    ∃ b, SameTerms n b ∧ ∀ stop, Reads source (.operand b) ⟨ts, stop⟩ c

section

variable {n first : Node} {more : List Node} {term : Term} {terms : List Term} {c : Cursor}
  {cs cs₁ : List Char}

theorem OperandWritten.of_atom (h : AtomWritten first c cs cs₁ term)
    (hglue : GlueWritten first.isText more cs₁ terms) :
    OperandWritten (.ofParts first more) (term :: terms) where
  terms := by
    intro b
    cases more with
    | nil =>
      cases hglue.terms b
      exact h.terms b
    | cons part more => exact Term.ofRow_of_ofNode (h.terms b) hglue.terms
  ne_nil := List.cons_ne_nil _ _
  operands := List.forall_mem_cons.mpr ⟨h.operand, hglue.operands⟩
  legible := by
    intro value hvalue
    cases more with
    | nil => exact h.legible value hvalue
    | cons part more => cases hvalue
  reread := by
    rw [Term.rowChars_operand h.operand]
    -- where the atom ends depends on what is glued to it, so the glue is read first
    refine h.reread.append hglue.reread hglue.follows ?_
    rintro source pos ts middle c' ⟨b, hsame, -, -, hatom⟩ ⟨parts', hparts', hempty, hread⟩
    rw [← hsame.isText] at hread
    refine ⟨.ofParts b parts', ?_, fun stop => .operand (hatom stop) hread⟩
    cases more with
    | nil =>
      obtain rfl := List.isEmpty_iff.mp hempty
      exact hsame
    | cons part more =>
      obtain ⟨part', more', rfl⟩ := List.exists_cons_of_ne_nil (l := parts')
        (by rintro rfl; cases hempty)
      refine .of_terms (by rintro _ ⟨⟩) (by rintro _ ⟨⟩) (fun b' => ?_) rfl
      exact (Term.ofRow_of_ofNode ((hsame.terms b').trans (h.terms b')) hparts').trans
        (Term.ofRow_of_ofNode (h.terms b') hglue.terms).symm

end

/-! ## Signs -/

/-- A sign before an operand is read. -/
def SignedRead (first : Bool) (row : List Term) (source : List Char) (ts : List Token)
    (c : Cursor) : Prop :=
  ∃ sign b, Term.ofNode first (signed sign b) = .ok row ∧
    ∀ stop, ∃ c₁, signs ⟨ts, stop⟩ = (sign, c₁) ∧ Reads source (.operand b) c₁ c

/-- An operand with its sign is written as terms, and of their characters an operand with
    a sign and the same terms is read. -/
structure SignedWritten (first : Bool) (n : Node) (row : List Term) : Prop where
  terms : Term.ofNode first n = .ok row
  ne_nil : row ≠ []
  operands : first = false → ∀ t ∈ row, t.operator? = none
  reread : Rereads (Roll.formulaOf row).toList EndsOperand fun source _ =>
    SignedRead first row source

section

variable {n : Node} {row : List Term}

theorem OperandWritten.unsigned (h : OperandWritten n row) (first : Bool) :
    SignedWritten first n row where
  terms := h.terms first
  ne_nil := h.ne_nil
  operands := fun _ => h.operands
  reread := by
    rw [Roll.toList_formulaOf_operands h.ne_nil h.operands]
    refine h.reread.mono (fun _ hr => hr) ?_
    rintro source pos ts c ⟨b, hsame, hread⟩
    exact ⟨none, b, (hsame.terms first).trans (h.terms first),
      fun stop => ⟨⟨ts, stop⟩, (hread stop).signRun_operand none, hread stop⟩⟩

/-- An operand behind a minus sign is read as one that is negated. -/
theorem OperandWritten.minus (h : OperandWritten n row) {first : Bool} {row' : List Term}
    (hrow : Term.ofNode first (.negation n) = .ok row') :
    Rereads ('-' :: Term.rowChars row) EndsOperand fun source _ =>
      SignedRead first row' source := by
  have hsign : Rereads ['-'] (fun _ => True) (fun _ => IsToken .minus ['-']) :=
    .char rfl fun _ _ => rfl
  refine hsign.append h.reread (fun _ _ => trivial) ?_
  rintro source pos ts middle c rfl ⟨b, hsame, hread⟩
  refine ⟨some .sub, b, (hsame.negated first).trans hrow,
    fun stop => ⟨middle, ?_, hread middle.stop⟩⟩
  exact (hread middle.stop).signRun_operand (some .sub)

/-- A number is written with its sign. -/
theorem OperandWritten.negated_number {value : Number} (h : OperandWritten (.number value) row)
    (first : Bool) : SignedWritten first (.negation (.number value)) [.numeric value.neg {}] := by
  obtain rfl : row = [.numeric value {}] := (Except.ok.inj (h.terms first)).symm
  have hrow : Term.ofNode first (.negation (.number value)) = .ok [.numeric value.neg {}] := by
    rw [Term.ofNode]
  obtain rfl | hneg := (h.legible value rfl).neg_chars
  · -- zero is written without its sign
    have hzero : (Number.int 0).neg = .int 0 := rfl
    obtain ⟨-, hne, hoperands, hread⟩ := h.unsigned first
    rw [hzero] at hrow ⊢
    exact ⟨hrow, hne, hoperands, hread⟩
  · refine ⟨hrow, List.cons_ne_nil _ _, fun _ => List.forall_mem_singleton.mpr rfl, ?_⟩
    have hchars : (Roll.formulaOf [.numeric value.neg {}]).toList =
        '-' :: Term.rowChars [.numeric value {}] := by
      rw [Roll.toList_formulaOf_operand rfl, Term.rowChars_operand rfl, toList_numeric,
        toList_numeric, hneg]
      rfl
    rw [hchars]
    exact h.minus hrow

/-- At the very start the sign stands before the first term. -/
theorem OperandWritten.negated_first (h : OperandWritten n row)
    (hrow : Term.ofNode true (.negation n) = .ok (Term.minus :: row)) :
    SignedWritten true (.negation n) (Term.minus :: row) where
  terms := hrow
  ne_nil := List.cons_ne_nil _ _
  operands := nofun
  reread := by
    rw [Roll.toList_formulaOf_minus]
    exact h.minus hrow

end

end DiceNotation.Formula
