/-
  DiceNotation.Proofs.Formula.Rewrite

  Atoms that are read, written and read again.

  `Rereads` says of characters that, before every text that may follow them, they
  are tokens of which something can be read. An atom becomes one term, and of the
  term's characters an atom with the same terms is read (`AtomWritten`). Each rule
  for atoms has its lemma, without the flavors; these are added once for all of
  them (`BareWritten.withFlavors`).
-/

import DiceNotation.Proofs.Formula.Follow
import DiceNotation.Proofs.Formula.Shape
import DiceNotation.Proofs.Roll.Written

namespace DiceNotation.Formula

open Text

/-! ## The same terms -/

/-- Nodes that become the same terms, also when they are negated. -/
structure SameTerms (n b : Node) : Prop where
  terms : ∀ first, Term.ofNode first b = Term.ofNode first n
  negated : ∀ first, Term.ofNode first (.negation b) = Term.ofNode first (.negation n)
  isText : b.isText = n.isText

theorem SameTerms.refl (n : Node) : SameTerms n n := ⟨fun _ => rfl, fun _ => rfl, rfl⟩

/-- Nodes that are no numbers become the same terms when they are negated if they do so
    otherwise. -/
theorem SameTerms.of_terms {n b : Node} (hn : ∀ value, n ≠ .number value)
    (hb : ∀ value, b ≠ .number value)
    (hterms : ∀ first, Term.ofNode first b = Term.ofNode first n) (htext : b.isText = n.isText) :
    SameTerms n b where
  terms := hterms
  negated := by
    intro first
    obtain ⟨value, rfl, -⟩ | hneg := Node.ofNode_negation first n
    · exact absurd rfl (hn value)
    obtain ⟨value, rfl, -⟩ | hneg' := Node.ofNode_negation first b
    · exact absurd rfl (hb value)
    rw [hneg, hneg', hterms]
  isText := htext

theorem SameTerms.annotated {n b : Node} (h : SameTerms n b) (flavor : String) :
    SameTerms (.annotated n flavor) (.annotated b flavor) := by
  refine .of_terms (by rintro _ ⟨⟩) (by rintro _ ⟨⟩) (fun first => ?_) rfl
  show (do let terms ← Term.ofNode first b; return Term.flavorLast flavor terms) =
    (do let terms ← Term.ofNode first n; return Term.flavorLast flavor terms)
  rw [h.terms]

/-! ## Characters that are read again -/

/-- Before each text that may follow, characters are tokens, and what they are is read
    between the first one and that text. -/
def Rereads (written : List Char) (after : List Char → Prop)
    (read : List Char → Nat → List Token → Cursor → Prop) : Prop :=
  ∀ (source : List Char) (pos : Nat) (r : List Char) (k : List Token),
    Scans (pos + byteLength written) r k → after r →
      ∃ ts, Scans pos (written ++ r) ts ∧ read source pos ts ⟨k, pos + byteLength written⟩

/-- A token stands between a position and a cursor. -/
def IsToken (kind : TokenKind) (w : List Char) (pos : Nat) (ts : List Token) (c : Cursor) : Prop :=
  ts = ⟨kind, w, ⟨pos, c.stop⟩⟩ :: c.rest

section

variable {written : List Char} {after after' : List Char → Prop}
  {read read' : List Char → Nat → List Token → Cursor → Prop}

theorem Rereads.mono (h : Rereads written after read) (hafter : ∀ r, after' r → after r)
    (hread : ∀ source pos ts c, read source pos ts c → read' source pos ts c) :
    Rereads written after' read' := by
  intro source pos r k hk hr
  obtain ⟨ts, hts, hread'⟩ := h source pos r k hk (hafter r hr)
  exact ⟨ts, hts, hread source pos ts _ hread'⟩

/-- Characters are read again behind others. -/
theorem Rereads.append {more : List Char}
    {first : List Char → Nat → List Token → Cursor → Prop} (h : Rereads written after first)
    (hmore : Rereads more after' read) (hafter : ∀ r, after' r → after (more ++ r))
    (hread : ∀ source pos ts middle c, first source pos ts middle →
      read source middle.stop middle.rest c → read' source pos ts c) :
    Rereads (written ++ more) after' read' := by
  intro source pos r k hk hr
  rw [byteLength_append, ← Nat.add_assoc] at hk ⊢
  obtain ⟨middle, hmiddle, hsecond⟩ := hmore source (pos + byteLength written) r k hk hr
  obtain ⟨ts, hts, hfirst⟩ := h source pos (more ++ r) middle hmiddle (hafter r hr)
  rw [List.append_assoc]
  exact ⟨ts, hts, hread source pos ts _ _ hfirst hsecond⟩

/-- A token is read again. -/
theorem Rereads.token {w : List Char} {kind : TokenKind} (hw : w ≠ [])
    (hhead : begins isSeparator w = false)
    (hlongest : ∀ r, after r → longest (w ++ r) = (kind, w.length)) :
    Rereads w after (fun _ => IsToken kind w) :=
  fun _ _ r _ hk hr => ⟨_, .token hw hhead (hlongest r hr) hk, rfl⟩

theorem Rereads.nil (h : ∀ source pos r k, Scans pos r k → after r → read source pos k ⟨k, pos⟩) :
    Rereads [] after read :=
  fun source pos r k hk hr => ⟨k, hk, h source pos r k hk hr⟩

theorem Rereads.char {d : Char} {kind : TokenKind} (hd : isSeparator d = false)
    (hlongest : ∀ r, after r → longest (d :: r) = (kind, 1)) :
    Rereads [d] after (fun _ => IsToken kind [d]) :=
  .token (List.cons_ne_nil d []) hd hlongest

/-- A blank before what is read again is passed over. -/
theorem Rereads.blank (h : Rereads written after read)
    (hread : ∀ source pos ts c, read source (pos + 1) ts c → read' source pos ts c) :
    Rereads (' ' :: written) after read' := by
  intro source pos r k hk hr
  have hsize : byteLength (' ' :: written) = 1 + byteLength written := rfl
  rw [hsize, ← Nat.add_assoc] at hk ⊢
  obtain ⟨ts, hts, hread'⟩ := h source (pos + 1) r k hk hr
  exact ⟨ts, .blank rfl hts, hread source pos ts _ hread'⟩

end

/-! ## How pieces begin -/

section

variable {source : List Char} {c c' : Cursor}

theorem Reads.opensAtom {n : Node} (h : Reads source (.atom n) c c') :
    ∃ kind, c.kind? = some kind ∧ kind.opensAtom = true := by
  obtain ⟨ts, stop⟩ := c
  cases h with
  | @literal t rest n _ _ _ hc hn hcall hflavors =>
    obtain rfl : ts = t :: rest := hc
    refine ⟨t.kind, rfl, ?_⟩
    unfold Token.literal? at hn
    split at hn
    iterate 5
      next hkind =>
        rw [hkind]
        rfl
    cases hn
  | @callEmpty t rest _ _ _ hc hkind | @call t rest _ _ _ _ _ hc hkind
  | @group t rest _ _ _ _ _ hc hkind | @pool t _ rest _ _ _ _ _ _ _ hc hkind =>
    obtain rfl : ts = t :: rest := hc
    exact ⟨t.kind, rfl, by rw [hkind]; rfl⟩

theorem Reads.operand_opensAtom {n : Node} (h : Reads source (.operand n) c c') :
    ∃ kind, c.kind? = some kind ∧ kind.opensAtom = true := by
  generalize hp : Piece.operand n = p at h
  cases h with
  | operand hfirst _ => exact hfirst.opensAtom
  | _ => cases hp

theorem Reads.expression_opens {nodes : List Node} (h : Reads source (.expression nodes) c c') :
    ∃ kind, c.kind? = some kind ∧ (kind.opensAtom = true ∨ kind = .plus ∨ kind = .minus) := by
  cases h with
  | expression hsigns hn _ =>
    obtain ⟨kind, hkind, hopens⟩ := hn.operand_opensAtom
    by_cases hplus : c.kind? = some .plus
    · exact ⟨.plus, hplus, .inr (.inl rfl)⟩
    · by_cases hminus : c.kind? = some .minus
      · exact ⟨.minus, hminus, .inr (.inr rfl)⟩
      · rw [signs, signRun_of_kind? hplus hminus] at hsigns
        cases hsigns
        exact ⟨kind, hkind, .inl hopens⟩

theorem Reads.list_opens {subs : List SubFormula} (h : Reads source (.list subs) c c') :
    ∃ kind, c.kind? = some kind ∧ (kind.opensAtom = true ∨ kind = .plus ∨ kind = .minus) := by
  cases h with
  | listLast hs _ | listMore hs _ _ =>
    cases hs with
    | sub hnodes => exact hnodes.expression_opens

/-- A list does not begin with what closes it. -/
theorem Reads.list_not_isAt {subs : List SubFormula} {kind : TokenKind}
    (h : Reads source (.list subs) c c') (hkind : kind = .rightParen ∨ kind = .rightBrace) :
    c.isAt kind = false := by
  obtain ⟨kind', hc, hopens⟩ := h.list_opens
  have hne : kind' ≠ kind := by
    rintro rfl
    rcases hkind with rfl | rfl <;> rcases hopens with hopens | hopens | hopens <;> cases hopens
  simp [Cursor.isAt, hc, hne]

/-- A run of signs ends before an operand. -/
theorem Reads.signRun_operand {n : Node} (h : Reads source (.operand n) c c')
    (soFar : Option Operator) : signRun soFar c.rest c.stop = (soFar, c) := by
  obtain ⟨kind, hkind, hopens⟩ := h.operand_opensAtom
  refine signRun_of_kind? ?_ ?_ soFar <;>
  · rw [hkind]
    rintro ⟨⟩
    cases hopens

end

/-! ## Terms with their flavors -/

/-- A node is one term, and of the term's characters a node with the same terms is built,
    wherever what follows may stand before the text `cs`. -/
structure TermWritten (n : Node) (cs : List Char)
    (built : List Char → Nat → List Token → Node → Cursor → Prop) (t : Term) : Prop where
  terms : ∀ first, Term.ofNode first n = .ok [t]
  operand : t.operator? = none
  reread : Rereads t.formula.toList (Follows cs) fun source pos ts c =>
    ∃ b, SameTerms n b ∧ built source pos ts b c

/-- A node to which flavors may still be added is one term, and of the term's characters a
    node with the same terms is read up to its flavors. -/
structure BareWritten (n : Node) (cs : List Char)
    (built : List Char → Nat → List Token → Node → Cursor → Prop) (t : Term) : Prop where
  terms : ∀ first, Term.ofNode first n = .ok [t]
  operand : t.operator? = none
  plain : t.annotations.flavor = none
  reread : Rereads t.formula.toList (EndsAtom cs) fun source pos ts c =>
    ∃ b, SameTerms n b ∧ ∀ b' c', withFlavors source b c = .ok (b', c') → built source pos ts b' c'

section

variable {n n' : Node} {cs : List Char} {t : Term} {c c' : Cursor} {source : List Char}
  {built : List Char → Nat → List Token → Node → Cursor → Prop}

theorem BareWritten.alone (h : BareWritten n cs built t) : TermWritten n cs built t where
  terms := h.terms
  operand := h.operand
  reread := by
    intro source pos r k hk hr
    obtain ⟨ts, hts, b, hsame, hbuilt⟩ := h.reread source pos r k hk hr.toEndsAtom
    exact ⟨ts, hts, b, hsame, hbuilt b _ (withFlavors_of_plain hk hr.plain b)⟩

theorem BareWritten.flavored (h : BareWritten n cs built t) {flavor : String}
    (hne : flavor.toList ≠ []) (hinner : ∀ d ∈ flavor.toList, d ≠ ']') (cs' : List Char) :
    TermWritten (.annotated n flavor) cs' built (t.setFlavor (some flavor)) where
  terms := by
    intro first
    show (do let terms ← Term.ofNode first n; return Term.flavorLast flavor terms) = _
    rw [h.terms]
    rfl
  operand := by rw [Term.operator?_setFlavor, h.operand]
  reread := by
    intro source pos r k hk hr
    rw [Term.formula_setFlavor h.operand h.plain, byteLength_append, ← Nat.add_assoc] at hk ⊢
    -- the bracket ends every token, so what followed before does not matter
    obtain ⟨ts, hts, hflavors⟩ := @withFlavors_of_flavor _ r k source flavor hne hinner hk hr.plain
    have hlike : EndsLike cs ('[' :: flavor.toList ++ [']'] ++ r) := by
      refine .of_isDelimiter fun d hd => ?_
      cases hd
      rfl
    obtain ⟨ts', hts', b, hsame, hbuilt⟩ := h.reread source pos _ ts hts ⟨hlike, fun _ => rfl⟩
    rw [List.append_assoc]
    exact ⟨ts', hts', .annotated b flavor, hsame.annotated flavor, hbuilt _ _ (hflavors b)⟩

/-- A term keeps the flavors that follow it. -/
theorem BareWritten.withFlavors (h : BareWritten n cs built t) (hc : c.Before cs)
    (hflavors : Formula.withFlavors source n c = .ok (n', c')) :
    ∃ cs' t' flavors, c'.Before cs' ∧ TermWritten n' cs' built t' ∧
      t'.formula.toList = t.formula.toList ++ flavors ∧
      (n' = n ∨ ∃ flavor, n' = .annotated n flavor) := by
  obtain ⟨⟨flavors, c₁⟩, hrun, heq⟩ := bind_eq_ok.mp hflavors
  obtain ⟨cs', hbefore, hnone, hinner⟩ := Cursor.Before.flavorRun hc hrun
  cases flavors with
  | nil =>
    cases heq
    obtain ⟨-, rfl⟩ := hnone rfl
    exact ⟨cs', t, [], hbefore, h.alone, (List.append_nil _).symm, .inl rfl⟩
  | cons flavor more =>
    cases heq
    have hne := toList_intercalate_ne_nil (List.cons_ne_nil flavor more) fun f hf => (hinner f hf).1
    have hbracket := not_mem_intercalate (show ']' ≠ ' ' by decide) fun f hf => (hinner f hf).2
    exact ⟨cs', _, _, hbefore, h.flavored hne hbracket cs',
      Term.formula_setFlavor h.operand h.plain _, .inr ⟨_, rfl⟩⟩

end

end DiceNotation.Formula
