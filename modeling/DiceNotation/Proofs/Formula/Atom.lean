/-
  DiceNotation.Proofs.Formula.Atom

  Atoms that are read, written and read again.

  A literal, a call, a group or a pool is one term, and of the term's characters an
  atom with the same terms is read (`AtomWritten`), which begins with a token of the
  same class. What stands within brackets is assumed to be read again.
-/

import DiceNotation.Proofs.Formula.Rewrite

namespace DiceNotation.Formula

open Text

/-! ## Atoms -/

/-- An atom is read that begins right at a position with a token of a class. -/
def AtomRead (kind : Option TokenKind) (source : List Char) (pos : Nat) (ts : List Token) (b : Node)
    (c : Cursor) : Prop :=
  Cursor.isAdjacent ⟨ts, pos⟩ = true ∧ Cursor.kind? ⟨ts, pos⟩ = kind ∧
    ∀ stop, Reads source (.atom b) ⟨ts, stop⟩ c

/-- An atom between the texts `cs` and `cs'` is written as a term. -/
structure AtomWritten (n : Node) (c : Cursor) (cs cs' : List Char) (t : Term) : Prop
    extends TermWritten n cs' (AtomRead c.kind?) t where
  legible : ∀ value, n = .number value → IsLegible value
  /-- What can be glued to text alone still stands right behind what it is glued to. -/
  opens : c.isAdjacent = true → c.Unpointed → ∀ kind, c.kind? = some kind →
    kind.isBehindText = true → ∀ r, Follows cs (t.formula.toList ++ r)

section

variable {n n' : Node} {cs cs₁ : List Char} {t : Term} {c c₁ c' : Cursor} {source : List Char}

/-- An atom is written with its flavors. -/
theorem AtomWritten.of_bare (h : BareWritten n cs₁ (AtomRead c.kind?) t) (hc : c₁.Before cs₁)
    (hflavors : withFlavors source n c₁ = .ok (n', c'))
    (hlegible : ∀ value, n = .number value → IsLegible value)
    (hopens : c.isAdjacent = true → c.Unpointed → ∀ kind, c.kind? = some kind →
      kind.isBehindText = true → ∀ r, Follows cs (t.formula.toList ++ r)) :
    ∃ cs', c'.Before cs' ∧ ∃ t', AtomWritten n' c cs cs' t' := by
  obtain ⟨cs', t', flavors, hbefore, hwritten, hformula, hn'⟩ := h.withFlavors hc hflavors
  refine ⟨cs', hbefore, t', hwritten, fun value hvalue => ?_,
    fun hadjacent hpoint kind hkind htext r => ?_⟩
  · obtain rfl | ⟨flavor, rfl⟩ := hn'
    · exact hlegible value hvalue
    · cases hvalue
  · rw [hformula, List.append_assoc]
    exact hopens hadjacent hpoint kind hkind htext _

end

/-! ## Literals -/

section

variable {n : Node} {t : Token} {r w : List Char} {term : Term}

/-- A literal is written as a token of its class that stands for the same node. -/
theorem BareWritten.of_literal {kind : TokenKind}
    (hterms : ∀ first, Term.ofNode first n = .ok [term]) (hoperand : term.operator? = none)
    (hplain : term.annotations.flavor = none) (hformula : term.formula.toList = w)
    (hhead : begins isSeparator w = false)
    (hliteral : ∀ span, Token.literal? ⟨kind, w, span⟩ = some n)
    (hlongest : ∀ r', EndsLike r r' → longest (w ++ r') = (kind, w.length)) (hne : w ≠ [])
    (hcall : kind = .identifier → begins (· == '(') r = false) :
    BareWritten n r (AtomRead (some kind)) term where
  terms := hterms
  operand := hoperand
  plain := hplain
  reread := by
    rw [hformula]
    intro source pos r' k hk hr'
    refine ⟨_, .token hne hhead (hlongest r' hr'.ends) hk, n, .refl n, fun b' c' hflavors => ?_⟩
    refine ⟨beq_self_eq_true _, rfl, fun stop => ?_⟩
    exact .literal rfl (hliteral _)
      (fun hkind => opensCall_eq_false hk (hr'.call (hcall hkind))) hflavors

theorem toList_numeric (value : Number) :
    (Term.numeric value {}).formula.toList = value.chars := String.toList_ofList

theorem BareWritten.of_number (hlongest : longest (t.text ++ r) = (.number, t.text.length))
    {value : Number} (hlegible : IsLegible value)
    (hgoes : '.' ∈ t.text → (∃ n, value = .int n) → begins continuesNumber r = false) :
    BareWritten (.number value) r (AtomRead (some .number)) (.numeric value {}) := by
  obtain ⟨c, rest, hchars, hc⟩ := hlegible.exists_digit
  have hhead : begins isSeparator value.chars = false := by
    rw [hchars]
    exact isSeparator_of_isDigit hc
  have hne : value.chars ≠ [] := by
    rw [hchars]
    exact List.cons_ne_nil c rest
  refine .of_literal (fun first => rfl) rfl rfl (toList_numeric value) hhead (fun span => ?_)
    (number_rewritten hlongest hlegible hgoes) hne fun h => by cases h
  rw [Token.literal?, hlegible.literal]
  rfl

theorem BareWritten.of_dice (hlongest : longest (t.text ++ r) = (.dice, t.text.length))
    (hn : diceOfLiteral? t.text = some n) :
    ∃ term, BareWritten n r (AtomRead (some .dice)) term ∧ ∀ value, n ≠ .number value := by
  obtain ⟨count, d, ms, rfl, hread, hlocal⟩ := dice_rewritten hlongest hn
  obtain ⟨c, rest, hchars, hc⟩ := natChars_eq_cons count
  have hformula :
      (Term.dice { number := count, denomination := d, modifiers := ms }).formula.toList =
        diceChars count d ms := by
    show (natText count ++ d.text ++ modifiersText ms).toList = diceChars count d ms
    rw [String.toList_append, String.toList_append, toList_text, natText, String.toList_ofList,
      diceChars, List.append_assoc, List.cons_append]
  have hhead : begins isSeparator (diceChars count d ms) = false := by
    rw [diceChars, hchars]
    exact isSeparator_of_isDigit hc
  refine ⟨_, .of_literal (fun first => rfl) rfl rfl hformula hhead (fun span => ?_) hlocal ?_
    (fun h => by cases h), by rintro value ⟨⟩⟩
  · rw [Token.literal?, hread]
  · rw [diceChars, hchars]
    exact List.cons_ne_nil _ _

/-- Text that is an atom by itself is written as it is. -/
theorem BareWritten.of_text (hlongest : longest (t.text ++ r) = (t.kind, t.text.length))
    (hhead : begins isSeparator t.text = false) (hne : t.text ≠ [])
    (hkind : t.kind = .dicePrefix ∨ t.kind = .dataReference ∨ t.kind = .identifier)
    (hcall : t.kind = .identifier → begins (· == '(') r = false) :
    BareWritten (.text (String.ofList t.text)) r (AtomRead (some t.kind))
      (.text (String.ofList t.text) {} false) := by
  have hbracket : begins (· == '[') t.text = false := by
    rw [← begins_append hne r]
    rcases hkind with h | h | h <;> rw [h] at hlongest <;>
      exact begins_bracket_eq_false hlongest rfl fun _ => rfl
  have hknown : t.kind ≠ .unrecognized := by
    rcases hkind with h | h | h <;> rw [h] <;> decide
  refine .of_literal (fun first => rfl) rfl rfl String.toList_ofList hhead (fun span => ?_)
    (fun r' hlike => longest_of_endsLike hlongest hknown hbracket hlike) hne hcall
  rcases hkind with h | h | h <;> rw [h] <;> rfl

end

section

variable {n n' : Node} {t : Token} {rest : List Token} {c c' : Cursor} {cs source : List Char}

/-- A literal is a number, dice or text. -/
theorem Token.literal?_cases (hn : t.literal? = some n) :
    (t.kind = .number ∧ ∃ value, numberOfLiteral? t.text = some value ∧ n = .number value) ∨
      (t.kind = .dice ∧ diceOfLiteral? t.text = some n) ∨
      ((t.kind = .dicePrefix ∨ t.kind = .dataReference ∨ t.kind = .identifier) ∧
        n = .text (String.ofList t.text)) := by
  unfold Token.literal? at hn
  split at hn
  · next hkind =>
    obtain ⟨value, hvalue, rfl⟩ := Option.map_eq_some_iff.mp hn
    exact .inl ⟨hkind, value, hvalue, rfl⟩
  · next hkind => exact .inr (.inl ⟨hkind, hn⟩)
  · next hkind => exact .inr (.inr ⟨.inl hkind, (Option.some.inj hn).symm⟩)
  · next hkind => exact .inr (.inr ⟨.inr (.inl hkind), (Option.some.inj hn).symm⟩)
  · next hkind => exact .inr (.inr ⟨.inr (.inr hkind), (Option.some.inj hn).symm⟩)
  · cases hn

/-- Right behind an atom that is text stands no number with a point. -/
theorem Reads.unpointed (h : Reads source (.atom n) c c') (hc : c.Before cs)
    (htext : n.isText = true) : c'.Unpointed := by
  cases h with
  | @literal t rest n₁ _ _ _ hrest hn hcall hflavors =>
    refine hc.unpointed hrest ?_ hflavors htext
    obtain ⟨-, value, -, rfl⟩ | ⟨hkind, -⟩ | ⟨hkind | hkind | hkind, -⟩ := Token.literal?_cases hn
    · cases (withFlavors_isText hflavors htext).1
    all_goals
      rw [hkind]
      rfl
  | callEmpty _ _ _ _ hflavors | call _ _ _ _ _ _ hflavors | group _ _ _ _ hflavors
  | pool _ _ _ _ _ _ _ hflavors => cases (withFlavors_isText hflavors htext).1

/-- A literal is written as a literal of its class, and a number begins with a digit again. -/
theorem literal_rewritten {r : List Char}
    (hlongest : longest (t.text ++ r) = (t.kind, t.text.length))
    (hhead : begins isSeparator t.text = false) (hne : t.text ≠ [])
    (hlegible : t.LegibleBefore r) (hn : t.literal? = some n)
    (hcall : t.kind = .identifier → begins (· == '(') r = false) :
    ∃ term, BareWritten n r (AtomRead (some t.kind)) term ∧
      (∀ value, n = .number value → IsLegible value) ∧
      (t.kind.isBehindText = true → t.hasPoint = false →
        ∀ r', Follows (t.text ++ r) (term.formula.toList ++ r')) := by
  obtain ⟨hkind, value, -, rfl⟩ | ⟨hkind, hdice⟩ | ⟨hkind, rfl⟩ := Token.literal?_cases hn
  · rw [hkind] at hlongest ⊢
    have hvalue := hlegible.number value hn
    refine ⟨_, .of_number hlongest hvalue (hlegible.number_goes hn), fun value' heq => ?_,
      fun _ hpoint r' => ?_⟩
    · cases heq
      exact hvalue
    · have hnone : '.' ∉ t.text := by simpa [Token.hasPoint, hkind] using hpoint
      obtain ⟨d, rest, htext⟩ := List.exists_cons_of_ne_nil hne
      obtain ⟨e, more, hchars, he⟩ := hvalue.exists_digit
      have hd := isDigit_of_number hlongest hnone d (by simp [htext])
      rw [toList_numeric, hchars, htext]
      exact .of_isDigit hd he _ _
  · rw [hkind] at hlongest ⊢
    obtain ⟨term, hbare, hnumber⟩ := BareWritten.of_dice hlongest hdice
    refine ⟨term, hbare, fun value hvalue => absurd hvalue (hnumber value), fun htext => ?_⟩
    cases htext
  · refine ⟨_, .of_text hlongest hhead hne hkind hcall, by rintro value ⟨⟩, fun htext => ?_⟩
    rcases hkind with h | h | h <;>
    · rw [h] at htext
      cases htext

theorem AtomWritten.literal (hbefore : c.Before cs) (hc : c.rest = t :: rest)
    (hn : t.literal? = some n)
    (hcall : t.kind = .identifier → Cursor.opensCall ⟨rest, t.span.stop⟩ = false)
    (hflavors : withFlavors source n ⟨rest, t.span.stop⟩ = .ok (n', c')) :
    ∃ cs', c'.Before cs' ∧ ∃ term, AtomWritten n' c cs cs' term := by
  obtain ⟨ts, stop⟩ := c
  obtain rfl : ts = t :: rest := hc
  obtain ⟨blanks, r, rfl, hne, hhead, hlongest, hadjacent, hlegible, hr⟩ := hbefore.cons
  obtain ⟨term, hbare, hnumber, hfollows⟩ := literal_rewritten hlongest hhead hne hlegible hn
    fun hkind => begins_paren_of_opensCall hr.scans (hcall hkind)
  refine AtomWritten.of_bare hbare hr hflavors hnumber fun hadj hpoint kind hkind htext r' => ?_
  cases hkind
  rw [hadjacent hadj]
  exact hfollows htext (hpoint hadj t rfl) r'

end

/-! ## Formulas within a formula -/

/-- A formula within a formula is written as the formula of its roll. -/
def SubWritten (s : SubFormula) (roll : Roll) : Prop :=
  Roll.ofSub s = .ok roll ∧ Rereads roll.formula.toList EndsRow fun source _ ts c =>
    ∀ stop, ∃ s', Roll.ofSub s' = .ok roll ∧ Reads source (.sub s') ⟨ts, stop⟩ c

/-- A text before which a list ends. -/
def EndsList (r : List Char) : Prop := ∃ c rest, r = c :: rest ∧ (c = ')' ∨ c = '\x7d')

/-- The formulas of rolls with commas between them. -/
def listChars (rolls : List Roll) : List Char :=
  (String.intercalate ", " (rolls.map (·.formula))).toList

/-- Formulas in a list are written with commas between them. -/
def ListWritten (subs : List SubFormula) (rolls : List Roll) : Prop :=
  Roll.ofSubs subs = .ok rolls ∧ rolls ≠ [] ∧
    Rereads (listChars rolls) EndsList fun source _ ts c =>
      ∀ stop, ∃ subs', Roll.ofSubs subs' = .ok rolls ∧ Reads source (.list subs') ⟨ts, stop⟩ c

section

variable {s : SubFormula} {subs : List SubFormula} {roll : Roll} {rolls : List Roll}

theorem EndsList.endsRow {r : List Char} (h : EndsList r) : EndsRow r := by
  obtain ⟨c, rest, rfl, rfl | rfl⟩ := h
  · exact .cons (.inl rfl) rest
  · exact .cons (.inr (.inr rfl)) rest

theorem Roll.ofSubs_cons (s : SubFormula) (subs : List SubFormula) :
    Roll.ofSubs (s :: subs) = (do
      let roll ← Roll.ofSub s
      let rolls ← Roll.ofSubs subs
      return roll :: rolls) := rfl

/-- A token that is read next is passed. -/
theorem IsToken.isAt {kind : TokenKind} {w : List Char} {c c' : Cursor}
    (h : IsToken kind w c.stop c.rest c') : c.isAt kind = true ∧ c.skip = c' := by
  obtain ⟨ts, stop⟩ := c
  obtain rfl : ts = ⟨kind, w, ⟨stop, c'.stop⟩⟩ :: c'.rest := h
  exact ⟨by simp [Cursor.isAt, Cursor.kind?], rfl⟩

theorem not_isAt_of_endsList {r : List Char} {k : List Token} {stop : Nat} (hr : EndsList r)
    (h : Scans stop r k) : Cursor.isAt ⟨k, stop⟩ .comma = false := by
  obtain ⟨c, rest, rfl, hc⟩ := hr
  have hsep : isSeparator c = false := by rcases hc with rfl | rfl <;> rfl
  obtain ⟨t, k, rfl, -, hlongest⟩ := h.head_inv hsep
  have hkind : t.kind = (longest (c :: rest)).1 := by rw [hlongest]
  rw [Cursor.isAt, Cursor.kind?, List.head?_cons, Option.map_some, hkind]
  rcases hc with rfl | rfl
  · rfl
  · rw [longest_rightBrace]
    rfl

theorem ListWritten.single (h : SubWritten s roll) : ListWritten [s] [roll] := by
  obtain ⟨hroll, hread⟩ := h
  have hrolls : ∀ s', Roll.ofSub s' = .ok roll → Roll.ofSubs [s'] = .ok [roll] := by
    intro s' hs'
    rw [Roll.ofSubs_cons, hs']
    rfl
  refine ⟨hrolls s hroll, List.cons_ne_nil _ _, ?_⟩
  rw [show listChars [roll] = roll.formula.toList from
    congrArg String.toList String.intercalate_singleton]
  intro source pos r k hk hr
  obtain ⟨ts, hts, hsub⟩ := hread source pos r k hk hr.endsRow
  refine ⟨ts, hts, fun stop => ?_⟩
  obtain ⟨s', hs', hreads⟩ := hsub stop
  exact ⟨[s'], hrolls s' hs', .listLast hreads (not_isAt_of_endsList hr hk)⟩

theorem ListWritten.cons (h : SubWritten s roll) (hmore : ListWritten subs rolls) :
    ListWritten (s :: subs) (roll :: rolls) := by
  obtain ⟨hroll, hread⟩ := h
  obtain ⟨hrolls, hne, hlist⟩ := hmore
  have hall : ∀ s' subs', Roll.ofSub s' = .ok roll → Roll.ofSubs subs' = .ok rolls →
      Roll.ofSubs (s' :: subs') = .ok (roll :: rolls) := by
    intro s' subs' hs' hsubs'
    rw [Roll.ofSubs_cons, hs', ok_bind, hsubs']
    rfl
  have hchars : listChars (roll :: rolls) =
      roll.formula.toList ++ ([','] ++ (' ' :: listChars rolls)) := by
    rw [listChars, List.map_cons, String.intercalate_cons_of_ne_nil (by simpa using hne),
      String.toList_append, String.toList_append, List.append_assoc]
    rfl
  refine ⟨hall s subs hroll hrolls, List.cons_ne_nil _ _, ?_⟩
  rw [hchars]
  have hcomma : Rereads [','] (fun _ => True) (fun _ => IsToken .comma [',']) :=
    .char rfl fun _ _ => rfl
  have hblank : Rereads (' ' :: listChars rolls) EndsList fun source _ ts c =>
      ∀ stop, ∃ subs', Roll.ofSubs subs' = .ok rolls ∧ Reads source (.list subs') ⟨ts, stop⟩ c :=
    hlist.blank fun source pos ts c hread => hread
  have htail : Rereads ([','] ++ (' ' :: listChars rolls)) EndsList fun source pos ts c =>
      ∃ middle subs', IsToken .comma [','] pos ts middle ∧ Roll.ofSubs subs' = .ok rolls ∧
        Reads source (.list subs') middle c := by
    refine hcomma.append hblank (fun _ _ => trivial) fun source pos ts middle c htoken hread => ?_
    obtain ⟨subs', hsubs', hreads⟩ := hread middle.stop
    exact ⟨middle, subs', htoken, hsubs', hreads⟩
  refine hread.append htail (fun r _ => .cons (.inr (.inl rfl)) _) ?_
  intro source pos ts middle c hsub ⟨next, subs', htoken, hsubs', hreads⟩ stop
  obtain ⟨s', hs', hs⟩ := hsub stop
  obtain ⟨hat, rfl⟩ := htoken.isAt
  exact ⟨s' :: subs', hall s' subs' hs' hsubs', .listMore hs hat hreads⟩

end

/-! ## Brackets -/

section

variable {subs : List SubFormula} {rolls : List Roll}

theorem Term.ofNode_parenthetical {s : SubFormula} {roll : Roll} (h : Roll.ofSub s = .ok roll)
    (first : Bool) :
    Term.ofNode first (.parenthetical s) = .ok [.parenthetical roll.formula roll {}] := by
  rw [Term.ofNode, h]
  rfl

theorem Term.ofNode_function (h : Roll.ofSubs subs = .ok rolls) (first : Bool) (name : String) :
    Term.ofNode first (.function name subs) =
      .ok [.function name (rolls.map (·.formula)) rolls none {}] := by
  rw [Term.ofNode, h]
  rfl

theorem Term.ofNode_pool (h : Roll.ofSubs subs = .ok rolls) (first : Bool) (ms : List Modifier) :
    Term.ofNode first (.pool subs ms) =
      .ok [.pool { items := rolls.map (·.formula), modifiers := ms } rolls] := by
  rw [Term.ofNode, h]
  rfl

end

section

variable {n' : Node} {t : Token} {rest : List Token} {c c₁ c' : Cursor}
  {cs cs₁ source : List Char}

/-- What is read again within brackets is read again with the closing one. -/
theorem SubWritten.closed {s : SubFormula} {roll : Roll} (h : SubWritten s roll)
    (after : List Char → Prop) :
    Rereads (roll.formula.toList ++ [')']) after fun source _ ts c =>
      ∀ stop, ∃ s' c₁, Roll.ofSub s' = .ok roll ∧ Reads source (.sub s') ⟨ts, stop⟩ c₁ ∧
        c₁.isAt .rightParen = true ∧ c₁.skip = c := by
  have hclose : Rereads [')'] after (fun _ => IsToken .rightParen [')']) := .char rfl fun _ _ => rfl
  refine h.2.append hclose (fun r _ => .cons (.inl rfl) r) ?_
  intro source pos ts middle c hsub htoken stop
  obtain ⟨s', hs', hs⟩ := hsub stop
  obtain ⟨hat, hskip⟩ := htoken.isAt
  exact ⟨s', middle, hs', hs, hat, hskip⟩

theorem BareWritten.group {s : SubFormula} {roll : Roll} (h : SubWritten s roll) (cs : List Char) :
    BareWritten (.parenthetical s) cs (AtomRead (some .leftParen))
      (.parenthetical roll.formula roll {}) where
  terms := Term.ofNode_parenthetical h.1
  operand := rfl
  plain := rfl
  reread := by
    have hopen : Rereads ['('] (fun _ => True) (fun _ => IsToken .leftParen ['(']) :=
      .char rfl fun _ _ => rfl
    have hformula : (Term.parenthetical roll.formula roll {}).formula.toList =
        ['('] ++ (roll.formula.toList ++ [')']) := by
      show ("(" ++ roll.formula ++ ")").toList = _
      rw [String.toList_append, String.toList_append, List.append_assoc]
      rfl
    rw [hformula]
    refine hopen.append (h.closed _) (fun _ _ => trivial) ?_
    rintro source pos ts middle c rfl hinner
    obtain ⟨s', c₁, hs', hs, hat, rfl⟩ := hinner middle.stop
    refine ⟨.parenthetical s', .of_terms (by rintro _ ⟨⟩) (by rintro _ ⟨⟩) (fun first => ?_) rfl,
      fun b' c' hflavors => ?_⟩
    · rw [Term.ofNode_parenthetical hs', Term.ofNode_parenthetical h.1]
    · exact ⟨beq_self_eq_true _, rfl, fun stop => .group rfl rfl hs hat hflavors⟩

/-- Arguments and the bracket that closes them are read. -/
def ArgumentsRead (rolls : List Roll) (source : List Char) (ts : List Token) (c : Cursor) : Prop :=
  ∀ stop, ∃ subs, Roll.ofSubs subs = .ok rolls ∧
    ((subs = [] ∧ Cursor.isAt ⟨ts, stop⟩ .rightParen = true ∧ Cursor.skip ⟨ts, stop⟩ = c) ∨
      Cursor.isAt ⟨ts, stop⟩ .rightParen = false ∧ ∃ c₁, Reads source (.list subs) ⟨ts, stop⟩ c₁ ∧
        c₁.isAt .rightParen = true ∧ c₁.skip = c)

theorem rereads_noArguments (after : List Char → Prop) :
    Rereads (listChars [] ++ [')']) after (fun source _ => ArgumentsRead [] source) := by
  have hclose : Rereads [')'] after (fun _ => IsToken .rightParen [')']) := .char rfl fun _ _ => rfl
  refine hclose.mono (fun _ h => h) ?_
  rintro source pos ts c rfl stop
  exact ⟨[], rfl, .inl ⟨rfl, rfl, rfl⟩⟩

theorem ListWritten.arguments {subs : List SubFormula} {rolls : List Roll}
    (h : ListWritten subs rolls) (after : List Char → Prop) :
    Rereads (listChars rolls ++ [')']) after (fun source _ => ArgumentsRead rolls source) := by
  have hclose : Rereads [')'] after (fun _ => IsToken .rightParen [')']) := .char rfl fun _ _ => rfl
  refine h.2.2.append hclose (fun r _ => ⟨')', r, rfl, .inl rfl⟩) ?_
  intro source pos ts middle c hlist htoken stop
  obtain ⟨subs', hsubs', hreads⟩ := hlist stop
  obtain ⟨hat, hskip⟩ := htoken.isAt
  exact ⟨subs', hsubs', .inr ⟨hreads.list_not_isAt (.inl rfl), middle, hreads, hat, hskip⟩⟩

/-- A call is written as its name with the arguments in parentheses. -/
theorem BareWritten.call {subs : List SubFormula} {rolls : List Roll} {r : List Char}
    (hlongest : longest (t.text ++ r) = (.identifier, t.text.length))
    (hhead : begins isSeparator t.text = false) (hne : t.text ≠ [])
    (hrolls : Roll.ofSubs subs = .ok rolls)
    (harguments : ∀ after, Rereads (listChars rolls ++ [')']) after
      (fun source _ => ArgumentsRead rolls source)) (cs : List Char) :
    BareWritten (.function (String.ofList t.text) subs) cs (AtomRead (some .identifier))
      (.function (String.ofList t.text) (rolls.map (·.formula)) rolls none {}) where
  terms := fun first => Term.ofNode_function hrolls first _
  operand := rfl
  plain := rfl
  reread := by
    have hbracket : begins (· == '[') t.text = false := by
      rw [← begins_append hne r]
      exact begins_bracket_eq_false hlongest rfl fun _ => rfl
    have hname : Rereads t.text (fun r' => r'.head? = some '(')
        (fun _ => IsToken .identifier t.text) := by
      refine .token hne hhead fun r' hr' => longest_of_endsLike hlongest (by decide) hbracket ?_
      refine .of_isDelimiter fun d hd => ?_
      rw [hr'] at hd
      cases hd
      rfl
    have hopen : Rereads ['('] (fun _ => True) (fun _ => IsToken .leftParen ['(']) :=
      .char rfl fun _ _ => rfl
    have hformula : (Term.function (String.ofList t.text) (rolls.map (·.formula)) rolls none
        {}).formula.toList = t.text ++ (['('] ++ (listChars rolls ++ [')'])) := by
      show (String.ofList t.text ++ "(" ++ String.intercalate ", " (rolls.map (·.formula)) ++
        ")").toList = _
      rw [String.toList_append, String.toList_append, String.toList_append, String.toList_ofList,
        List.append_assoc, List.append_assoc]
      rfl
    have hcall : ∀ after, Rereads (['('] ++ (listChars rolls ++ [')'])) after
        fun source pos ts c => ∃ middle, IsToken .leftParen ['('] pos ts middle ∧
          ArgumentsRead rolls source middle.rest c :=
      fun after => hopen.append (harguments after) (fun _ _ => trivial)
        fun source pos ts middle c htoken hread => ⟨middle, htoken, hread⟩
    rw [hformula]
    refine hname.append (hcall _) (fun _ _ => rfl) ?_
    rintro source pos ts middle c rfl ⟨next, hparen, hread⟩
    obtain ⟨subs', hsubs', hreads⟩ := hread next.stop
    have hadjacent : middle.isAdjacent = true := by
      rw [Cursor.isAdjacent, show middle.rest = _ from hparen]
      exact beq_self_eq_true _
    obtain ⟨hat, rfl⟩ := hparen.isAt
    have hopens : Cursor.opensCall middle = true := Bool.and_eq_true_iff.mpr ⟨hadjacent, hat⟩
    refine ⟨.function (String.ofList t.text) subs',
      .of_terms (by rintro _ ⟨⟩) (by rintro _ ⟨⟩) (fun first => ?_) rfl,
      fun b' c' hflavors => ⟨beq_self_eq_true _, rfl, fun stop => ?_⟩⟩
    · rw [Term.ofNode_function hsubs', Term.ofNode_function hrolls]
    · obtain ⟨rfl, hempty, rfl⟩ | ⟨hsome, c₁, hlist, hclose, rfl⟩ := hreads
      · exact .callEmpty rfl rfl hopens hempty hflavors
      · exact .call rfl rfl hopens hsome hlist hclose hflavors

/-- A pool is written as its items in braces with the modifiers behind them. -/
theorem BareWritten.pool {subs : List SubFormula} {rolls : List Roll} {ms : List Modifier}
    (hlongest : longest (t.text ++ cs) = (.rightBrace, t.text.length))
    (hms : Modifier.ofSuffix .pool (t.text.drop 1) = .ok ms) (h : ListWritten subs rolls) :
    BareWritten (.pool subs ms) cs (AtomRead (some .leftBrace))
      (.pool { items := rolls.map (·.formula), modifiers := ms } rolls) where
  terms := fun first => Term.ofNode_pool h.1 first ms
  operand := rfl
  plain := rfl
  reread := by
    obtain ⟨suffix, htext⟩ := rightBrace_parts hlongest
    have hbrace : Rereads t.text (EndsAtom cs) (fun _ => IsToken .rightBrace t.text) := by
      refine .token (by rw [htext]; exact List.cons_ne_nil _ _) (by rw [htext]; rfl) fun r hr => ?_
      exact longest_of_endsLike hlongest (by decide) (by rw [htext]; rfl) hr.ends
    have hopen : Rereads ['\x7b'] (fun _ => True) (fun _ => IsToken .leftBrace ['\x7b']) :=
      .char rfl fun _ _ => rfl
    have hformula : (Term.pool { items := rolls.map (·.formula), modifiers := ms }
        rolls).formula.toList = ['\x7b'] ++ (listChars rolls ++ t.text) := by
      show ("\x7b" ++ String.intercalate ", " (rolls.map (·.formula)) ++ "\x7d" ++
        modifiersText ms).toList = _
      rw [String.toList_append, String.toList_append, String.toList_append, List.append_assoc,
        List.append_assoc, Modifier.modifiersText_of_ofSuffix hms, htext]
      rfl
    have hitems : Rereads (listChars rolls ++ t.text) (EndsAtom cs) fun source pos ts c =>
        ∀ stop, ∃ subs' c₁, Roll.ofSubs subs' = .ok rolls ∧
          Reads source (.list subs') ⟨ts, stop⟩ c₁ ∧
          IsToken .rightBrace t.text c₁.stop c₁.rest c := by
      refine h.2.2.append hbrace (fun r _ => ⟨'\x7d', suffix ++ r, by rw [htext]; rfl, .inr rfl⟩) ?_
      intro source pos ts middle c hlist htoken stop
      obtain ⟨subs', hsubs', hreads⟩ := hlist stop
      exact ⟨subs', middle, hsubs', hreads, htoken⟩
    rw [hformula]
    refine hopen.append hitems (fun _ _ => trivial) ?_
    rintro source pos ts middle c rfl hread
    obtain ⟨subs', c₁, hsubs', hlist, htoken⟩ := hread middle.stop
    refine ⟨.pool subs' ms, .of_terms (by rintro _ ⟨⟩) (by rintro _ ⟨⟩) (fun first => ?_) rfl,
      fun b' c' hflavors => ⟨beq_self_eq_true _, rfl, fun stop => ?_⟩⟩
    · rw [Term.ofNode_pool hsubs', Term.ofNode_pool h.1]
    · exact .pool rfl rfl (hlist.list_not_isAt (.inr rfl)) hlist htoken rfl hms hflavors

theorem AtomWritten.group {s : SubFormula} {roll : Roll} (hbefore : c.Before cs)
    (hc : c.rest = t :: rest) (hkind : t.kind = .leftParen) (h : SubWritten s roll)
    (hc₁ : c₁.Before cs₁)
    (hflavors : withFlavors source (.parenthetical s) c₁ = .ok (n', c')) :
    ∃ cs', c'.Before cs' ∧ ∃ term, AtomWritten n' c cs cs' term := by
  have hbare := BareWritten.group h cs₁
  rw [← hkind, ← Cursor.kind?_of_rest hc] at hbare
  refine AtomWritten.of_bare hbare hc₁ hflavors (by rintro _ ⟨⟩) fun hadjacent _ kind _ _ r => ?_
  obtain ⟨ts, stop⟩ := c
  obtain rfl : ts = t :: rest := hc
  obtain ⟨blanks, r', rfl, -, -, hlongest, hblanks, -, -⟩ := hbefore.cons
  rw [hkind] at hlongest
  obtain ⟨more, htext⟩ := eq_cons_of_begins (begins_paren_of_longest hlongest)
  rw [hblanks hadjacent, List.nil_append, htext]
  show Follows ('(' :: more) (("(" ++ roll.formula ++ ")").toList ++ r)
  rw [String.toList_append, String.toList_append, List.append_assoc, List.append_assoc]
  exact .of_head rfl (by decide) _ _

theorem AtomWritten.call {subs : List SubFormula} {rolls : List Roll} (hbefore : c.Before cs)
    (hc : c.rest = t :: rest) (hkind : t.kind = .identifier) (hrolls : Roll.ofSubs subs = .ok rolls)
    (harguments : ∀ after, Rereads (listChars rolls ++ [')']) after
      (fun source _ => ArgumentsRead rolls source))
    (hc₁ : c₁.Before cs₁)
    (hflavors : withFlavors source (.function (String.ofList t.text) subs) c₁ = .ok (n', c')) :
    ∃ cs', c'.Before cs' ∧ ∃ term, AtomWritten n' c cs cs' term := by
  have hkind? : c.kind? = some .identifier := by rw [Cursor.kind?_of_rest hc, hkind]
  obtain ⟨ts, stop⟩ := c
  obtain rfl : ts = t :: rest := hc
  obtain ⟨blanks, r, rfl, hne, hhead, hlongest, -, -, -⟩ := hbefore.cons
  rw [hkind] at hlongest
  have hbare := BareWritten.call hlongest hhead hne hrolls harguments cs₁
  rw [← hkind?] at hbare
  refine AtomWritten.of_bare hbare hc₁ hflavors (by rintro _ ⟨⟩) fun _ _ kind hk htext => ?_
  rw [hkind?] at hk
  cases hk
  cases htext

theorem AtomWritten.pool {closing : Token} {after : List Token} {subs : List SubFormula}
    {rolls : List Roll} {ms : List Modifier} (hc : c.rest = t :: rest) (hkind : t.kind = .leftBrace)
    (h : ListWritten subs rolls) (hc₁ : c₁.Before cs₁) (hclosing : c₁.rest = closing :: after)
    (hclose : closing.kind = .rightBrace)
    (hms : Modifier.ofSuffix .pool (closing.text.drop 1) = .ok ms)
    (hflavors : withFlavors source (.pool subs ms) ⟨after, closing.span.stop⟩ = .ok (n', c')) :
    ∃ cs', c'.Before cs' ∧ ∃ term, AtomWritten n' c cs cs' term := by
  have hkind? : c.kind? = some .leftBrace := by rw [Cursor.kind?_of_rest hc, hkind]
  obtain ⟨ts, stop⟩ := c₁
  obtain rfl : ts = closing :: after := hclosing
  obtain ⟨blanks, r, -, -, -, hlongest, -, -, hr⟩ := hc₁.cons
  rw [hclose] at hlongest
  have hbare := BareWritten.pool hlongest hms h
  rw [← hkind?] at hbare
  refine AtomWritten.of_bare hbare hr hflavors (by rintro _ ⟨⟩) fun _ _ kind hk htext => ?_
  rw [hkind?] at hk
  cases hk
  cases htext

end

end DiceNotation.Formula
