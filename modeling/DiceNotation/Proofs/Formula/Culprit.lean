/-
  DiceNotation.Proofs.Formula.Culprit

  What the errors of the reading functions are about.

  Every error has a culprit (`Culprit`): the end of the formula, one of its tokens,
  the braces of an empty pool or the modifier suffix of a token. The tokens to come
  at a cursor are the last ones of the formula (`Cursor.Within`), so a reading
  function finds its culprits there, and it gives a cursor from which this is true
  again (`Reporting`). Steps that run out change nothing about it.
-/

import DiceNotation.Proofs.Formula.Grammar

namespace DiceNotation.Formula

open Text

/-! ## Culprits -/

/-- The chunk of a modifier suffix that a fault is about. -/
def Fault.chunk? : Fault → Option String
  | .invalidModifier chunk => some chunk
  | _ => none

/-- The modifier suffix of a token, and the family that its modifiers are to be of. -/
def Token.suffix? (t : Token) : Option (Modifier.Family × List Char) :=
  match t.kind with
  | .dice =>
    (Denomination.ofFaces? (splitDice t.text).2.1).map fun d =>
      (.ofDenomination d, (splitDice t.text).2.2)
  | .rightBrace => some (.pool, t.text.drop 1)
  | _ => none

/-- The culprits of errors. -/
inductive Culprit (source : List Char) : SyntaxError → Prop where
  | formulaEnd {fault : Fault} (hfault : fault.chunk? = none) :
      Culprit source (errorAtEnd source fault)
  | token {t : Token} {fault : Fault} (ht : t ∈ tokens source) (hfault : fault.chunk? = none) :
      Culprit source (.atSpan source t.span fault)
  | emptyPool {opening closing : Token} {rest : List Token}
      (h : opening :: closing :: rest <:+ tokens source) :
      Culprit source (.atSpan source ⟨opening.span.start, closing.span.stop⟩ .emptyPool)
  | modifier {t : Token} {family : Modifier.Family} {suffix chunk : List Char}
      (ht : t ∈ tokens source) (hsuffix : t.suffix? = some (family, suffix))
      (hchunk : Modifier.ofSuffix family suffix = .error chunk) :
      Culprit source (modifierError source t.span.stop suffix chunk)

/-! ## Results with culprits -/

/-- A result of a kind, or an error with a culprit. -/
def Reported (source : List Char) {α : Type} (P : α → Prop) : Except SyntaxError α → Prop
  | .ok a => P a
  | .error e => Culprit source e

section

variable {source : List Char} {α β : Type} {P : α → Prop} {Q : β → Prop}

theorem Reported.bind {x : Except SyntaxError α} {f : α → Except SyntaxError β}
    (hx : Reported source P x) (hf : ∀ a, P a → Reported source Q (f a)) :
    Reported source Q (x >>= f) := by
  cases x with
  | error e => exact hx
  | ok a => exact hf a hx

/-- Whatever a result was, it is replaced by one of the kind that is wanted. -/
theorem Reported.andThen {x : Except SyntaxError α} {f : α → Except SyntaxError β}
    (hx : Reported source P x) (hf : ∀ a, Reported source Q (f a)) :
    Reported source Q (x >>= f) :=
  hx.bind fun a _ => hf a

end

/-! ## Tokens to come -/

/-- The tokens to come are the last ones of the formula. -/
def Cursor.Within (source : List Char) (c : Cursor) : Prop := c.rest <:+ tokens source

/-- A reading that ends at a cursor within the formula, or with an error that has a culprit. -/
abbrev EndsWithin (source : List Char) {α : Type} (x : Except SyntaxError (α × Cursor)) : Prop :=
  Reported source (fun r => r.2.Within source) x

section

variable {source : List Char} {c : Cursor} {t : Token} {ts : List Token} {stop : Nat}

theorem Cursor.Within.mem (h : c.Within source) (hc : c.rest = t :: ts) : t ∈ tokens source := by
  apply List.IsSuffix.mem _ h
  rw [hc]
  exact List.mem_cons_self

theorem Cursor.Within.next (h : c.Within source) (hc : c.rest = t :: ts) (stop : Nat) :
    Cursor.Within source ⟨ts, stop⟩ := by
  have hsuffix : t :: ts <:+ tokens source := hc ▸ h
  exact List.IsSuffix.trans (List.suffix_cons t ts) hsuffix

theorem Cursor.Within.skip (h : c.Within source) : c.skip.Within source := by
  obtain ⟨_ | ⟨t, rest⟩, stop⟩ := c
  · exact h
  · exact h.next rfl t.span.stop

theorem Cursor.Within.signRun (h : Cursor.Within source ⟨ts, stop⟩) (soFar : Option Operator) :
    (Formula.signRun soFar ts stop).2.Within source := by
  induction ts generalizing soFar stop with
  | nil => exact h
  | cons t rest ih =>
    unfold Formula.signRun
    split
    · exact ih (h.next rfl _) _
    · exact ih (h.next rfl _) _
    · exact h

theorem Cursor.Within.signs (h : c.Within source) : (Formula.signs c).2.Within source :=
  Cursor.Within.signRun h none

end

/-! ## Parts of reading functions -/

section

variable {source : List Char} {c : Cursor} {t : Token}

theorem culprit_unexpected (h : c.Within source) (expected : List TokenKind) :
    Culprit source (unexpected source expected c) := by
  unfold unexpected
  split
  · exact .formulaEnd rfl
  · next t rest hc =>
    refine .token (h.mem hc) ?_
    cases t.kind <;> rfl

theorem reported_close (h : c.Within source) (closing : TokenKind) :
    Reported source (fun c' => c.isAt closing = true ∧ c' = c.skip) (close source closing c) := by
  unfold close
  split
  · next hat => exact ⟨hat, rfl⟩
  · split
    · exact .formulaEnd rfl
    · exact culprit_unexpected h _

theorem reported_flavorRun {ts : List Token} {stop : Nat} (h : Cursor.Within source ⟨ts, stop⟩) :
    EndsWithin source (flavorRun source ts stop) := by
  induction ts generalizing stop with
  | nil => exact h
  | cons t rest ih =>
    unfold flavorRun
    split
    · refine (ih (h.next rfl _)).bind ?_
      rintro ⟨more, c⟩ hc
      exact hc
    · exact .token (h.mem rfl) rfl
    · exact h

theorem reported_withFlavors (h : c.Within source) (node : Node) :
    EndsWithin source (withFlavors source node c) := by
  refine Reported.bind (@reported_flavorRun source c.rest c.stop h) ?_
  rintro ⟨flavors, c'⟩ hc'
  dsimp only
  split
  · exact hc'
  · exact hc'

/-- What stands in brackets, with the flavors behind them. -/
theorem reported_bracketed {α : Type} {inside : Except SyntaxError (α × Cursor)}
    (hinside : EndsWithin source inside) (closing : TokenKind)
    (node : α → Node) :
    EndsWithin source (do
      let (a, c) ← inside
      let c ← close source closing c
      withFlavors source (node a) c) := by
  refine hinside.bind ?_
  rintro ⟨a, c₁⟩ hc₁
  refine (reported_close hc₁ closing).bind ?_
  rintro c₂ ⟨-, rfl⟩
  exact reported_withFlavors hc₁.skip (node a)

theorem reported_numberNode (ht : t ∈ tokens source) :
    Reported source (fun _ => True) (numberNode source t) := by
  unfold numberNode
  split
  · exact trivial
  · exact .token ht rfl

theorem reported_diceNode (ht : t ∈ tokens source) (hkind : t.kind = .dice) :
    Reported source (fun _ => True) (diceNode source t) := by
  unfold diceNode
  rcases hsplit : splitDice t.text with ⟨count, faces, suffix⟩
  dsimp only
  split
  · exact .token ht rfl
  · split
    · exact .token ht rfl
    · next d hd =>
      have hsuffix : t.suffix? = some (.ofDenomination d, suffix) := by
        simp only [Token.suffix?, hkind, hsplit, hd, Option.map_some]
      split
      · exact trivial
      · next chunk hchunk => exact .modifier ht hsuffix hchunk

theorem reported_poolNode (ht : t ∈ tokens source) (hkind : t.kind = .rightBrace)
    (items : List SubFormula) : Reported source (fun _ => True) (poolNode source items t) := by
  have hsuffix : t.suffix? = some (.pool, t.text.drop 1) := by
    simp only [Token.suffix?, hkind]
  unfold poolNode
  dsimp only
  split
  · exact trivial
  · next chunk hchunk => exact .modifier ht hsuffix hchunk

end

/-! ## Reading functions -/

/-- With so many steps, the reading functions stay within the formula and give culprits for
    their errors. -/
structure Reporting (source : List Char) (fuel : Nat) : Prop where
  expression : ∀ {c : Cursor}, c.Within source →
    EndsWithin source (readExpression source fuel c)
  rest : ∀ {c : Cursor}, c.Within source →
    EndsWithin source (readRest source fuel c)
  operand : ∀ {c : Cursor}, c.Within source →
    EndsWithin source (readOperand source fuel c)
  glue : ∀ {c : Cursor} (afterText : Bool), c.Within source →
    EndsWithin source (readGlue source fuel afterText c)
  atom : ∀ {c : Cursor}, c.Within source →
    EndsWithin source (readAtom source fuel c)
  list : ∀ {c : Cursor}, c.Within source →
    EndsWithin source (readList source fuel c)
  sub : ∀ {c : Cursor}, c.Within source →
    EndsWithin source (readSub source fuel c)

theorem Reporting.zero (source : List Char) : Reporting source 0 where
  expression h := by
    rw [readExpression]
    exact culprit_unexpected h _
  rest h := by
    rw [readRest]
    exact culprit_unexpected h _
  operand h := by
    rw [readOperand]
    exact culprit_unexpected h _
  glue _ h := by
    rw [readGlue]
    exact h
  atom h := by
    rw [readAtom]
    exact culprit_unexpected h _
  list h := by
    rw [readList]
    exact culprit_unexpected h _
  sub h := by
    rw [readSub]
    exact culprit_unexpected h _

section

variable {source : List Char} {fuel : Nat} {c : Cursor}

/-- An operand and what follows it, put together in some way. -/
theorem Reporting.operandRest (ih : Reporting source fuel) (h : c.Within source)
    (f : Node → List Node → List Node) :
    EndsWithin source (do
      let (operand, c) ← readOperand source fuel c
      let (rest, c) ← readRest source fuel c
      return (f operand rest, c)) := by
  refine (ih.operand h).bind ?_
  rintro ⟨operand, c₁⟩ hc₁
  refine (ih.rest hc₁).bind ?_
  rintro ⟨rest, c₂⟩ hc₂
  exact hc₂

/-- A part and what is glued to it. -/
theorem Reporting.partGlue (ih : Reporting source fuel) {part : Except SyntaxError (Node × Cursor)}
    (hpart : EndsWithin source part) :
    EndsWithin source (do
      let (part, c) ← part
      let (more, c) ← readGlue source fuel part.isText c
      return (part :: more, c)) := by
  refine hpart.bind ?_
  rintro ⟨node, c₁⟩ hc₁
  refine (ih.glue node.isText hc₁).bind ?_
  rintro ⟨more, c₂⟩ hc₂
  exact hc₂

theorem Reporting.readExpression (ih : Reporting source fuel) (h : c.Within source) :
    EndsWithin source (readExpression source (fuel + 1) c) := by
  rw [Formula.readExpression]
  exact ih.operandRest h.signs fun operand rest => signed (signs c).1 operand :: rest

theorem Reporting.readRest (ih : Reporting source fuel) (h : c.Within source) :
    EndsWithin source (readRest source (fuel + 1) c) := by
  have hsigns := h.signs
  rw [Formula.readRest]
  split
  · next op c₁ heq =>
    rw [heq] at hsigns
    exact ih.operandRest hsigns fun operand rest => .operator op :: operand :: rest
  · split
    · next op hop =>
      exact ih.operandRest h.skip.signs fun operand rest =>
        .operator op :: signed (signs c.skip).1 operand :: rest
    · exact h

theorem Reporting.readOperand (ih : Reporting source fuel) (h : c.Within source) :
    EndsWithin source (readOperand source (fuel + 1) c) := by
  rw [Formula.readOperand]
  refine (ih.atom h).bind ?_
  rintro ⟨first, c₁⟩ hc₁
  refine (ih.glue first.isText hc₁).bind ?_
  rintro ⟨more, c₂⟩ hc₂
  dsimp only
  split
  · exact hc₂
  · exact hc₂

theorem Reporting.readGlue (ih : Reporting source fuel) (afterText : Bool) (h : c.Within source) :
    EndsWithin source (readGlue source (fuel + 1) afterText c) := by
  rw [Formula.readGlue]
  split
  · next t rest _ hc =>
    have hfragment := reported_withFlavors (h.next hc t.span.stop) (.text (String.ofList t.text))
    cases t.kind with
    | dice | dicePrefix | identifier | dataReference => exact ih.partGlue hfragment
    | leftParen | number =>
      dsimp only
      split
      · exact ih.partGlue (ih.atom h)
      · exact h
    | _ => exact h
  · exact h

theorem Reporting.readAtom (ih : Reporting source fuel) (h : c.Within source) :
    EndsWithin source (readAtom source (fuel + 1) c) := by
  rw [Formula.readAtom]
  cases hc : c.rest with
  | nil => exact culprit_unexpected h _
  | cons t rest =>
    have ht := h.mem hc
    have hnext := h.next hc t.span.stop
    cases hkind : t.kind with
    | number =>
      simp only [hkind]
      exact (reported_numberNode ht).andThen fun n => reported_withFlavors hnext n
    | dice =>
      simp only [hkind]
      exact (reported_diceNode ht hkind).andThen fun n => reported_withFlavors hnext n
    | dicePrefix | dataReference =>
      simp only [hkind]
      exact reported_withFlavors hnext _
    | identifier =>
      simp only [hkind]
      split
      · split
        · have hnone : @EndsWithin source (List SubFormula)
              (.ok ([], Cursor.skip ⟨rest, t.span.stop⟩)) := hnext.skip
          exact reported_bracketed hnone _ (.function (String.ofList t.text))
        · exact reported_bracketed (ih.list hnext.skip) _ (.function (String.ofList t.text))
      · exact reported_withFlavors hnext _
    | leftParen =>
      simp only [hkind]
      exact reported_bracketed (ih.sub hnext) .rightParen .parenthetical
    | leftBrace =>
      simp only [hkind]
      split
      · rw [Cursor.Within, hc] at h
        exact .emptyPool h
      · refine (ih.list hnext).bind ?_
        rintro ⟨items, c₁⟩ hc₁
        refine (reported_close hc₁ .rightBrace).bind ?_
        rintro after ⟨hat, rfl⟩
        dsimp only
        split
        · next closing rest₁ hclosing =>
          have hbrace : closing.kind = .rightBrace := by
            simpa [Cursor.isAt, Cursor.kind?, hclosing] using hat
          exact (reported_poolNode (hc₁.mem hclosing) hbrace items).andThen fun n =>
            reported_withFlavors hc₁.skip n
        · exact culprit_unexpected hc₁ _
    | _ =>
      simp only [hkind]
      exact culprit_unexpected h _

theorem Reporting.readList (ih : Reporting source fuel) (h : c.Within source) :
    EndsWithin source (readList source (fuel + 1) c) := by
  rw [Formula.readList]
  refine (ih.sub h).bind ?_
  rintro ⟨first, c₁⟩ hc₁
  dsimp only
  split
  · refine (ih.list hc₁.skip).bind ?_
    rintro ⟨more, c₂⟩ hc₂
    exact hc₂
  · exact hc₁

theorem Reporting.readSub (ih : Reporting source fuel) (h : c.Within source) :
    EndsWithin source (readSub source (fuel + 1) c) := by
  rw [Formula.readSub]
  refine (ih.expression h).bind ?_
  rintro ⟨nodes, after⟩ hafter
  exact hafter

end

/-- However many steps there are, errors have culprits. -/
theorem reporting (source : List Char) (fuel : Nat) : Reporting source fuel := by
  induction fuel with
  | zero => exact .zero source
  | succ fuel ih =>
    exact {
      expression := ih.readExpression
      rest := ih.readRest
      operand := ih.readOperand
      glue := ih.readGlue
      atom := ih.readAtom
      list := ih.readList
      sub := ih.readSub }

/-- The errors of formulas have culprits. -/
theorem reported_parseChars (source : List Char) :
    Reported source (fun _ => True) (parseChars source) := by
  have hwhole : Cursor.Within source ⟨tokens source, 0⟩ := List.suffix_refl _
  refine ((reporting source _).expression hwhole).bind ?_
  rintro ⟨nodes, c⟩ hc
  dsimp only
  split
  · exact trivial
  · next t rest hrest =>
    split
    · exact .token (hc.mem hrest) rfl
    · exact culprit_unexpected hc _

end DiceNotation.Formula
