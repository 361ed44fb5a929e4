/-
  DiceNotation.Proofs.Formula.RoundTrip

  The formula of a roll is read as the roll.

  What stands behind the first operand is read again operator by operator
  (`RestReread`). So a row is written as its operands with their operators between
  blanks, and read again as a row of the same terms (`ExpressionWritten`). By
  induction on how a formula was read every piece of it is written and read again
  (`Reads.written`), so that the formula of its roll gives the same roll.
-/

import DiceNotation.Proofs.Formula.Operand

namespace DiceNotation.Formula

open Text

/-! ## Operators -/

section

variable {c c' : Cursor} {op : Operator}

theorem signRun_isSome {sign : Operator} (ts : List Token) (stop : Nat) :
    (signRun (some sign) ts stop).1.isSome = true := by
  induction ts generalizing sign stop with
  | nil => rfl
  | cons t ts ih =>
    unfold signRun
    split
    · exact ih t.span.stop
    · split <;> exact ih t.span.stop
    · rfl

theorem signRun_isAdditive {soFar : Option Operator} (ts : List Token) (stop : Nat)
    (h : ∀ sign, soFar = some sign → sign.isAdditive = true) :
    ∀ sign, (signRun soFar ts stop).1 = some sign → sign.isAdditive = true := by
  induction ts generalizing soFar stop with
  | nil => exact h
  | cons t ts ih =>
    unfold signRun
    split
    · refine ih t.span.stop fun sign hsign => ?_
      cases soFar with
      | none =>
        cases hsign
        rfl
      | some sign' => exact h sign hsign
    · refine ih t.span.stop fun sign hsign => ?_
      split at hsign <;> cases hsign <;> rfl
    · exact h

/-- The sign of a run of signs is that of a sum. -/
theorem isAdditive_of_signs (h : signs c = (some op, c')) : op.isAdditive = true :=
  @signRun_isAdditive none c.rest c.stop nofun op (congrArg Prod.fst h)

/-- The operator where no sign is found is that of a product. -/
theorem isAdditive_eq_false_of_signs (h : (signs c).1 = none)
    (hop : c.kind?.bind TokenKind.operator? = some op) : op.isAdditive = false := by
  obtain ⟨ts, stop⟩ := c
  cases ts with
  | nil => cases hop
  | cons t ts =>
    have hop : t.kind.operator? = some op := hop
    have hnot : ∀ sign : Operator, signs ⟨t :: ts, stop⟩ = signRun (some sign) ts t.span.stop →
        False := by
      intro sign heq
      have hsome := @signRun_isSome sign ts t.span.stop
      rw [← heq, h] at hsome
      cases hsome
    cases hkind : t.kind with
    | plus => exact absurd (by rw [signs, signRun, hkind]; rfl) (hnot .add)
    | minus => exact absurd (by rw [signs, signRun, hkind]; rfl) (hnot .sub)
    | star | slash | percent =>
      rw [hkind] at hop
      cases hop
      rfl
    | _ =>
      rw [hkind] at hop
      cases hop

theorem kindOf_ne_sign (hop : op.isAdditive = false) :
    kindOf op ≠ .plus ∧ kindOf op ≠ .minus := by
  cases op with
  | add | sub => cases hop
  | mul | div | rem => exact ⟨nofun, nofun⟩

end

/-- An operator between blanks is read before what follows it. -/
theorem Rereads.operator {written : List Char} {after : List Char → Prop}
    {read : List Char → List Token → Cursor → Prop}
    (h : Rereads written after fun source _ => read source) (op : Operator) :
    Rereads (' ' :: op.sign :: ' ' :: written) after fun source _ ts c =>
      ∃ t ts', ts = t :: ts' ∧ t.kind = kindOf op ∧ read source ts' c := by
  have hsign : Rereads [op.sign] (fun _ => True) (fun _ => IsToken (kindOf op) [op.sign]) :=
    .char (isSeparator_sign op) fun r _ => longest_sign op r
  have hblank : Rereads (' ' :: written) after fun source _ => read source :=
    h.blank fun _ _ _ _ hread => hread
  have hboth : Rereads ([op.sign] ++ ' ' :: written) after fun source _ ts c =>
      ∃ t ts', ts = t :: ts' ∧ t.kind = kindOf op ∧ read source ts' c :=
    hsign.append hblank (fun _ _ => trivial)
      fun _ _ _ middle _ htoken hread => ⟨_, middle.rest, htoken, rfl, hread⟩
  exact hboth.blank fun _ _ _ _ hread => hread

/-! ## Rows -/

/-- Characters behind an operand of which operators and operands in turns are read. -/
structure RestReread (written : List Char) (row : List Term) : Prop where
  ends : ∀ r, EndsRow r → EndsOperand (written ++ r)
  reread : Rereads written EndsRow fun source pos ts c =>
    ∃ nodes', Term.ofRow false nodes' = .ok row ∧ Reads source (.rest nodes') ⟨ts, pos⟩ c

/-- An expression with given terms is read. -/
def ExpressionRead (row : List Term) (source : List Char) (ts : List Token) (c : Cursor) : Prop :=
  ∃ nodes', Term.ofRow true nodes' = .ok row ∧
    ∀ stop, Reads source (.expression nodes') ⟨ts, stop⟩ c

/-- What follows the first operand is written as terms that are read behind an operand. -/
structure RestWritten (nodes : List Node) (row : List Term) : Prop where
  terms : Term.ofRow false nodes = .ok row
  ends : ∀ r, EndsRow r → EndsOperand (Term.rowChars row ++ r)
  reread : Rereads (Term.rowChars row) EndsRow fun source pos ts c =>
    ∃ nodes', Term.ofRow false nodes' = .ok row ∧ Reads source (.rest nodes') ⟨ts, pos⟩ c

/-- An expression is written as terms, and of their characters an expression with the same
    terms is read. -/
structure ExpressionWritten (nodes : List Node) (row : List Term) : Prop where
  terms : Term.ofRow true nodes = .ok row
  reread : Rereads (Roll.formulaOf row).toList EndsRow fun source _ ts c =>
    ∃ nodes', Term.ofRow true nodes' = .ok row ∧
      ∀ stop, Reads source (.expression nodes') ⟨ts, stop⟩ c

section

variable {n : Node} {ns : List Node} {row more : List Term} {op : Operator}

theorem RestWritten.nil : RestWritten [] [] where
  terms := rfl
  ends := fun _ hr => .inl hr
  reread := .nil fun _ _ _ _ hk hr => ⟨[], rfl, .restEnd (hr.stops hk).1 (hr.stops hk).2⟩

theorem Term.ofRow_append {first : Bool} (hn : Term.ofNode first n = .ok row) (hne : row ≠ [])
    (hmore : Term.ofRow false ns = .ok more) : Term.ofRow first (n :: ns) = .ok (row ++ more) := by
  obtain ⟨t, ts, rfl⟩ := List.exists_cons_of_ne_nil hne
  rw [Term.ofRow_cons, hn, ok_bind, List.isEmpty_cons, Bool.and_false, hmore]
  rfl

theorem Term.ofRow_operator (hn : Term.ofNode false n = .ok row) (hne : row ≠ [])
    (hmore : Term.ofRow false ns = .ok more) :
    Term.ofRow false (.operator op :: n :: ns) = .ok (.operator op {} :: (row ++ more)) := by
  rw [Term.ofRow_cons, Term.ofNode, ok_bind, Bool.false_and, Term.ofRow_append hn hne hmore]
  rfl

/-- A row ends an operand by the blank before its operator. -/
theorem endsOperand_operator (op : Operator) (cs r : List Char) :
    EndsOperand (' ' :: op.sign :: ' ' :: cs ++ r) := .inr ⟨op, ' ' :: cs ++ r, rfl⟩

/-- An operand is read with what stands behind it. -/
theorem RestReread.operand {written : List Char} (h : OperandWritten n row)
    (hmore : RestReread written more) :
    Rereads (Term.rowChars row ++ written) EndsRow fun source _ ts c =>
      ∃ b ns' c₁, Term.ofNode false b = .ok row ∧ Term.ofRow false ns' = .ok more ∧
        (∀ stop, Reads source (.operand b) ⟨ts, stop⟩ c₁) ∧ Reads source (.rest ns') c₁ c := by
  refine h.reread.append hmore.reread hmore.ends ?_
  intro source pos ts middle c ⟨b, hsame, hread⟩ ⟨ns', hns', hrest⟩
  exact ⟨b, ns', middle, (hsame.terms false).trans (h.terms false), hns', hread, hrest⟩

/-- A sum goes on with its sign and an operand. -/
theorem RestReread.sum {written : List Char} (hop : op.isAdditive = true)
    (h : OperandWritten n row) (hmore : RestReread written more) :
    RestReread (' ' :: op.sign :: ' ' :: (Term.rowChars row ++ written))
      (.operator op {} :: (row ++ more)) where
  ends := fun r _ => endsOperand_operator op _ r
  reread := by
    refine ((RestReread.operand h hmore).operator op).mono (fun _ hr => hr) ?_
    rintro source pos _ c ⟨t, ts, rfl, hkind, b, ns', c₁, hb, hns', hread, hrest⟩
    refine ⟨_, Term.ofRow_operator hb h.ne_nil hns', .restSum ?_ (hread t.span.stop) hrest⟩
    have hrun := (hread t.span.stop).signRun_operand (some op)
    rw [signs, signRun, hkind]
    cases op with
    | add => exact hrun
    | sub => exact hrun
    | _ => cases hop

/-- A product goes on with its operator and an operand with its sign. -/
theorem RestReread.product {written : List Char} (hop : op.isAdditive = false)
    (h : SignedWritten false n row) (hmore : RestReread written more) :
    RestReread (' ' :: op.sign :: ' ' :: (Term.rowChars row ++ written))
      (.operator op {} :: (row ++ more)) where
  ends := fun r _ => endsOperand_operator op _ r
  reread := by
    have hrow := h.reread
    rw [Roll.toList_formulaOf_operands h.ne_nil (h.operands rfl)] at hrow
    have hboth : Rereads (Term.rowChars row ++ written) EndsRow fun source _ ts c =>
        ∃ ns' c₁, Term.ofRow false ns' = .ok more ∧ SignedRead false row source ts c₁ ∧
          Reads source (.rest ns') c₁ c := by
      refine hrow.append hmore.reread hmore.ends ?_
      intro source pos ts middle c hread ⟨ns', hns', hrest⟩
      exact ⟨ns', middle, hns', hread, hrest⟩
    refine (hboth.operator op).mono (fun _ hr => hr) ?_
    rintro source pos _ c ⟨t, ts, rfl, hkind, ns', c₁, hns', ⟨sign, b, hb, hread⟩, hrest⟩
    obtain ⟨c₂, hsigns, hoperand⟩ := hread t.span.stop
    have hkind? : Cursor.kind? ⟨t :: ts, pos⟩ = some (kindOf op) := congrArg some hkind
    obtain ⟨hplus, hminus⟩ := kindOf_ne_sign hop
    have hstop : signs ⟨t :: ts, pos⟩ = (none, ⟨t :: ts, pos⟩) :=
      @signRun_of_kind? ⟨t :: ts, pos⟩ (by rwa [hkind?, ne_eq, Option.some_inj])
        (by rwa [hkind?, ne_eq, Option.some_inj]) none
    refine ⟨_, Term.ofRow_operator hb h.ne_nil hns', .restProduct ?_ ?_ hsigns hoperand hrest⟩
    · rw [hstop]
    · rw [hkind?]
      cases op <;> rfl

theorem RestWritten.toReread (h : RestWritten ns more) : RestReread (Term.rowChars more) more :=
  ⟨h.ends, h.reread⟩

/-- A row goes on with an operator and an operand if it is read with them. -/
theorem RestWritten.of_reread (hn : Term.ofNode false n = .ok row) (hne : row ≠ [])
    (hmore : RestWritten ns more)
    (h : RestReread (' ' :: op.sign :: ' ' :: (Term.rowChars row ++ Term.rowChars more))
      (.operator op {} :: (row ++ more))) :
    RestWritten (.operator op :: n :: ns) (.operator op {} :: (row ++ more)) := by
  rw [← Term.rowChars_append, ← Term.rowChars_operator op {}] at h
  exact ⟨Term.ofRow_operator hn hne hmore.terms, h.ends, h.reread⟩

theorem RestWritten.sum (hop : op.isAdditive = true) (h : OperandWritten n row)
    (hmore : RestWritten ns more) :
    RestWritten (.operator op :: n :: ns) (.operator op {} :: (row ++ more)) :=
  .of_reread (h.terms false) h.ne_nil hmore (.sum hop h hmore.toReread)

theorem RestWritten.product (hop : op.isAdditive = false) (h : SignedWritten false n row)
    (hmore : RestWritten ns more) :
    RestWritten (.operator op :: n :: ns) (.operator op {} :: (row ++ more)) :=
  .of_reread h.terms h.ne_nil hmore (.product hop h hmore.toReread)

/-- An operand with its sign and what stands behind it are read as an expression. -/
theorem RestReread.expression {first written : List Char}
    (h : Rereads first EndsOperand fun source _ => SignedRead true row source) (hne : row ≠ [])
    (hmore : RestReread written more) :
    Rereads (first ++ written) EndsRow fun source _ => ExpressionRead (row ++ more) source := by
  refine h.append hmore.reread hmore.ends ?_
  intro source pos ts middle c ⟨sign, b, hb, hread⟩ ⟨ns', hns', hrest⟩
  refine ⟨signed sign b :: ns', Term.ofRow_append hb hne hns', fun stop => ?_⟩
  obtain ⟨c₁, hsigns, hoperand⟩ := hread stop
  exact .expression hsigns hoperand hrest

theorem ExpressionWritten.of_signed (h : SignedWritten true n row) (hmore : RestWritten ns more) :
    ExpressionWritten (n :: ns) (row ++ more) where
  terms := Term.ofRow_append h.terms h.ne_nil hmore.terms
  reread := by
    rw [Roll.toList_formulaOf_append h.ne_nil]
    exact RestReread.expression h.reread h.ne_nil hmore.toReread

/-- A formula within a formula is written as the formula of its terms. -/
theorem ExpressionWritten.sub {nodes : List Node} (h : ExpressionWritten nodes row)
    (hrow : Infix.IsRow nodes) (text : String) : SubWritten ⟨text, nodes⟩ (Roll.ofTerms row) := by
  have hsub : ∀ text nodes', Infix.IsRow nodes' → Term.ofRow true nodes' = .ok row →
      Roll.ofSub ⟨text, nodes'⟩ = .ok (Roll.ofTerms row) := by
    intro text nodes' hrow' hterms
    rw [Roll.ofSub, checkRow_of_row hrow', ok_bind, hterms]
    rfl
  refine ⟨hsub text nodes hrow h.terms, h.reread.mono (fun _ hr => hr) ?_⟩
  intro source pos ts c ⟨nodes', hterms, hread⟩ stop
  exact ⟨_, hsub _ nodes' (hread stop).row hterms, .sub (hread stop)⟩

/-- A term that is an atom by itself is an operand. -/
theorem BareWritten.signed {kind : Option TokenKind} {t : Term} {n' : Node} {first : Bool}
    (h : BareWritten n [] (AtomRead kind) t) (hn' : Term.ofNode first n' = .ok [t]) :
    SignedWritten first n' [t] where
  terms := hn'
  ne_nil := List.cons_ne_nil _ _
  operands := fun _ => List.forall_mem_singleton.mpr h.operand
  reread := by
    rw [Roll.toList_formulaOf_operand h.operand, Term.rowChars_nil, List.append_nil]
    intro source pos r k hk hr
    obtain ⟨ts, hts, b, hsame, -, -, hread⟩ :=
      h.alone.reread source pos r k hk (hr.follows [])
    refine ⟨ts, hts, none, b, (hsame.terms first).trans (h.terms first), fun stop => ?_⟩
    have hoperand := (hread stop).alone (hr.glues hk _)
    exact ⟨⟨ts, stop⟩, hoperand.signRun_operand none, hoperand⟩

/-- An operand behind a minus sign is written as a number, with the sign before it at the
    very start, or else in parentheses with it. -/
theorem OperandWritten.negated (h : OperandWritten n row) (first : Bool)
    (hn : n.operator? = none) : ∃ row', SignedWritten first (.negation n) row' := by
  obtain ⟨value, rfl, -⟩ | hfirst := Node.ofNode_negation true n
  · exact ⟨_, h.negated_number first⟩
  obtain ⟨value, rfl, -⟩ | hnode := Node.ofNode_negation first n
  · exact ⟨_, h.negated_number first⟩
  have hminus : SignedWritten true (.negation n) (Term.minus :: row) := by
    refine h.negated_first ?_
    rw [hfirst, h.terms]
    rfl
  cases first with
  | true => exact ⟨_, hminus⟩
  | false =>
    -- within the parentheses the sign stands at the very start again
    have hsub := (ExpressionWritten.of_signed hminus .nil).sub (.plain rfl .nil) ""
    rw [List.append_nil] at hsub
    refine ⟨_, (BareWritten.group hsub []).signed ?_⟩
    rw [hnode, h.terms]
    rfl

theorem OperandWritten.signed (h : OperandWritten n row) (hn : n.operator? = none) (first : Bool)
    (sign : Option Operator) : ∃ row', SignedWritten first (signed sign n) row' := by
  unfold Formula.signed
  split
  · exact h.negated first hn
  · exact ⟨row, h.unsigned first⟩

end

/-! ## Formulas -/

/-- A piece between the texts `cs` and `cs'` is written, and read again. -/
def Piece.Written (c : Cursor) (cs cs' : List Char) : Piece → Prop
  | .expression nodes => ∃ row, ExpressionWritten nodes row
  | .rest nodes => ∃ row, RestWritten nodes row
  | .operand n => ∃ row, OperandWritten n row
  | .glue afterText parts =>
    (afterText = true → c.Unpointed) → ∃ row, GlueWritten afterText parts cs row
  | .atom n => ∃ term, AtomWritten n c cs cs' term
  | .list subs => ∃ rolls, ListWritten subs rolls
  | .sub s => ∃ roll, SubWritten s roll

/-- Every piece of a formula is written and read again. -/
theorem Reads.written {source : List Char} {p : Piece} {c c' : Cursor} (h : Reads source p c c') :
    ∀ cs, c.Before cs → ∃ cs', c'.Before cs' ∧ p.Written c cs cs' := by
  -- on how the piece was read; each part begins before the text that the last one leaves
  induction h with
  | @expression sign n ns c c₁ c₂ c₃ hsigns hn hns ihn ihns =>
    intro cs hc
    obtain ⟨cs₁, hc₁⟩ := hc.signs hsigns
    obtain ⟨cs₂, hc₂, row, hrow⟩ := ihn cs₁ hc₁
    obtain ⟨cs₃, hc₃, more, hmore⟩ := ihns cs₂ hc₂
    obtain ⟨row', hsigned⟩ := hrow.signed hn.aligned true sign
    exact ⟨cs₃, hc₃, _, .of_signed hsigned hmore⟩
  | restSum hsigns hn hns ihn ihns =>
    intro cs hc
    obtain ⟨cs₁, hc₁⟩ := hc.signs hsigns
    obtain ⟨cs₂, hc₂, row, hrow⟩ := ihn cs₁ hc₁
    obtain ⟨cs₃, hc₃, more, hmore⟩ := ihns cs₂ hc₂
    exact ⟨cs₃, hc₃, _, .sum (isAdditive_of_signs hsigns) hrow hmore⟩
  | @restProduct op sign n ns c c₁ c₂ c₃ hnone hop hsigns hn hns ihn ihns =>
    intro cs hc
    obtain ⟨kind, hkind, -⟩ := Option.bind_eq_some_iff.mp hop
    obtain ⟨r, hr⟩ := hc.skip (show c.isAt kind = true by rw [Cursor.isAt, hkind]; simp)
    obtain ⟨cs₁, hc₁⟩ := hr.signs hsigns
    obtain ⟨cs₂, hc₂, row, hrow⟩ := ihn cs₁ hc₁
    obtain ⟨cs₃, hc₃, more, hmore⟩ := ihns cs₂ hc₂
    obtain ⟨row', hsigned⟩ := hrow.signed hn.aligned false sign
    exact ⟨cs₃, hc₃, _, .product (isAdditive_eq_false_of_signs hnone hop) hsigned hmore⟩
  | restEnd hnone hop => exact fun cs hc => ⟨cs, hc, [], .nil⟩
  | operand hfirst hmore ihfirst ihmore =>
    intro cs hc
    obtain ⟨cs₁, hc₁, term, hterm⟩ := ihfirst cs hc
    obtain ⟨cs₂, hc₂, hglue⟩ := ihmore cs₁ hc₁
    obtain ⟨row, hrow⟩ := hglue (hfirst.unpointed hc)
    exact ⟨cs₂, hc₂, _, .of_atom hterm hrow⟩
  | @fragment b t rest part more c c₁ c₂ hadjacent hrest hkind hpart hmore ihmore =>
    intro cs hc
    obtain ⟨cs₁, term, hc₁, hcons⟩ := GlueWritten.fragment hc hadjacent hrest hkind hpart b
    obtain ⟨cs₂, hc₂, hglue⟩ := ihmore cs₁ hc₁
    refine ⟨cs₂, hc₂, fun _ => ?_⟩
    obtain ⟨row, hrow⟩ := hglue (hc.unpointed hrest hkind hpart)
    exact ⟨_, hcons more row hrow⟩
  | behindText hadjacent hkind? hkind hpart hmore ihpart ihmore =>
    intro cs hc
    obtain ⟨cs₁, hc₁, term, hterm⟩ := ihpart cs hc
    obtain ⟨cs₂, hc₂, hglue⟩ := ihmore cs₁ hc₁
    refine ⟨cs₂, hc₂, fun hpoint => ?_⟩
    obtain ⟨row, hrow⟩ := hglue (hpart.unpointed hc)
    exact ⟨_, .behindText hterm hadjacent (hpoint rfl) hkind? hkind hrow⟩
  | @glueEnd b c hend => exact fun cs hc => ⟨cs, hc, fun _ => ⟨[], .nil b cs⟩⟩
  | literal hrest hn hcall hflavors =>
    intro cs hc
    exact AtomWritten.literal hc hrest hn hcall hflavors
  | callEmpty hrest hkind hcall hempty hflavors =>
    intro cs hc
    obtain ⟨r, hr⟩ := hc.next hrest
    obtain ⟨cs₁, hc₁⟩ := hr.skip (Bool.and_eq_true_iff.mp hcall).2
    obtain ⟨cs₂, hc₂⟩ := hc₁.skip hempty
    exact AtomWritten.call hc hrest hkind rfl rereads_noArguments hc₂ hflavors
  | call hrest hkind hcall hsome hlist hclose hflavors ihlist =>
    intro cs hc
    obtain ⟨r, hr⟩ := hc.next hrest
    obtain ⟨cs₁, hc₁⟩ := hr.skip (Bool.and_eq_true_iff.mp hcall).2
    obtain ⟨cs₂, hc₂, rolls, hrolls⟩ := ihlist cs₁ hc₁
    obtain ⟨cs₃, hc₃⟩ := hc₂.skip hclose
    exact AtomWritten.call hc hrest hkind hrolls.1 hrolls.arguments hc₃ hflavors
  | group hrest hkind hinner hclose hflavors ihinner =>
    intro cs hc
    obtain ⟨r, hr⟩ := hc.next hrest
    obtain ⟨cs₁, hc₁, roll, hroll⟩ := ihinner r hr
    obtain ⟨cs₂, hc₂⟩ := hc₁.skip hclose
    exact AtomWritten.group hc hrest hkind hroll hc₂ hflavors
  | pool hrest hkind hsome hlist hclosing hclose hms hflavors ihlist =>
    intro cs hc
    obtain ⟨r, hr⟩ := hc.next hrest
    obtain ⟨cs₁, hc₁, rolls, hrolls⟩ := ihlist r hr
    exact AtomWritten.pool hrest hkind hrolls hc₁ hclosing hclose hms hflavors
  | listLast hs hcomma ihs =>
    intro cs hc
    obtain ⟨cs₁, hc₁, roll, hroll⟩ := ihs cs hc
    exact ⟨cs₁, hc₁, _, .single hroll⟩
  | listMore hs hcomma hmore ihs ihmore =>
    intro cs hc
    obtain ⟨cs₁, hc₁, roll, hroll⟩ := ihs cs hc
    obtain ⟨r, hr⟩ := hc₁.skip hcomma
    obtain ⟨cs₂, hc₂, rolls, hrolls⟩ := ihmore r hr
    exact ⟨cs₂, hc₂, _, .cons hroll hrolls⟩
  | sub hnodes ih =>
    intro cs hc
    obtain ⟨cs₁, hc₁, row, hrow⟩ := ih cs hc
    exact ⟨cs₁, hc₁, _, hrow.sub hnodes.row _⟩

end DiceNotation.Formula

namespace DiceNotation

open Formula

/-- A text of which an expression is read is a formula. -/
theorem Roll.new_of_reread {text : String} {row : List Term}
    (h : Rereads text.toList EndsRow fun source _ => ExpressionRead row source) :
    Roll.new text = .ok (Roll.ofTerms row) := by
  -- the whole text is followed by nothing, neither characters nor tokens
  obtain ⟨ts, hts, nodes', hnodes', hread'⟩ := h text.toList 0 [] [] (.done _) (.inl rfl)
  rw [List.append_nil] at hts
  rw [← scans_iff.mp hts] at hread'
  have hparse : parse text = .ok nodes' := parseChars_eq_ok.mpr ⟨_, hread' 0, rfl⟩
  exact Roll.new_eq_ok.mpr ⟨nodes', row, hparse, hnodes', rfl⟩

/-- The formula of a roll is read as the same roll, as long as no number in the text that
    the roll was read from has a point. -/
theorem Roll.new_formula {formula : String} {r : Roll} (h : Roll.new formula = .ok r)
    (hwhole : ∀ t ∈ tokens formula.toList, t.kind = .number → '.' ∉ t.text) :
    Roll.new r.formula = .ok r := by
  obtain ⟨nodes, row, hnodes, hrow, rfl⟩ := Roll.new_eq_ok.mp h
  obtain ⟨c, hread, -⟩ := parseChars_eq_ok.mp hnodes
  have hbefore : Cursor.Before ⟨tokens formula.toList, 0⟩ formula.toList :=
    ⟨scans_iff.mpr rfl, .of_notMem (lexed_tokens _) hwhole⟩
  obtain ⟨-, -, row', hterms, hreread⟩ := hread.written formula.toList hbefore
  obtain rfl : row = row' := Except.ok.inj (hrow.symm.trans hterms)
  exact Roll.new_of_reread hreread

/-- Text that is glued together, a run of signs and flavors in a row. -/
theorem Roll.new_formula_glued : ∃ r, Roll.new "2d@level*---3 + d20[a] [b]" = .ok r ∧
    r.formula = "2d@level * -3 + 1d20[a b]" ∧ Roll.new r.formula = .ok r := by
  have htokens : tokens "2d@level*---3 + d20[a] [b]".toList =
      [⟨.dicePrefix, ['2', 'd'], ⟨0, 2⟩⟩,
        ⟨.dataReference, ['@', 'l', 'e', 'v', 'e', 'l'], ⟨2, 8⟩⟩, ⟨.star, ['*'], ⟨8, 9⟩⟩,
        ⟨.minus, ['-'], ⟨9, 10⟩⟩, ⟨.minus, ['-'], ⟨10, 11⟩⟩, ⟨.minus, ['-'], ⟨11, 12⟩⟩,
        ⟨.number, ['3'], ⟨12, 13⟩⟩, ⟨.plus, ['+'], ⟨14, 15⟩⟩,
        ⟨.dice, ['d', '2', '0'], ⟨16, 19⟩⟩, ⟨.flavor, ['[', 'a', ']'], ⟨19, 22⟩⟩,
        ⟨.flavor, ['[', 'b', ']'], ⟨23, 26⟩⟩] := rfl
  have hparse : parse "2d@level*---3 + d20[a] [b]" = .ok [.glued [.text "2d", .text "@level"],
      .operator .mul, .negation (.number (.int 3)), .operator .add,
      .annotated (.dice 1 (.die 20) []) "a b"] := by
    refine parseChars_eq_ok.mpr ⟨⟨[], 26⟩, ?_, rfl⟩
    rw [htokens]
    exact @Reads.expression _ none _ _ _ _ _ _ rfl
      (@Reads.operand _ _ [_] _ _ _ (.literal rfl rfl nofun rfl)
        (.fragment rfl rfl rfl rfl (.glueEnd rfl)))
      (@Reads.restProduct _ _ (some .sub) _ _ _ _ _ _ rfl rfl rfl
        (.alone (.literal rfl rfl nofun rfl) rfl)
        (.restSum rfl (.alone (.literal rfl rfl nofun rfl) rfl) (.restEnd rfl rfl)))
  let row : List Term := [.text "2d" {} false, .text "@level" {} false, .operator .mul {},
    .numeric (.int (-3)) {}, .operator .add {},
    .dice { number := 1, denomination := .die 20, annotations := .flavored "a b" }]
  have hnew : Roll.new "2d@level*---3 + d20[a] [b]" = .ok (Roll.ofTerms row) :=
    Roll.new_eq_ok.mpr ⟨_, row, hparse, rfl, rfl⟩
  have hwhole : ∀ t ∈ tokens "2d@level*---3 + d20[a] [b]".toList, t.kind = .number →
      '.' ∉ t.text := by
    rw [htokens]
    decide
  exact ⟨Roll.ofTerms row, hnew, by decide, Roll.new_formula hnew hwhole⟩

end DiceNotation
