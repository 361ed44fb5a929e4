/-
  DiceNotation.Proofs.Formula.Reading

  The reading functions read by the grammar.

  With steps enough for the tokens to come (`Piece.steps`), a reading function
  gives a piece and a cursor exactly when the piece stands between the two cursors
  (`reads_iff`). In particular the steps of `parseChars` suffice for every text
  (`parseChars_eq_ok`).
-/

import DiceNotation.Proofs.Formula.Grammar

namespace DiceNotation.Formula

/-
The equations of the reading functions take a while to work out, and the proofs below,
which are checked side by side, would each wait for them. Named here once, they are
there before the first of these proofs; no proof is simplified with them.
-/
section

attribute [local simp] readExpression readRest readOperand readGlue readAtom readList readSub

end

variable {source : List Char} {c c' : Cursor}

/-! ## Literals -/

theorem numberNode_eq_ok {t : Token} {n : Node} :
    numberNode source t = .ok n ↔ (numberOfLiteral? t.text).map .number = some n := by
  unfold numberNode
  cases numberOfLiteral? t.text <;> simp

theorem diceNode_eq_ok {t : Token} {n : Node} :
    diceNode source t = .ok n ↔ diceOfLiteral? t.text = some n := by
  rcases hsplit : splitDice t.text with ⟨count, faces, suffix⟩
  simp only [diceNode, diceOfLiteral?, hsplit]
  rw [show (if count.isEmpty then some 1 else Text.nat64? count) = diceCount? count from rfl]
  cases diceCount? count with
  | none => simp
  | some number =>
    cases hd : Denomination.ofFaces? faces with
    | none => simp
    | some d =>
      cases hms : Modifier.ofSuffix (.ofDenomination d) suffix <;>
        simp [hms, Except.toOption]

theorem poolNode_eq_ok {items : List SubFormula} {closing : Token} {n : Node} :
    poolNode source items closing = .ok n ↔
      ∃ ms, Modifier.ofSuffix .pool (closing.text.drop 1) = .ok ms ∧ .pool items ms = n := by
  unfold poolNode
  cases hms : Modifier.ofSuffix .pool (closing.text.drop 1) <;> simp only [hms] <;> simp

theorem close_eq_ok {kind : TokenKind} :
    close source kind c = .ok c' ↔ c.isAt kind = true ∧ c' = c.skip := by
  unfold close
  split
  · next h => simp [h, eq_comm]
  · next h => split <;> simp [h]

theorem close_of_isAt (source : List Char) {kind : TokenKind} (h : c.isAt kind = true) :
    close source kind c = .ok c.skip :=
  close_eq_ok.mpr ⟨h, rfl⟩

/-! ## Glue -/

variable {b : Bool} {fuel : Nat}

/-- What is glued stands right behind the last token and is of a suitable class. -/
theorem Cursor.glues_eq_true (h : c.glues b = true) :
    c.isAdjacent = true ∧ ∃ t rest, c.rest = t :: rest ∧
      (t.kind.isFragment = true ∨ b = true ∧ t.kind.isBehindText = true) := by
  obtain ⟨ts, stop⟩ := c
  cases ts with
  | nil => simp [glues, isAdjacent] at h
  | cons t rest =>
    have hboth : Cursor.isAdjacent ⟨t :: rest, stop⟩ = true ∧
        (t.kind.isFragment || (b && t.kind.isBehindText)) = true := by
      simpa [glues, kind?] using h
    exact ⟨hboth.1, t, rest, rfl, by simpa using hboth.2⟩

theorem readGlue_fragment {t : Token} {rest : List Token} (hadjacent : c.isAdjacent = true)
    (hc : c.rest = t :: rest) (hkind : t.kind.isFragment = true) :
    readGlue source (fuel + 1) b c =
      withFlavors source (.text (String.ofList t.text)) ⟨rest, t.span.stop⟩ >>= fun part =>
        readGlue source fuel part.1.isText part.2 >>= fun more =>
          .ok (part.1 :: more.1, more.2) := by
  rw [readGlue, hadjacent, hc]
  cases hk : t.kind <;> rw [hk] at hkind <;>
    first
    | exact absurd hkind (by decide)
    | (simp only [hk]; rfl)

theorem readGlue_behindText {t : Token} {rest : List Token} (hadjacent : c.isAdjacent = true)
    (hc : c.rest = t :: rest) (hkind : t.kind.isBehindText = true) :
    readGlue source (fuel + 1) true c =
      readAtom source fuel c >>= fun part =>
        readGlue source fuel part.1.isText part.2 >>= fun more =>
          .ok (part.1 :: more.1, more.2) := by
  rw [readGlue, hadjacent, hc]
  cases hk : t.kind <;> rw [hk] at hkind <;>
    first
    | exact absurd hkind (by decide)
    | (simp only [hk]; rfl)

theorem readGlue_end (h : c.glues b = false) : readGlue source fuel b c = .ok ([], c) := by
  obtain _ | fuel := fuel
  · rw [readGlue]
  · obtain ⟨ts, stop⟩ := c
    rw [readGlue]
    cases ts with
    | nil => rfl
    | cons t rest =>
      cases hadjacent : Cursor.isAdjacent ⟨t :: rest, stop⟩ with
      | false => rfl
      | true =>
        have hkind : (t.kind.isFragment || (b && t.kind.isBehindText)) = false := by
          simpa [Cursor.glues, hadjacent, Cursor.kind?] using h
        cases hk : t.kind <;> cases b <;> rw [hk] at hkind <;>
          first
          | exact absurd hkind (by decide)
          | (simp only [hk] <;> rfl)

/-! ## Atoms -/

section

variable {t : Token} {rest : List Token}

theorem readAtom_literal {n : Node} (hc : c.rest = t :: rest) (hn : t.literal? = some n)
    (hcall : t.kind = .identifier → Cursor.opensCall ⟨rest, t.span.stop⟩ = false) :
    readAtom source (fuel + 1) c = withFlavors source n ⟨rest, t.span.stop⟩ := by
  rw [readAtom, hc]
  cases hk : t.kind with
  | number =>
    simp only [Token.literal?, hk] at hn ⊢
    rw [numberNode_eq_ok.mpr hn]
    rfl
  | dice =>
    simp only [Token.literal?, hk] at hn ⊢
    rw [diceNode_eq_ok.mpr hn]
    rfl
  | identifier =>
    simp only [Token.literal?, hk, Option.some.injEq] at hn ⊢
    rw [show (Cursor.isAdjacent ⟨rest, t.span.stop⟩ && Cursor.isAt ⟨rest, t.span.stop⟩ .leftParen) =
      false from hcall hk, hn]
    rfl
  | dicePrefix | dataReference =>
    simp only [Token.literal?, hk, Option.some.injEq] at hn ⊢
    rw [hn]
  | _ => simp [Token.literal?, hk] at hn

theorem readAtom_callEmpty (hc : c.rest = t :: rest) (hkind : t.kind = .identifier)
    (hcall : Cursor.opensCall ⟨rest, t.span.stop⟩ = true)
    (hempty : (Cursor.skip ⟨rest, t.span.stop⟩).isAt .rightParen = true) :
    readAtom source (fuel + 1) c =
      withFlavors source (.function (String.ofList t.text) [])
        (Cursor.skip ⟨rest, t.span.stop⟩).skip := by
  rw [readAtom, hc]
  simp only [hkind]
  rw [show (Cursor.isAdjacent ⟨rest, t.span.stop⟩ && Cursor.isAt ⟨rest, t.span.stop⟩ .leftParen) =
    true from hcall]
  simp only [if_true, hempty]
  rw [show (pure ([], Cursor.skip ⟨rest, t.span.stop⟩) : Except SyntaxError _) = .ok _ from rfl,
    ok_bind, close_of_isAt source hempty, ok_bind]

theorem readAtom_call (hc : c.rest = t :: rest) (hkind : t.kind = .identifier)
    (hcall : Cursor.opensCall ⟨rest, t.span.stop⟩ = true)
    (hsome : (Cursor.skip ⟨rest, t.span.stop⟩).isAt .rightParen = false) :
    readAtom source (fuel + 1) c =
      readList source fuel (Cursor.skip ⟨rest, t.span.stop⟩) >>= fun arguments =>
        close source .rightParen arguments.2 >>= fun c₁ =>
          withFlavors source (.function (String.ofList t.text) arguments.1) c₁ := by
  rw [readAtom, hc]
  simp only [hkind]
  rw [show (Cursor.isAdjacent ⟨rest, t.span.stop⟩ && Cursor.isAt ⟨rest, t.span.stop⟩ .leftParen) =
    true from hcall]
  simp only [if_true, hsome, Bool.false_eq_true, if_false]

theorem readAtom_group (hc : c.rest = t :: rest) (hkind : t.kind = .leftParen) :
    readAtom source (fuel + 1) c =
      readSub source fuel ⟨rest, t.span.stop⟩ >>= fun inner =>
        close source .rightParen inner.2 >>= fun c₁ =>
          withFlavors source (.parenthetical inner.1) c₁ := by
  rw [readAtom, hc]
  simp only [hkind]

theorem readAtom_pool_empty (hc : c.rest = t :: rest) (hkind : t.kind = .leftBrace)
    (hempty : Cursor.isAt ⟨rest, t.span.stop⟩ .rightBrace = true) :
    ∃ e, readAtom source (fuel + 1) c = .error e := by
  obtain ⟨⟨kind, text, span⟩, rest', hrest, rfl, -⟩ := Cursor.exists_of_isAt hempty
  cases hrest
  rw [readAtom, hc]
  simp only [hkind]
  exact ⟨_, rfl⟩

theorem readAtom_pool (hc : c.rest = t :: rest) (hkind : t.kind = .leftBrace)
    (hsome : Cursor.isAt ⟨rest, t.span.stop⟩ .rightBrace = false) {items : List SubFormula}
    {c₁ : Cursor} (hitems : readList source fuel ⟨rest, t.span.stop⟩ = .ok (items, c₁))
    {closing : Token} {after : List Token} (hclosing : c₁.rest = closing :: after)
    (hclose : closing.kind = .rightBrace) :
    readAtom source (fuel + 1) c =
      poolNode source items closing >>= fun n =>
        withFlavors source n ⟨after, closing.span.stop⟩ := by
  have hat : c₁.isAt .rightBrace = true := by simp [Cursor.isAt, Cursor.kind?, hclosing, hclose]
  have hskip : c₁.skip = ⟨after, closing.span.stop⟩ := by simp [Cursor.skip, hclosing]
  rw [readAtom, hc]
  simp only [hkind]
  have hclosed : close source .rightBrace c₁ = .ok ⟨after, closing.span.stop⟩ := by
    rw [close_of_isAt source hat, hskip]
  split
  · simp [Cursor.isAt, Cursor.kind?] at hsome
  · rw [hitems, ok_bind]
    simp only [hclosed, ok_bind, hclosing]

end

/-! ## Steps -/

/-- How many steps suffice for a piece when so many tokens are to come. -/
def Piece.steps (tokens : Nat) : Piece → Nat
  | atom _ => 8 * tokens
  | operand _ | glue _ _ | rest _ => 8 * tokens + 1
  | expression _ => 8 * tokens + 2
  | sub _ => 8 * tokens + 3
  | list _ => 8 * tokens + 4

/-- The function that reads a kind of piece gives this one in some steps. -/
def Runs (source : List Char) (fuel : Nat) : Piece → Cursor → Cursor → Prop
  | .expression nodes, c, c' => readExpression source fuel c = .ok (nodes, c')
  | .rest nodes, c, c' => readRest source fuel c = .ok (nodes, c')
  | .operand n, c, c' => readOperand source fuel c = .ok (n, c')
  | .glue b parts, c, c' => readGlue source fuel b c = .ok (parts, c')
  | .atom n, c, c' => readAtom source fuel c = .ok (n, c')
  | .list subs, c, c' => readList source fuel c = .ok (subs, c')
  | .sub s, c, c' => readSub source fuel c = .ok (s, c')

/-- What the grammar derives is read. -/
theorem Reads.runs {p : Piece} (h : Reads source p c c') {fuel : Nat}
    (hfuel : p.steps c.rest.length ≤ fuel) : Runs source fuel p c c' := by
  induction h generalizing fuel with
  | expression hsigns hn hns ihn ihns =>
    have hlength := length_signs hsigns
    have hlength' := hn.length
    obtain _ | fuel := fuel
    · simp [Piece.steps] at hfuel
    · simp only [Piece.steps, Piece.takesToken, if_true] at hfuel ihn ihns hlength'
      have hn' := @ihn fuel (by omega)
      have hns' := @ihns fuel (by omega)
      simp only [Runs] at hn' hns' ⊢
      simp only [readExpression, hsigns, hn', hns', ok_bind]
      rfl
  | restSum hsigns hn hns ihn ihns =>
    have hlength := length_signs_lt hsigns
    have hlength' := hn.length
    obtain _ | fuel := fuel
    · simp [Piece.steps] at hfuel
    · simp only [Piece.steps, Piece.takesToken, if_true] at hfuel ihn ihns hlength'
      have hn' := @ihn fuel (by omega)
      have hns' := @ihns fuel (by omega)
      simp only [Runs] at hn' hns' ⊢
      simp only [readRest, hsigns, hn', hns', ok_bind]
      rfl
  | @restProduct op _ _ _ c _ _ _ hnone hop hsigns hn hns ihn ihns =>
    have hlength := length_signs hsigns
    have hlength' := hn.length
    have hskip := Cursor.length_skip_lt_of_operator hop
    obtain _ | fuel := fuel
    · simp [Piece.steps] at hfuel
    · simp only [Piece.steps, Piece.takesToken, if_true] at hfuel ihn ihns hlength'
      have hn' := @ihn fuel (by omega)
      have hns' := @ihns fuel (by omega)
      have hnone' : signs c = (none, (signs c).2) := by rw [← hnone]
      simp only [Runs] at hn' hns' ⊢
      rw [readRest, hnone']
      simp only [hop, hsigns, hn', hns', ok_bind]
      rfl
  | @restEnd c hnone hop =>
    obtain _ | fuel := fuel
    · simp [Piece.steps] at hfuel
    · have hnone' : signs c = (none, (signs c).2) := by rw [← hnone]
      simp only [Runs]
      rw [readRest, hnone']
      simp only [hop]
  | @operand first more _ _ _ hfirst hmore ihfirst ihmore =>
    have hlength := hfirst.length
    obtain _ | fuel := fuel
    · simp [Piece.steps] at hfuel
    · simp only [Piece.steps, Piece.takesToken, if_true] at hfuel ihfirst ihmore hlength
      have hfirst' := @ihfirst fuel (by omega)
      have hmore' := @ihmore fuel (by omega)
      simp only [Runs] at hfirst' hmore' ⊢
      simp only [readOperand, hfirst', hmore', ok_bind, Node.ofParts]
      cases more <;> rfl
  | fragment hadjacent hc hkind hpart hmore ihmore =>
    have hlength := length_withFlavors hpart
    obtain _ | fuel := fuel
    · simp [Piece.steps] at hfuel
    · rw [hc, List.length_cons] at hfuel
      simp only [Piece.steps] at hfuel ihmore hlength
      have hmore' := @ihmore fuel (by omega)
      simp only [Runs] at hmore' ⊢
      rw [readGlue_fragment hadjacent hc hkind, hpart, ok_bind, hmore', ok_bind]
  | @behindText kind part more c c₁ c₂ hadjacent hc hkind hpart hmore ihpart ihmore =>
    have hlength := hpart.length
    obtain ⟨t, rest, hrest, rfl⟩ : ∃ t rest, c.rest = t :: rest ∧ t.kind = kind := by
      obtain ⟨ts, stop⟩ := c
      cases ts with
      | nil => simp [Cursor.kind?] at hc
      | cons t rest => exact ⟨t, rest, rfl, by simpa [Cursor.kind?] using hc⟩
    obtain _ | fuel := fuel
    · simp [Piece.steps] at hfuel
    · simp only [Piece.steps, Piece.takesToken, if_true] at hfuel ihpart ihmore hlength
      have hpart' := @ihpart fuel (by omega)
      have hmore' := @ihmore fuel (by omega)
      simp only [Runs] at hpart' hmore' ⊢
      rw [readGlue_behindText hadjacent hrest hkind, hpart', ok_bind, hmore', ok_bind]
  | glueEnd hend => exact readGlue_end hend
  | literal hc hn hcall hflavors =>
    obtain _ | fuel := fuel
    · simp [Piece.steps, hc] at hfuel
    · simp only [Runs]
      rw [readAtom_literal hc hn hcall, hflavors]
  | callEmpty hc hkind hcall hempty hflavors =>
    obtain _ | fuel := fuel
    · simp [Piece.steps, hc] at hfuel
    · simp only [Runs]
      rw [readAtom_callEmpty hc hkind hcall hempty, hflavors]
  | @call t rest _ _ _ _ _ hc hkind hcall hsome hlist hclose hflavors ih =>
    have hlength := Cursor.length_skip_le ⟨rest, t.span.stop⟩
    obtain _ | fuel := fuel
    · simp [Piece.steps, hc] at hfuel
    · rw [hc, List.length_cons] at hfuel
      simp only [Piece.steps] at hfuel ih hlength
      have hlist' := @ih fuel (by omega)
      simp only [Runs] at hlist' ⊢
      rw [readAtom_call hc hkind hcall hsome, hlist', ok_bind, close_of_isAt source hclose, ok_bind,
        hflavors]
  | group hc hkind hinner hclose hflavors ih =>
    obtain _ | fuel := fuel
    · simp [Piece.steps, hc] at hfuel
    · rw [hc, List.length_cons] at hfuel
      simp only [Piece.steps] at hfuel ih
      have hinner' := @ih fuel (by omega)
      simp only [Runs] at hinner' ⊢
      rw [readAtom_group hc hkind, hinner', ok_bind, close_of_isAt source hclose, ok_bind, hflavors]
  | pool hc hkind hsome hlist hclosing hclose hms hflavors ih =>
    obtain _ | fuel := fuel
    · simp [Piece.steps, hc] at hfuel
    · rw [hc, List.length_cons] at hfuel
      simp only [Piece.steps] at hfuel ih
      have hlist' := @ih fuel (by omega)
      simp only [Runs] at hlist' ⊢
      rw [readAtom_pool hc hkind hsome hlist' hclosing hclose, poolNode_eq_ok.mpr ⟨_, hms, rfl⟩,
        ok_bind, hflavors]
  | listLast hs hcomma ih =>
    obtain _ | fuel := fuel
    · simp [Piece.steps] at hfuel
    · simp only [Piece.steps] at hfuel ih
      have hs' := @ih fuel (by omega)
      simp only [Runs] at hs' ⊢
      simp only [readList, hs', ok_bind, hcomma, Bool.false_eq_true, if_false]
      rfl
  | listMore hs hcomma hmore ihs ihmore =>
    have hlength := hs.length
    have hskip := Cursor.length_skip_lt hcomma
    obtain _ | fuel := fuel
    · simp [Piece.steps] at hfuel
    · simp only [Piece.steps, Piece.takesToken, if_true] at hfuel ihs ihmore hlength
      have hs' := @ihs fuel (by omega)
      have hmore' := @ihmore fuel (by omega)
      simp only [Runs] at hs' hmore' ⊢
      simp only [readList, hs', ok_bind, hcomma, if_true, hmore']
      rfl
  | sub hnodes ih =>
    obtain _ | fuel := fuel
    · simp [Piece.steps] at hfuel
    · simp only [Piece.steps] at hfuel ih
      have hnodes' := @ih fuel (by omega)
      simp only [Runs] at hnodes' ⊢
      simp only [readSub, hnodes', ok_bind]
      rfl

/-- An atom that is read is derived if the pieces inside it are. -/
theorem Reads.of_readAtom {n : Node}
    (hsub : ∀ {p : Piece} {c₁ c₂ : Cursor}, Runs source fuel p c₁ c₂ →
      p.steps c₁.rest.length ≤ fuel → Reads source p c₁ c₂)
    (h : readAtom source (fuel + 1) c = .ok (n, c'))
    (hfuel : 8 * c.rest.length ≤ fuel + 1) : Reads source (.atom n) c c' := by
  cases hc : c.rest with
  | nil => simp [readAtom, hc] at h
  | cons t rest =>
    rw [hc, List.length_cons] at hfuel
    have hliteral : ∀ m, t.literal? = some m →
        (t.kind = .identifier → Cursor.opensCall ⟨rest, t.span.stop⟩ = false) →
          Reads source (.atom n) c c' := by
      intro m hm hcall
      rw [readAtom_literal hc hm hcall] at h
      exact .literal hc hm hcall h
    cases hk : t.kind with
    | number =>
      have hm : ∃ m, numberNode source t = .ok m := by
        simp only [readAtom, hc, hk] at h
        obtain ⟨m, hm, -⟩ := bind_eq_ok.mp h
        exact ⟨m, hm⟩
      obtain ⟨m, hm⟩ := hm
      refine hliteral m ?_ (by simp [hk])
      simp only [Token.literal?, hk]
      exact numberNode_eq_ok.mp hm
    | dice =>
      have hm : ∃ m, diceNode source t = .ok m := by
        simp only [readAtom, hc, hk] at h
        obtain ⟨m, hm, -⟩ := bind_eq_ok.mp h
        exact ⟨m, hm⟩
      obtain ⟨m, hm⟩ := hm
      refine hliteral m ?_ (by simp [hk])
      simp only [Token.literal?, hk]
      exact diceNode_eq_ok.mp hm
    | dicePrefix | dataReference =>
      exact hliteral (.text (String.ofList t.text)) (by simp only [Token.literal?, hk])
        (by simp [hk])
    | identifier =>
      cases hcall : Cursor.opensCall ⟨rest, t.span.stop⟩ with
      | false =>
        exact hliteral (.text (String.ofList t.text)) (by simp only [Token.literal?, hk])
          fun _ => hcall
      | true =>
        cases hempty : (Cursor.skip ⟨rest, t.span.stop⟩).isAt .rightParen with
        | true =>
          rw [readAtom_callEmpty hc hk hcall hempty] at h
          exact .callEmpty hc hk hcall hempty h
        | false =>
          rw [readAtom_call hc hk hcall hempty] at h
          obtain ⟨⟨arguments, c₁⟩, hlist, h⟩ := bind_eq_ok.mp h
          obtain ⟨c₂, hclose, h⟩ := bind_eq_ok.mp h
          obtain ⟨hclosed, rfl⟩ := close_eq_ok.mp hclose
          have hskip := Cursor.length_skip_le ⟨rest, t.span.stop⟩
          refine .call hc hk hcall hempty (hsub hlist ?_) hclosed h
          simp only [Piece.steps] at hskip ⊢
          omega
    | leftParen =>
      rw [readAtom_group hc hk] at h
      obtain ⟨⟨inner, c₁⟩, hinner, h⟩ := bind_eq_ok.mp h
      obtain ⟨c₂, hclose, h⟩ := bind_eq_ok.mp h
      obtain ⟨hclosed, rfl⟩ := close_eq_ok.mp hclose
      refine .group hc hk (hsub hinner ?_) hclosed h
      simp only [Piece.steps]
      omega
    | leftBrace =>
      cases hsome : Cursor.isAt ⟨rest, t.span.stop⟩ .rightBrace with
      | true =>
        obtain ⟨e, he⟩ := @readAtom_pool_empty source _ fuel _ _ hc hk hsome
        rw [he] at h
        cases h
      | false =>
        obtain ⟨items, c₁, closing, after, hlist, hclosing, hclose⟩ :
            ∃ items c₁ closing after, readList source fuel ⟨rest, t.span.stop⟩ = .ok (items, c₁) ∧
              c₁.rest = closing :: after ∧ closing.kind = .rightBrace := by
          have h' := h
          simp only [readAtom, hc, hk] at h'
          split at h'
          · cases h'
          · obtain ⟨⟨items, c₁⟩, hlist, h'⟩ := bind_eq_ok.mp h'
            obtain ⟨c₂, hclose, -⟩ := bind_eq_ok.mp h'
            obtain ⟨hclosed, -⟩ := close_eq_ok.mp hclose
            obtain ⟨closing, after, hclosing, hkind, -⟩ := Cursor.exists_of_isAt hclosed
            exact ⟨items, c₁, closing, after, hlist, hclosing, hkind⟩
        rw [readAtom_pool hc hk hsome hlist hclosing hclose] at h
        obtain ⟨m, hm, h⟩ := bind_eq_ok.mp h
        obtain ⟨ms, hms, rfl⟩ := poolNode_eq_ok.mp hm
        refine .pool hc hk hsome (hsub hlist ?_) hclosing hclose hms h
        simp only [Piece.steps]
        omega
    | _ => simp [readAtom, hc, hk] at h

/-- What is read is derived by the grammar. -/
theorem Runs.reads {p : Piece} (h : Runs source fuel p c c')
    (hfuel : p.steps c.rest.length ≤ fuel) : Reads source p c c' := by
  induction fuel generalizing p c c' with
  | zero =>
    cases p with
    | atom n => simp [Runs, readAtom] at h
    | _ => simp [Piece.steps] at hfuel
  | succ fuel ih =>
    cases p with
    | atom n => exact .of_readAtom ih h hfuel
    | expression nodes =>
      simp only [Runs, readExpression] at h
      rcases hsigns : signs c with ⟨sign, c₁⟩
      rw [hsigns] at h
      obtain ⟨⟨n, c₂⟩, hn, h⟩ := bind_eq_ok.mp h
      obtain ⟨⟨ns, c₃⟩, hns, h⟩ := bind_eq_ok.mp h
      cases h
      have hlength := length_signs hsigns
      simp only [Piece.steps] at hfuel
      have hn' : Reads source (.operand n) c₁ c₂ := ih hn (by simp only [Piece.steps]; omega)
      have hlength' := hn'.length
      simp only [Piece.takesToken, if_true] at hlength'
      exact .expression hsigns hn' (ih hns (by simp only [Piece.steps]; omega))
    | rest nodes =>
      simp only [Piece.steps] at hfuel
      simp only [Runs, readRest] at h
      rcases hsigns : signs c with ⟨_ | op, c₁⟩
      · rw [hsigns] at h
        have hnone : (signs c).1 = none := by rw [hsigns]
        cases hop : c.kind?.bind TokenKind.operator? with
        | none =>
          simp only [hop] at h
          cases h
          exact .restEnd hnone hop
        | some op =>
          simp only [hop] at h
          rcases hsigns' : signs c.skip with ⟨sign, c₂⟩
          rw [hsigns'] at h
          obtain ⟨⟨n, c₃⟩, hn, h⟩ := bind_eq_ok.mp h
          obtain ⟨⟨ns, c₄⟩, hns, h⟩ := bind_eq_ok.mp h
          cases h
          have hskip := Cursor.length_skip_lt_of_operator hop
          have hlength := length_signs hsigns'
          have hn' : Reads source (.operand n) c₂ c₃ := ih hn (by simp only [Piece.steps]; omega)
          have hlength' := hn'.length
          simp only [Piece.takesToken, if_true] at hlength'
          exact .restProduct hnone hop hsigns' hn' (ih hns (by simp only [Piece.steps]; omega))
      · rw [hsigns] at h
        obtain ⟨⟨n, c₂⟩, hn, h⟩ := bind_eq_ok.mp h
        obtain ⟨⟨ns, c₃⟩, hns, h⟩ := bind_eq_ok.mp h
        cases h
        have hlength := length_signs_lt hsigns
        have hn' : Reads source (.operand n) c₁ c₂ := ih hn (by simp only [Piece.steps]; omega)
        have hlength' := hn'.length
        simp only [Piece.takesToken, if_true] at hlength'
        exact .restSum hsigns hn' (ih hns (by simp only [Piece.steps]; omega))
    | operand n =>
      simp only [Piece.steps] at hfuel
      simp only [Runs, readOperand] at h
      obtain ⟨⟨first, c₁⟩, hfirst, h⟩ := bind_eq_ok.mp h
      obtain ⟨⟨more, c₂⟩, hmore, h⟩ := bind_eq_ok.mp h
      have hfirst' : Reads source (.atom first) c c₁ :=
        ih hfirst (by simp only [Piece.steps]; omega)
      have hlength := hfirst'.length
      simp only [Piece.takesToken, if_true] at hlength
      have hmore' : Reads source (.glue first.isText more) c₁ c₂ :=
        ih hmore (by simp only [Piece.steps]; omega)
      have hparts : Node.ofParts first more = n ∧ c₂ = c' := by
        unfold Node.ofParts
        split at h <;> cases h <;> simp_all
      obtain ⟨rfl, rfl⟩ := hparts
      exact .operand hfirst' hmore'
    | glue b parts =>
      simp only [Piece.steps] at hfuel
      simp only [Runs] at h
      cases hglues : c.glues b with
      | false =>
        rw [readGlue_end hglues] at h
        cases h
        exact .glueEnd hglues
      | true =>
        obtain ⟨hadjacent, t, rest, hc, hkind | ⟨rfl, hkind⟩⟩ := Cursor.glues_eq_true hglues
        · rw [readGlue_fragment hadjacent hc hkind] at h
          obtain ⟨⟨part, c₁⟩, hpart, h⟩ := bind_eq_ok.mp h
          obtain ⟨⟨more, c₂⟩, hmore, h⟩ := bind_eq_ok.mp h
          cases h
          have hlength := length_withFlavors hpart
          rw [hc, List.length_cons] at hfuel
          exact .fragment hadjacent hc hkind hpart
            (ih hmore (by simp only [Piece.steps] at hlength ⊢; omega))
        · rw [readGlue_behindText hadjacent hc hkind] at h
          obtain ⟨⟨part, c₁⟩, hpart, h⟩ := bind_eq_ok.mp h
          obtain ⟨⟨more, c₂⟩, hmore, h⟩ := bind_eq_ok.mp h
          cases h
          have hpart' : Reads source (.atom part) c c₁ :=
            ih hpart (by simp only [Piece.steps]; omega)
          have hlength := hpart'.length
          simp only [Piece.takesToken, if_true] at hlength
          exact .behindText hadjacent (by simp [Cursor.kind?, hc]) hkind hpart'
            (ih hmore (by simp only [Piece.steps]; omega))
    | list subs =>
      simp only [Piece.steps] at hfuel
      simp only [Runs, readList] at h
      obtain ⟨⟨s, c₁⟩, hs, h⟩ := bind_eq_ok.mp h
      have hs' : Reads source (.sub s) c c₁ := ih hs (by simp only [Piece.steps]; omega)
      have hlength := hs'.length
      simp only [Piece.takesToken, if_true] at hlength
      cases hcomma : c₁.isAt .comma with
      | false =>
        simp only [hcomma, Bool.false_eq_true, if_false] at h
        cases h
        exact .listLast hs' hcomma
      | true =>
        simp only [hcomma, if_true] at h
        obtain ⟨⟨more, c₂⟩, hmore, h⟩ := bind_eq_ok.mp h
        cases h
        have hskip := Cursor.length_skip_lt hcomma
        exact .listMore hs' hcomma (ih hmore (by simp only [Piece.steps]; omega))
    | sub s =>
      simp only [Piece.steps] at hfuel
      simp only [Runs, readSub] at h
      obtain ⟨⟨nodes, c₁⟩, hnodes, h⟩ := bind_eq_ok.mp h
      cases h
      exact .sub (ih hnodes (by simp only [Piece.steps]; omega))

/-! ## Whole formulas -/

/-- With steps enough, the reading functions give what the grammar derives. -/
theorem reads_iff {p : Piece} (hfuel : p.steps c.rest.length ≤ fuel) :
    Runs source fuel p c c' ↔ Reads source p c c' :=
  ⟨fun h => h.reads hfuel, fun h => h.runs hfuel⟩

/-- A formula is read as the nodes that the grammar derives from all of its tokens. -/
theorem parseChars_eq_ok {nodes : List Node} :
    parseChars source = .ok nodes ↔
      ∃ c, Reads source (.expression nodes) ⟨tokens source, 0⟩ c ∧ c.rest = [] := by
  have hfuel : (Piece.expression nodes).steps (tokens source).length ≤
      8 * ((tokens source).length + 1) := by
    simp only [Piece.steps]
    omega
  simp only [parseChars]
  rw [bind_eq_ok]
  constructor
  · rintro ⟨⟨nodes', c⟩, hread, h⟩
    cases hc : c.rest with
    | nil =>
      simp only [hc] at h
      cases h
      exact ⟨c, (reads_iff hfuel).mp hread, hc⟩
    | cons t rest =>
      simp only [hc] at h
      split at h <;> cases h
  · rintro ⟨c, hread, hc⟩
    refine ⟨(nodes, c), (reads_iff hfuel).mpr hread, ?_⟩
    simp only [hc]
    rfl

end DiceNotation.Formula
