/-
  DiceNotation.Proofs.Formula.Grammar

  The grammar that formulas are read by.

  `Reads` says which piece of a formula stands between two cursors: one rule for
  each way in which an expression, an operand or an atom is made of its parts. It
  speaks neither of steps nor of errors. Every piece takes tokens away, most of
  them at least one (`Reads.length_le`, `Reads.length_lt`).
-/

import DiceNotation.Formula.Parser

namespace DiceNotation.Formula

/-- A computation that succeeds passes its result on. -/
theorem ok_bind {ε α β : Type} (a : α) (f : α → Except ε β) : (Except.ok a >>= f) = f a := rfl

/-- Two computations in a row succeed when the first one does and then the other. -/
theorem bind_eq_ok {ε α β : Type} {x : Except ε α} {f : α → Except ε β} {b : β} :
    (x >>= f) = .ok b ↔ ∃ a, x = .ok a ∧ f a = .ok b := by
  cases x with
  | error e => exact ⟨fun h => (nomatch h), fun ⟨_, h, _⟩ => (nomatch h)⟩
  | ok a => exact ⟨fun h => ⟨a, rfl, h⟩, fun ⟨a', h, hf⟩ => by cases h; exact hf⟩

/-! ## Literals -/

/-- The number of dice that a literal gives: one if it is left out. -/
def diceCount? (count : List Char) : Option Nat :=
  if count.isEmpty then some 1 else Text.nat64? count

/-- The dice that a literal stands for. -/
def diceOfLiteral? (text : List Char) : Option Node := do
  let number ← diceCount? (splitDice text).1
  let denomination ← Denomination.ofFaces? (splitDice text).2.1
  let modifiers ←
    (Modifier.ofSuffix (.ofDenomination denomination) (splitDice text).2.2).toOption
  return .dice number denomination modifiers

/-- The node of a token that is an atom by itself. -/
def Token.literal? (t : Token) : Option Node :=
  match t.kind with
  | .number => (numberOfLiteral? t.text).map .number
  | .dice => diceOfLiteral? t.text
  | .dicePrefix | .dataReference | .identifier => some (.text (String.ofList t.text))
  | _ => none

/-- Whether a token may be glued to any operand. -/
def TokenKind.isFragment : TokenKind → Bool
  | dice | dicePrefix | identifier | dataReference => true
  | _ => false

/-- Whether a token may be glued to a fragment of text only. -/
def TokenKind.isBehindText : TokenKind → Bool
  | leftParen | number => true
  | _ => false

/-- Whether an atom may begin with a token of a class. -/
def TokenKind.opensAtom : TokenKind → Bool
  | number | dice | dicePrefix | identifier | dataReference | leftParen | leftBrace => true
  | _ => false

namespace Cursor

/-- Whether the next token is glued to the operand before it. -/
def glues (afterText : Bool) (c : Cursor) : Bool :=
  c.isAdjacent &&
    match c.kind? with
    | some kind => kind.isFragment || (afterText && kind.isBehindText)
    | none => false

/-- Whether the next token opens the arguments of a function whose name stands before. -/
def opensCall (c : Cursor) : Bool := c.isAdjacent && c.isAt .leftParen

end Cursor

/-- An operand of parts that are glued together. -/
def Node.ofParts (first : Node) (more : List Node) : Node :=
  if more.isEmpty then first else .glued (first :: more)

/-! ## Rules -/

/-- What may be read. -/
inductive Piece where
  | expression (nodes : List Node)
  | rest (nodes : List Node)
  | operand (node : Node)
  | glue (afterText : Bool) (parts : List Node)
  | atom (node : Node)
  | list (subs : List SubFormula)
  | sub (s : SubFormula)

/-- A piece of a formula stands between two cursors. -/
inductive Reads (source : List Char) : Piece → Cursor → Cursor → Prop where
  | expression {sign : Option Operator} {n : Node} {ns : List Node} {c c₁ c₂ c₃ : Cursor}
      (hsigns : signs c = (sign, c₁)) (hn : Reads source (.operand n) c₁ c₂)
      (hns : Reads source (.rest ns) c₂ c₃) :
      Reads source (.expression (signed sign n :: ns)) c c₃
  | restSum {op : Operator} {n : Node} {ns : List Node} {c c₁ c₂ c₃ : Cursor}
      (hsigns : signs c = (some op, c₁)) (hn : Reads source (.operand n) c₁ c₂)
      (hns : Reads source (.rest ns) c₂ c₃) : Reads source (.rest (.operator op :: n :: ns)) c c₃
  | restProduct {op : Operator} {sign : Option Operator} {n : Node} {ns : List Node}
      {c c₁ c₂ c₃ : Cursor} (hnone : (signs c).1 = none)
      (hop : c.kind?.bind TokenKind.operator? = some op) (hsigns : signs c.skip = (sign, c₁))
      (hn : Reads source (.operand n) c₁ c₂) (hns : Reads source (.rest ns) c₂ c₃) :
      Reads source (.rest (.operator op :: signed sign n :: ns)) c c₃
  | restEnd {c : Cursor} (hnone : (signs c).1 = none)
      (hop : c.kind?.bind TokenKind.operator? = none) : Reads source (.rest []) c c
  | operand {first : Node} {more : List Node} {c c₁ c₂ : Cursor}
      (hfirst : Reads source (.atom first) c c₁)
      (hmore : Reads source (.glue first.isText more) c₁ c₂) :
      Reads source (.operand (.ofParts first more)) c c₂
  | fragment {b : Bool} {t : Token} {rest : List Token} {part : Node} {more : List Node}
      {c c₁ c₂ : Cursor} (hadjacent : c.isAdjacent = true) (hc : c.rest = t :: rest)
      (hkind : t.kind.isFragment = true)
      (hpart : withFlavors source (.text (String.ofList t.text)) ⟨rest, t.span.stop⟩ =
        .ok (part, c₁))
      (hmore : Reads source (.glue part.isText more) c₁ c₂) :
      Reads source (.glue b (part :: more)) c c₂
  | behindText {kind : TokenKind} {part : Node} {more : List Node} {c c₁ c₂ : Cursor}
      (hadjacent : c.isAdjacent = true) (hc : c.kind? = some kind)
      (hkind : kind.isBehindText = true) (hpart : Reads source (.atom part) c c₁)
      (hmore : Reads source (.glue part.isText more) c₁ c₂) :
      Reads source (.glue true (part :: more)) c c₂
  | glueEnd {b : Bool} {c : Cursor} (hend : c.glues b = false) : Reads source (.glue b []) c c
  | literal {t : Token} {rest : List Token} {n n' : Node} {c c' : Cursor}
      (hc : c.rest = t :: rest) (hn : t.literal? = some n)
      (hcall : t.kind = .identifier → Cursor.opensCall ⟨rest, t.span.stop⟩ = false)
      (hflavors : withFlavors source n ⟨rest, t.span.stop⟩ = .ok (n', c')) :
      Reads source (.atom n') c c'
  | callEmpty {t : Token} {rest : List Token} {n' : Node} {c c' : Cursor}
      (hc : c.rest = t :: rest) (hkind : t.kind = .identifier)
      (hcall : Cursor.opensCall ⟨rest, t.span.stop⟩ = true)
      (hempty : (Cursor.skip ⟨rest, t.span.stop⟩).isAt .rightParen = true)
      (hflavors : withFlavors source (.function (String.ofList t.text) [])
        (Cursor.skip ⟨rest, t.span.stop⟩).skip = .ok (n', c')) :
      Reads source (.atom n') c c'
  | call {t : Token} {rest : List Token} {arguments : List SubFormula} {n' : Node}
      {c c₁ c' : Cursor} (hc : c.rest = t :: rest) (hkind : t.kind = .identifier)
      (hcall : Cursor.opensCall ⟨rest, t.span.stop⟩ = true)
      (hsome : (Cursor.skip ⟨rest, t.span.stop⟩).isAt .rightParen = false)
      (hlist : Reads source (.list arguments) (Cursor.skip ⟨rest, t.span.stop⟩) c₁)
      (hclose : c₁.isAt .rightParen = true)
      (hflavors : withFlavors source (.function (String.ofList t.text) arguments) c₁.skip =
        .ok (n', c')) : Reads source (.atom n') c c'
  | group {t : Token} {rest : List Token} {inner : SubFormula} {n' : Node} {c c₁ c' : Cursor}
      (hc : c.rest = t :: rest) (hkind : t.kind = .leftParen)
      (hinner : Reads source (.sub inner) ⟨rest, t.span.stop⟩ c₁)
      (hclose : c₁.isAt .rightParen = true)
      (hflavors : withFlavors source (.parenthetical inner) c₁.skip = .ok (n', c')) :
      Reads source (.atom n') c c'
  | pool {t closing : Token} {rest after : List Token} {items : List SubFormula}
      {ms : List Modifier} {n' : Node} {c c₁ c' : Cursor}
      (hc : c.rest = t :: rest) (hkind : t.kind = .leftBrace)
      (hsome : Cursor.isAt ⟨rest, t.span.stop⟩ .rightBrace = false)
      (hlist : Reads source (.list items) ⟨rest, t.span.stop⟩ c₁)
      (hclosing : c₁.rest = closing :: after) (hclose : closing.kind = .rightBrace)
      (hms : Modifier.ofSuffix .pool (closing.text.drop 1) = .ok ms)
      (hflavors : withFlavors source (.pool items ms) ⟨after, closing.span.stop⟩ =
        .ok (n', c')) : Reads source (.atom n') c c'
  | listLast {s : SubFormula} {c c₁ : Cursor} (hs : Reads source (.sub s) c c₁)
      (hcomma : c₁.isAt .comma = false) : Reads source (.list [s]) c c₁
  | listMore {s : SubFormula} {more : List SubFormula} {c c₁ c₂ : Cursor}
      (hs : Reads source (.sub s) c c₁) (hcomma : c₁.isAt .comma = true)
      (hmore : Reads source (.list more) c₁.skip c₂) : Reads source (.list (s :: more)) c c₂
  | sub {nodes : List Node} {c c₁ : Cursor} (hnodes : Reads source (.expression nodes) c c₁) :
      Reads source (.sub ⟨subText source c.stop c₁.stop, nodes⟩) c c₁

variable {source : List Char} {c c' : Cursor}

/-- An atom to which nothing is glued is an operand. -/
theorem Reads.alone {n : Node} (hn : Reads source (.atom n) c c')
    (hend : c'.glues n.isText = false) : Reads source (.operand n) c c' :=
  @Reads.operand source n [] c c' c' hn (.glueEnd hend)

/-! ## Tokens are taken away -/

/-- A token that is passed was there. -/
theorem Cursor.exists_of_isAt {kind : TokenKind} (h : c.isAt kind = true) :
    ∃ t rest, c.rest = t :: rest ∧ t.kind = kind ∧ c.skip = ⟨rest, t.span.stop⟩ := by
  obtain ⟨ts, stop⟩ := c
  cases ts with
  | nil => simp [isAt, kind?] at h
  | cons t rest => exact ⟨t, rest, rfl, by simpa [isAt, kind?] using h, rfl⟩

theorem Cursor.length_skip_le (c : Cursor) : c.skip.rest.length ≤ c.rest.length := by
  obtain ⟨ts, stop⟩ := c
  cases ts <;> simp [skip]

theorem Cursor.length_skip_lt {kind : TokenKind} (h : c.isAt kind = true) :
    c.skip.rest.length < c.rest.length := by
  obtain ⟨t, rest, hrest, -, hskip⟩ := exists_of_isAt h
  simp [hrest, hskip]

theorem Cursor.length_skip_lt_of_operator {op : Operator}
    (h : c.kind?.bind TokenKind.operator? = some op) : c.skip.rest.length < c.rest.length := by
  obtain ⟨ts, stop⟩ := c
  cases ts with
  | nil => simp [kind?] at h
  | cons t rest => simp [skip]

theorem length_signRun (soFar : Option Operator) (ts : List Token) (stop : Nat) :
    (signRun soFar ts stop).2.rest.length ≤ ts.length := by
  induction ts generalizing soFar stop with
  | nil => simp [signRun]
  | cons t rest ih =>
    unfold signRun
    split
    · exact Nat.le_succ_of_le (ih _ _)
    · exact Nat.le_succ_of_le (ih _ _)
    · exact Nat.le_refl _

theorem length_signs {sign : Option Operator} (h : signs c = (sign, c')) :
    c'.rest.length ≤ c.rest.length := by
  have := length_signRun none c.rest c.stop
  rw [show signRun none c.rest c.stop = (sign, c') from h] at this
  exact this

theorem length_signs_lt {op : Operator} (h : signs c = (some op, c')) :
    c'.rest.length < c.rest.length := by
  obtain ⟨ts, stop⟩ := c
  cases ts with
  | nil => simp [signs, signRun] at h
  | cons t rest =>
    have hrest : ∀ soFar, signRun soFar rest t.span.stop = (some op, c') →
        c'.rest.length < (t :: rest).length := by
      intro soFar hrun
      have := length_signRun soFar rest t.span.stop
      rw [hrun] at this
      exact Nat.lt_succ_of_le this
    simp only [signs, signRun] at h
    split at h
    · exact hrest _ h
    · exact hrest _ h
    · cases h

theorem length_flavorRun {ts : List Token} {stop : Nat} {flavors : List String}
    (h : flavorRun source ts stop = .ok (flavors, c')) : c'.rest.length ≤ ts.length := by
  induction ts generalizing stop flavors with
  | nil =>
    cases h
    exact Nat.le_refl _
  | cons t rest ih =>
    unfold flavorRun at h
    split at h
    · obtain ⟨⟨more, c₁⟩, hmore, heq⟩ := bind_eq_ok.mp h
      cases heq
      exact Nat.le_succ_of_le (ih hmore)
    · cases h
    · cases h
      exact Nat.le_refl _

theorem length_withFlavors {n n' : Node} (h : withFlavors source n c = .ok (n', c')) :
    c'.rest.length ≤ c.rest.length := by
  obtain ⟨⟨flavors, c₁⟩, hrun, heq⟩ := bind_eq_ok.mp h
  have hle := length_flavorRun hrun
  by_cases hempty : flavors.isEmpty = true
  · simp only [hempty, if_true] at heq
    cases heq
    exact hle
  · simp only [hempty, Bool.false_eq_true, if_false] at heq
    cases heq
    exact hle

/-- Whether a piece takes away a token at least. -/
def Piece.takesToken : Piece → Bool
  | rest _ | glue _ _ => false
  | _ => true

/-- A piece takes tokens away, and one at least where it has to. -/
theorem Reads.length {p : Piece} (h : Reads source p c c') :
    c'.rest.length + (if p.takesToken then 1 else 0) ≤ c.rest.length := by
  induction h with
  | restEnd | glueEnd => exact Nat.le_refl _
  | expression hsigns _ _ ihn ihns | restSum hsigns _ _ ihn ihns =>
    have := length_signs hsigns
    simp only [Piece.takesToken, if_true, Bool.false_eq_true, if_false] at ihn ihns ⊢
    omega
  | @restProduct _ _ _ _ c _ _ _ hnone hop hsigns _ _ ihn ihns =>
    have hle := length_signs hsigns
    have hskip := c.length_skip_le
    simp only [Piece.takesToken, if_true, Bool.false_eq_true, if_false] at ihn ihns ⊢
    omega
  | operand _ _ ihfirst ihmore =>
    simp only [Piece.takesToken, if_true, Bool.false_eq_true, if_false] at ihfirst ihmore ⊢
    omega
  | fragment hadjacent hc hkind hpart _ ihmore =>
    have hle := length_withFlavors hpart
    rw [hc, List.length_cons]
    simp only [Piece.takesToken, Bool.false_eq_true, if_false] at hle ihmore ⊢
    omega
  | behindText hadjacent hc hkind _ _ ihpart ihmore =>
    simp only [Piece.takesToken, if_true, Bool.false_eq_true, if_false] at ihpart ihmore ⊢
    omega
  | literal hc hn hcall hflavors =>
    have hle := length_withFlavors hflavors
    rw [hc, List.length_cons]
    simp only [Piece.takesToken, if_true] at hle ⊢
    omega
  | @callEmpty t rest _ _ _ hc hkind hcall hempty hflavors =>
    have hle := length_withFlavors hflavors
    have hskip := (Cursor.skip ⟨rest, t.span.stop⟩).length_skip_le
    have hskip' := Cursor.length_skip_le ⟨rest, t.span.stop⟩
    rw [hc, List.length_cons]
    simp only [Piece.takesToken, if_true] at hskip hskip' ⊢
    omega
  | @call t rest _ _ _ c₁ _ hc hkind hcall hsome _ hclose hflavors ih =>
    have hle := length_withFlavors hflavors
    have hskip := c₁.length_skip_le
    have hskip' := Cursor.length_skip_le ⟨rest, t.span.stop⟩
    rw [hc, List.length_cons]
    simp only [Piece.takesToken, if_true] at ih hskip' ⊢
    omega
  | @group _ _ _ _ _ c₁ _ hc hkind _ hclose hflavors ih =>
    have hle := length_withFlavors hflavors
    have hskip := c₁.length_skip_le
    rw [hc, List.length_cons]
    simp only [Piece.takesToken, if_true] at ih ⊢
    omega
  | pool hc hkind hsome _ hclosing hclose hms hflavors ih =>
    have hle := length_withFlavors hflavors
    rw [hc, List.length_cons]
    rw [hclosing, List.length_cons] at ih
    simp only [Piece.takesToken, if_true] at hle ih ⊢
    omega
  | listLast _ _ ih => exact ih
  | @listMore _ _ _ c₁ _ _ _ _ ihs ihmore =>
    have hskip := c₁.length_skip_le
    simp only [Piece.takesToken, if_true] at ihs ihmore ⊢
    omega
  | sub _ ih => exact ih

end DiceNotation.Formula
