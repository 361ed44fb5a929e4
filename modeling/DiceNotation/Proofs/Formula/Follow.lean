/-
  DiceNotation.Proofs.Formula.Follow

  What may stand behind a piece of a formula.

  A row ends before a closing bracket or a comma, and an operand there or before an
  operator between blanks (`EndsRow`, `EndsOperand`). What follows an atom may be
  exchanged for something else that neither goes on with its last token nor is a
  flavor or the arguments of a call (`Follows`). Reading stops where a piece ends:
  no flavor, glue or operator is found in the tokens of such a text.
-/

import DiceNotation.Proofs.Formula.Position

namespace DiceNotation.Formula

open Text

/-! ## Texts behind a piece -/

/-- A text before which a row of operands and operators ends. -/
def EndsRow (r : List Char) : Prop :=
  r = [] ∨ ∃ c rest, r = c :: rest ∧ (c = ')' ∨ c = ',' ∨ c = '\x7d')

/-- A text before which an operand ends. -/
def EndsOperand (r : List Char) : Prop :=
  EndsRow r ∨ ∃ (op : Operator) (rest : List Char), r = ' ' :: op.sign :: rest

/-- A text with flavors, if any, that can stand behind an atom in the place of another one. -/
structure EndsAtom (r r' : List Char) : Prop where
  /-- The last token of the atom ends in the same way. -/
  ends : EndsLike r r'
  /-- The arguments of a call follow only if they did before. -/
  call : begins (· == '(') r = false → begins (· == '(') r' = false

/-- A text that can stand behind an atom and its flavors in the place of another one. -/
structure Follows (r r' : List Char) : Prop extends EndsAtom r r' where
  /-- No flavor follows. -/
  plain : begins (· == '[') (r'.dropWhile isSeparator) = false

section

variable {r : List Char}

theorem EndsRow.cons {c : Char} (hc : c = ')' ∨ c = ',' ∨ c = '\x7d') (rest : List Char) :
    EndsRow (c :: rest) := .inr ⟨c, rest, rfl, hc⟩

/-- An operand ends before a delimiter that is no bracket to be opened. -/
theorem EndsOperand.cases (h : EndsOperand r) :
    r = [] ∨ ∃ c rest, r = c :: rest ∧ isDelimiter c = true ∧ c ≠ '(' ∧
      begins (· == '[') (r.dropWhile isSeparator) = false := by
  obtain (rfl | ⟨c, rest, rfl, hc⟩) | ⟨op, rest, rfl⟩ := h
  · exact .inl rfl
  · refine .inr ⟨c, rest, rfl, ?_⟩
    rcases hc with rfl | rfl | rfl <;> exact ⟨rfl, by decide, rfl⟩
  · refine .inr ⟨' ', op.sign :: rest, rfl, rfl, by decide, ?_⟩
    cases op <;> rfl

/-- The end of an operand may stand behind every atom. -/
theorem EndsOperand.follows (h : EndsOperand r) (cs : List Char) : Follows cs r := by
  obtain rfl | ⟨c, rest, rfl, hc, hparen, hplain⟩ := h.cases
  · exact ⟨⟨.of_isDelimiter nofun, fun _ => rfl⟩, rfl⟩
  · refine ⟨⟨.of_isDelimiter fun d hd => ?_, fun _ => ?_⟩, hplain⟩
    · cases hd
      exact hc
    · simpa [begins] using hparen

/-- A text that begins with the same character may follow. -/
theorem Follows.of_head {c : Char} (hc : isSeparator c = false) (hbracket : c ≠ '[')
    (rest rest' : List Char) : Follows (c :: rest) (c :: rest') where
  ends := .of_head rest rest'
  plain := by
    rw [List.dropWhile_cons, hc]
    simpa [begins] using hbracket
  call := id

theorem isSeparator_of_isDigit {c : Char} (hc : c.isDigit = true) : isSeparator c = false := by
  have hne : ∀ d : Char, d.isDigit = false → c ≠ d := fun d hd => ne_of_isDigit hc hd
  simp [isSeparator, hne ' ' rfl, hne '\t' rfl, hne '\r' rfl, hne '\n' rfl]

/-- A number may follow in the place of another one. -/
theorem Follows.of_isDigit {c c' : Char} (hc : c.isDigit = true) (hc' : c'.isDigit = true)
    (rest rest' : List Char) : Follows (c :: rest) (c' :: rest') := by
  refine ⟨⟨.of_isDigit hc hc' rest rest', fun _ => ?_⟩, ?_⟩
  · simpa [begins] using ne_of_isDigit hc' (show '('.isDigit = false from rfl)
  · rw [List.dropWhile_cons, isSeparator_of_isDigit hc']
    simpa [begins] using ne_of_isDigit hc' (show '['.isDigit = false from rfl)

end

/-! ## Where reading stops -/

section

variable {stop : Nat} {r : List Char} {k : List Token} {source : List Char}

/-- Behind its blanks a text begins with its first token. -/
theorem Scans.dropWhile_inv {t : Token} (h : Scans stop r (t :: k)) :
    ∃ rest, r.dropWhile isSeparator = t.text ++ rest ∧
      longest (t.text ++ rest) = (t.kind, t.text.length) := by
  generalize hts : t :: k = ts at h
  induction h with
  | done => cases hts
  | @blank start c cs ts' hc hcs ih =>
    obtain ⟨rest, hdrop, hlongest⟩ := ih hts
    exact ⟨rest, by rw [List.dropWhile_cons, if_pos hc, hdrop], hlongest⟩
  | @token start kind w r ts' hw hhead hlongest hr =>
    cases hts
    refine ⟨r, ?_, hlongest⟩
    obtain ⟨c, w, rfl⟩ := List.exists_cons_of_ne_nil hw
    rw [List.cons_append, List.dropWhile_cons, show isSeparator c = false from hhead]
    rfl

theorem flavorRun_of_plain (h : Scans stop r k)
    (hr : begins (· == '[') (r.dropWhile isSeparator) = false) :
    flavorRun source k stop = .ok ([], ⟨k, stop⟩) := by
  cases k with
  | nil => rfl
  | cons t k =>
    obtain ⟨rest, hdrop, hlongest⟩ := h.dropWhile_inv
    have hkind : ¬ (t.kind = .flavor ∨ t.kind = .emptyFlavor) := by
      intro hkind
      rw [hdrop, begins_bracket_of_longest hlongest hkind] at hr
      cases hr
    unfold flavorRun
    split
    · next heq => exact absurd (.inl heq) hkind
    · next heq => exact absurd (.inr heq) hkind
    · rfl

theorem withFlavors_of_plain (h : Scans stop r k)
    (hr : begins (· == '[') (r.dropWhile isSeparator) = false) (n : Node) :
    withFlavors source n ⟨k, stop⟩ = .ok (n, ⟨k, stop⟩) := by
  rw [withFlavors, flavorRun_of_plain h hr]
  rfl

/-- A flavor that is written is read again. -/
theorem withFlavors_of_flavor {flavor : String} (hne : flavor.toList ≠ [])
    (hinner : ∀ c ∈ flavor.toList, c ≠ ']')
    (h : Scans (stop + byteLength ('[' :: flavor.toList ++ [']'])) r k)
    (hr : begins (· == '[') (r.dropWhile isSeparator) = false) :
    ∃ ts, Scans stop ('[' :: flavor.toList ++ [']'] ++ r) ts ∧ ∀ n : Node,
      withFlavors source n ⟨ts, stop⟩ =
        .ok (.annotated n flavor, ⟨k, stop + byteLength ('[' :: flavor.toList ++ [']'])⟩) := by
  have hlongest : longest ('[' :: flavor.toList ++ [']'] ++ r) =
      (.flavor, ('[' :: flavor.toList ++ [']']).length) := by
    rw [List.append_assoc]
    refine (longest_flavor hne hinner r).trans ?_
    simp
  refine ⟨_, .token (List.cons_ne_nil _ _) rfl hlongest h, fun n => ?_⟩
  have hrun := @flavorRun_of_plain _ r k source h hr
  simp only [withFlavors, flavorRun, hrun, ok_bind]
  have htext : String.ofList (('[' :: flavor.toList ++ [']']).drop 1).dropLast = flavor := by
    simp
  simp only [flavorText, htext]
  rfl

/-- Text that does not begin with a bracket does not open the arguments of a call. -/
theorem opensCall_eq_false (h : Scans stop r k) (hr : begins (· == '(') r = false) :
    Cursor.opensCall ⟨k, stop⟩ = false := by
  cases hopens : Cursor.opensCall ⟨k, stop⟩ with
  | false => rfl
  | true =>
    obtain ⟨hadjacent, hat⟩ := Bool.and_eq_true_iff.mp hopens
    obtain ⟨t, rest, hrest, hkind, -⟩ := Cursor.exists_of_isAt hat
    obtain rfl : k = t :: rest := hrest
    obtain ⟨r', rfl, hne, -, hlongest, -⟩ := h.adjacent_inv (beq_iff_eq.mp hadjacent)
    rw [hkind] at hlongest
    rw [begins_paren_of_longest hlongest] at hr
    cases hr

/-- A bracket at the head of a text opens the arguments of a call. -/
theorem begins_paren_of_opensCall (h : Scans stop r k)
    (hopens : Cursor.opensCall ⟨k, stop⟩ = false) : begins (· == '(') r = false := by
  cases hbegins : begins (· == '(') r with
  | false => rfl
  | true =>
    obtain ⟨rest, rfl⟩ := eq_cons_of_begins hbegins
    obtain ⟨t, k, rfl, hstart, hlongest⟩ := h.head_inv rfl
    have hkind : t.kind = .leftParen := (congrArg Prod.fst hlongest).symm
    rw [Cursor.opensCall] at hopens
    simp [Cursor.isAdjacent, hstart, Cursor.isAt, Cursor.kind?, hkind] at hopens

/-- A row ends at the end of its text, a closing bracket or a comma. -/
theorem EndsRow.kind? (hr : EndsRow r) (h : Scans stop r k) :
    Cursor.kind? ⟨k, stop⟩ = none ∨ Cursor.kind? ⟨k, stop⟩ = some .rightParen ∨
      Cursor.kind? ⟨k, stop⟩ = some .comma ∨ Cursor.kind? ⟨k, stop⟩ = some .rightBrace := by
  obtain rfl | ⟨c, rest, rfl, hc⟩ := hr
  · rw [h.nil_inv]
    exact .inl rfl
  · have hsep : isSeparator c = false := by rcases hc with rfl | rfl | rfl <;> rfl
    obtain ⟨t, k, rfl, -, hlongest⟩ := h.head_inv hsep
    have hkind : Cursor.kind? ⟨t :: k, stop⟩ = some (longest (c :: rest)).1 := by
      rw [hlongest]
      rfl
    rw [hkind]
    rcases hc with rfl | rfl | rfl
    · exact .inr (.inl rfl)
    · exact .inr (.inr (.inl rfl))
    · rw [longest_rightBrace]
      exact .inr (.inr (.inr rfl))

theorem EndsOperand.glues (hr : EndsOperand r) (h : Scans stop r k) (afterText : Bool) :
    Cursor.glues afterText ⟨k, stop⟩ = false := by
  obtain hr | ⟨op, rest, rfl⟩ := hr
  · rw [Cursor.glues]
    rcases hr.kind? h with hkind | hkind | hkind | hkind <;> rw [hkind] <;> cases afterText <;>
      simp [TokenKind.isFragment, TokenKind.isBehindText]
  · rw [Cursor.glues, h.isAdjacent_blank rfl]
    rfl

/-- A run of signs ends where no sign stands. -/
theorem signRun_of_kind? {c : Cursor} (hplus : c.kind? ≠ some .plus)
    (hminus : c.kind? ≠ some .minus) (soFar : Option Operator) :
    signRun soFar c.rest c.stop = (soFar, c) := by
  obtain ⟨ts, stop⟩ := c
  cases ts with
  | nil => rfl
  | cons t ts =>
    unfold signRun
    split
    · next heq => exact absurd (congrArg some heq) hplus
    · next heq => exact absurd (congrArg some heq) hminus
    · rfl

theorem EndsRow.stops (hr : EndsRow r) (h : Scans stop r k) :
    (signs ⟨k, stop⟩).1 = none ∧ (Cursor.kind? ⟨k, stop⟩).bind TokenKind.operator? = none := by
  have hkind := hr.kind? h
  have hsigns := @signRun_of_kind? ⟨k, stop⟩ (by rcases hkind with h | h | h | h <;> simp [h])
    (by rcases hkind with h | h | h | h <;> simp [h]) none
  refine ⟨by rw [signs, hsigns], ?_⟩
  rcases hkind with h | h | h | h <;> rw [h] <;> rfl

end

end DiceNotation.Formula
