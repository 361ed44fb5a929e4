/-
  DiceNotation.Proofs.Formula.Longest

  The longest token at the head of a text.

  A token stays the longest one where the text behind it changes, as long as the
  new text ends it in the same way (`longest_of_endsLike`). The tokens that
  formulas are written with are the longest ones where they stand
  (`longest_number`, `longest_decimal`, `longest_dice`, `longest_flavor`).
-/

import DiceNotation.Proofs.Formula.Lexeme

namespace DiceNotation.Formula

/-! ## The choice among the classes -/

/-- The longest token among those of some classes and one that was found before. -/
def longestOf (cs : List Char) (rs : List (TokenKind × (List Char → Nat)))
    (best : TokenKind × Nat) : TokenKind × Nat :=
  rs.foldl (fun best (kind, length) => if best.2 < length cs then (kind, length cs) else best) best

theorem longest_eq (cs : List Char) :
    longest cs =
      if (longestOf cs rules (.unrecognized, 0)).2 == 0 then (.unrecognized, unrecognizedLength cs)
      else longestOf cs rules (.unrecognized, 0) := rfl

section

variable {cs cs' : List Char} {rs : List (TokenKind × (List Char → Nat))}
  {best : TokenKind × Nat}

theorem longestOf_cons (rule : TokenKind × (List Char → Nat)) :
    longestOf cs (rule :: rs) best =
      longestOf cs rs (if best.2 < rule.2 cs then (rule.1, rule.2 cs) else best) := rfl

theorem longestOf_congr (h : ∀ rule ∈ rs, rule.2 cs = rule.2 cs') :
    longestOf cs rs best = longestOf cs' rs best := by
  induction rs generalizing best with
  | nil => rfl
  | cons rule rs ih =>
    rw [longestOf_cons, longestOf_cons, h rule List.mem_cons_self]
    exact ih fun rule hrule => h rule (List.mem_cons_of_mem _ hrule)

/-- No class has a longer token than the longest one. -/
theorem le_longestOf : best.2 ≤ (longestOf cs rs best).2 ∧
    ∀ rule ∈ rs, rule.2 cs ≤ (longestOf cs rs best).2 := by
  induction rs generalizing best with
  | nil => exact ⟨Nat.le_refl _, fun rule hrule => absurd hrule List.not_mem_nil⟩
  | cons rule rs ih =>
    rw [longestOf_cons]
    obtain ⟨hbest, hrs⟩ := @ih (if best.2 < rule.2 cs then (rule.1, rule.2 cs) else best)
    have hboth : best.2 ≤ (if best.2 < rule.2 cs then (rule.1, rule.2 cs) else best).2 ∧
        rule.2 cs ≤ (if best.2 < rule.2 cs then (rule.1, rule.2 cs) else best).2 := by
      split
      · exact ⟨by omega, Nat.le_refl _⟩
      · exact ⟨Nat.le_refl _, by omega⟩
    refine ⟨Nat.le_trans hboth.1 hbest, fun rule' hrule' => ?_⟩
    obtain rfl | hrule' := List.mem_cons.mp hrule'
    · exact Nat.le_trans hboth.2 hbest
    · exact hrs rule' hrule'

theorem longestOf_of_le (h : ∀ rule ∈ rs, rule.2 cs ≤ best.2) : longestOf cs rs best = best := by
  induction rs with
  | nil => rfl
  | cons rule rs ih =>
    rw [longestOf_cons, if_neg (Nat.not_lt.mpr (h rule List.mem_cons_self))]
    exact ih fun rule hrule => h rule (List.mem_cons_of_mem _ hrule)

theorem longestOf_lt {n : Nat} (hbest : best.2 < n) (h : ∀ rule ∈ rs, rule.2 cs < n) :
    (longestOf cs rs best).2 < n := by
  induction rs generalizing best with
  | nil => exact hbest
  | cons rule rs ih =>
    rw [longestOf_cons]
    refine ih ?_ fun rule hrule => h rule (List.mem_cons_of_mem _ hrule)
    split
    · exact h rule List.mem_cons_self
    · exact hbest

/-- The longest token is that of a class, unless none is longer than the one before. -/
theorem longestOf_eq : longestOf cs rs best = best ∨
    ∃ rule ∈ rs, longestOf cs rs best = (rule.1, rule.2 cs) := by
  induction rs generalizing best with
  | nil => exact .inl rfl
  | cons rule rs ih =>
    rw [longestOf_cons]
    obtain heq | ⟨rule', hrule', heq⟩ :=
      @ih (if best.2 < rule.2 cs then (rule.1, rule.2 cs) else best)
    · rw [heq]
      split
      · exact .inr ⟨rule, List.mem_cons_self, rfl⟩
      · exact .inl rfl
    · exact .inr ⟨rule', List.mem_cons_of_mem _ hrule', heq⟩

/-- A class has the longest token if its token is longer than those of the classes before
    and no shorter than those of the classes behind. -/
theorem longest_of_rules {before behind : List (TokenKind × (List Char → Nat))} {kind : TokenKind}
    {length : List Char → Nat} {n : Nat} (hrules : rules = before ++ (kind, length) :: behind)
    (hn : length cs = n) (hpos : 0 < n) (hbefore : ∀ rule ∈ before, rule.2 cs < n)
    (hbehind : ∀ rule ∈ behind, rule.2 cs ≤ n) : longest cs = (kind, n) := by
  have hbest : longestOf cs rules (.unrecognized, 0) = (kind, n) := by
    rw [hrules, longestOf, List.foldl_append]
    show longestOf cs ((kind, length) :: behind) (longestOf cs before (.unrecognized, 0)) = _
    have hlt : (longestOf cs before (.unrecognized, 0)).2 < length cs := by
      rw [hn]
      exact longestOf_lt hpos hbefore
    rw [longestOf_cons, if_pos hlt]
    show longestOf cs behind (kind, length cs) = _
    rw [hn]
    exact longestOf_of_le hbehind
  rw [longest_eq, hbest, if_neg (by simp; omega)]

/-- A token that was recognized is as long as the longest one of any class. -/
theorem longestOf_of_longest {kind : TokenKind} {n : Nat} (h : longest cs = (kind, n))
    (hkind : kind ≠ .unrecognized) :
    longestOf cs rules (.unrecognized, 0) = (kind, n) ∧ 0 < n ∧ ∀ rule ∈ rules, rule.2 cs ≤ n := by
  rw [longest_eq] at h
  split at h
  · cases h
    exact absurd rfl hkind
  · next hne =>
    have hle := (@le_longestOf cs rules (.unrecognized, 0)).2
    rw [h] at hne hle
    refine ⟨h, ?_, hle⟩
    simp only [beq_iff_eq] at hne
    omega

end

/-! ## What follows a token -/

/-- Digits that no token goes beyond are followed by no digit and no letter of dice. -/
theorem begins_of_digits {w r : List Char} (hle : ∀ rule ∈ rules, rule.2 (w ++ r) ≤ w.length)
    (hne : w ≠ []) (hall : ∀ c ∈ w, c.isDigit = true) :
    begins Char.isDigit r = false ∧ begins isDiceLetter r = false := by
  have hdigit : begins Char.isDigit r = false :=
    begins_isDigit_of_numberLength hall (hle (.number, numberLength) (by simp [rules]))
  exact ⟨hdigit, begins_isDiceLetter_of_dicePrefixLength hall hne hdigit
    (hle (.dicePrefix, dicePrefixLength) (by simp [rules]))⟩

/-- A token stays the longest one where what follows it ends it in the same way. -/
theorem longest_of_endsLike {w r r' : List Char} {kind : TokenKind}
    (h : longest (w ++ r) = (kind, w.length)) (hkind : kind ≠ .unrecognized)
    (hw : begins (· == '[') w = false) (hlike : EndsLike r r') :
    longest (w ++ r') = (kind, w.length) := by
  obtain ⟨hbest, hpos, hle⟩ := longestOf_of_longest h hkind
  obtain _ | ⟨c, w⟩ := w
  · exact absurd hpos (Nat.lt_irrefl 0)
  have hne : c :: w ≠ [] := List.cons_ne_nil c w
  have hc : c ≠ '[' := by
    rintro rfl
    cases hw
  have hnumber := begins_of_digits hle hne
  have hsame : ∀ rule ∈ rules, rule.2 (c :: w ++ r') = rule.2 (c :: w ++ r) := by
    intro rule hrule
    have hle := hle rule hrule
    simp only [rules, List.mem_cons, List.not_mem_nil, or_false] at hrule
    rcases hrule with rfl | rfl | rfl | rfl | rfl | rfl | rfl | rfl | rfl | rfl | rfl | rfl | rfl |
      rfl | rfl | rfl | rfl
    · exact numberLength_local hlike hne hle
    · exact diceLength_local hlike hnumber hle
    · exact dicePrefixLength_local hlike hnumber
    · exact identifierLength_local hlike hne hle
    · exact dataReferenceLength_local hlike hne hle
    · rfl
    · rfl
    · rfl
    · exact rightBraceLength_local hlike hne hle
    iterate 6 rfl
    · exact (flavorLength_of_head hc _).trans (flavorLength_of_head hc _).symm
    · exact (emptyFlavorLength_of_head hc _).trans (emptyFlavorLength_of_head hc _).symm
  rw [longest_eq, longestOf_congr hsame, hbest, if_neg (by simp)]

/-! ## Tokens as formulas are written with them -/

/-- Words, references, brackets and signs do not begin with a digit. -/
theorem length_eq_zero_of_isDigit {c : Char} (hc : c.isDigit = true) (cs : List Char) :
    ∀ rule ∈ rules.drop 3, rule.2 (c :: cs) = 0 := by
  have hne : ∀ d : Char, d.isDigit = false → c ≠ d := fun d hd => ne_of_isDigit hc hd
  intro rule hrule
  have hchar : ∀ expected : Char, expected.isDigit = false →
      charLength expected (c :: cs) = 0 := by
    intro expected hexpected
    simp [charLength, hne expected hexpected]
  simp only [rules, List.drop_succ_cons, List.drop_zero, List.mem_cons, List.not_mem_nil,
    or_false] at hrule
  rcases hrule with rfl | rfl | rfl | rfl | rfl | rfl | rfl | rfl | rfl | rfl | rfl | rfl | rfl |
    rfl
  · simp [identifierLength, isWordStart, isAlpha_of_isDigit hc, hne '_' rfl]
  · show dataReferenceLength (c :: cs) = 0
    unfold dataReferenceLength
    split
    · next heq =>
      cases heq
      cases hc
    · rfl
  · exact hchar '(' rfl
  · exact hchar ')' rfl
  · exact hchar '\x7b' rfl
  · show rightBraceLength (c :: cs) = 0
    unfold rightBraceLength
    split
    · next heq =>
      cases heq
      cases hc
    · rfl
  · exact hchar ',' rfl
  · exact hchar '+' rfl
  · exact hchar '-' rfl
  · exact hchar '*' rfl
  · exact hchar '/' rfl
  · exact hchar '%' rfl
  · exact flavorLength_of_head (hne '[' rfl) cs
  · exact emptyFlavorLength_of_head (hne '[' rfl) cs

/-- Digits are a number unless a digit, a point or the letter of dice follows. -/
theorem longest_number {w r : List Char} (hw : ∀ c ∈ w, c.isDigit = true) (hne : w ≠ [])
    (hdigit : begins Char.isDigit r = false) (hpoint : begins (· == '.') r = false)
    (hletter : begins isDiceLetter r = false) : longest (w ++ r) = (.number, w.length) := by
  have hpos : 0 < w.length := List.length_pos_iff.mpr hne
  have hnumber : numberLength (w ++ r) = w.length := by
    rw [numberLength_of_all hw hne hdigit, hpoint]
    rfl
  refine @longest_of_rules _ [] (rules.drop 1) _ numberLength _ rfl hnumber hpos nofun ?_
  intro rule hrule
  obtain rfl | rfl | hrule : rule = (.dice, diceLength) ∨ rule = (.dicePrefix, dicePrefixLength) ∨
      rule ∈ rules.drop 3 := by simpa [rules] using hrule
  · have hzero : diceLength (w ++ r) = 0 := diceLength_of_all hw hdigit hletter
    exact Nat.le_trans (Nat.le_of_eq hzero) (Nat.zero_le _)
  · have hzero : dicePrefixLength (w ++ r) = 0 := by
      rw [dicePrefixLength_of_all hw hdigit, hletter, Bool.and_false]
      rfl
    exact Nat.le_trans (Nat.le_of_eq hzero) (Nat.zero_le _)
  · obtain ⟨c, w, rfl⟩ := List.exists_cons_of_ne_nil hne
    rw [List.cons_append, length_eq_zero_of_isDigit (hw c List.mem_cons_self) _ rule hrule]
    exact Nat.zero_le _

/-- Digits with a point between them are a number unless a digit follows. -/
theorem longest_decimal {u v r : List Char} (hu : ∀ c ∈ u, c.isDigit = true) (hne : u ≠ [])
    (hv : ∀ c ∈ v, c.isDigit = true) (hdigit : begins Char.isDigit r = false) :
    longest (u ++ '.' :: v ++ r) = (.number, (u ++ '.' :: v).length) := by
  have hpoint : '.'.isDigit = false := rfl
  have hlength : u.length ≠ 0 := fun h => hne (List.length_eq_zero_iff.mp h)
  have hrun : runLength Char.isDigit (v ++ r) = v.length := by
    rw [runLength_append_of_all hv, runLength_of_begins hdigit, Nat.add_zero]
  have hnumber : numberLength (u ++ '.' :: v ++ r) = (u ++ '.' :: v).length := by
    rw [List.append_assoc, List.cons_append, numberLength_append_cons hu hpoint, if_pos rfl, hrun,
      if_neg (by simp [hlength]), List.length_append, List.length_cons]
    omega
  refine @longest_of_rules _ [] (rules.drop 1) _ numberLength _ rfl hnumber
    (List.length_pos_iff.mpr (by simp)) nofun ?_
  intro rule hrule
  have hzero : rule.2 (u ++ '.' :: v ++ r) = 0 := by
    obtain rfl | rfl | hrule : rule = (.dice, diceLength) ∨ rule = (.dicePrefix, dicePrefixLength) ∨
        rule ∈ rules.drop 3 := by simpa [rules] using hrule
    · show diceLength (u ++ '.' :: v ++ r) = 0
      rw [List.append_assoc, List.cons_append, diceLength_append_cons hu hpoint]
      rfl
    · show dicePrefixLength (u ++ '.' :: v ++ r) = 0
      rw [List.append_assoc, List.cons_append, dicePrefixLength_append_cons hu hpoint,
        show isDiceLetter '.' = false from rfl, Bool.and_false]
      rfl
    · obtain ⟨c, u, rfl⟩ := List.exists_cons_of_ne_nil hne
      exact length_eq_zero_of_isDigit (hu c List.mem_cons_self) _ rule hrule
  rw [hzero]
  exact Nat.zero_le _

/-- Dice with a number are a token unless their faces or their suffix go on. -/
theorem longest_dice {u v r : List Char} (hu : ∀ c ∈ u, c.isDigit = true) (hne : u ≠ [])
    (hfaces : facesLength (v ++ r) ≠ 0)
    (hsuffix : facesLength (v ++ r) +
      suffixLength .between ((v ++ r).drop (facesLength (v ++ r))) = v.length) :
    longest (u ++ 'd' :: v ++ r) = (.dice, (u ++ 'd' :: v).length) := by
  have hd : 'd'.isDigit = false := rfl
  have hdice : diceLength (u ++ 'd' :: v ++ r) = (u ++ 'd' :: v).length := by
    rw [List.append_assoc, List.cons_append, diceLength_append_cons hu hd,
      if_pos (show isDiceLetter 'd' = true from rfl), if_neg (by simpa using hfaces),
      List.length_append, List.length_cons, ← hsuffix]
    omega
  refine @longest_of_rules _ [(.number, numberLength)] (rules.drop 2) _ diceLength _ rfl hdice
    (List.length_pos_iff.mpr (by simp)) ?_ ?_
  · intro rule hrule
    obtain rfl := List.mem_singleton.mp hrule
    show numberLength (u ++ 'd' :: v ++ r) < _
    rw [List.append_assoc, List.cons_append, numberLength_append_cons hu hd, if_neg (by decide),
      List.length_append, List.length_cons]
    omega
  · intro rule hrule
    obtain rfl | hrule : rule = (.dicePrefix, dicePrefixLength) ∨ rule ∈ rules.drop 3 := by
      simpa [rules] using hrule
    · show dicePrefixLength (u ++ 'd' :: v ++ r) ≤ _
      rw [List.append_assoc, List.cons_append, dicePrefixLength_append_cons hu hd,
        List.length_append, List.length_cons]
      split <;> omega
    · obtain ⟨c, u, rfl⟩ := List.exists_cons_of_ne_nil hne
      rw [List.cons_append, List.cons_append,
        length_eq_zero_of_isDigit (hu c List.mem_cons_self) _ rule hrule]
      exact Nat.zero_le _

/-- A text in brackets is a flavor. -/
theorem longest_flavor {inner : List Char} (hne : inner ≠ []) (hinner : ∀ c ∈ inner, c ≠ ']')
    (r : List Char) :
    longest ('[' :: inner ++ ']' :: r) = (.flavor, inner.length + 2) := by
  have hrun : runLength (· != ']') (inner ++ ']' :: r) = inner.length :=
    runLength_append_cons (by simpa using hinner) rfl r
  have hflavor : flavorLength ('[' :: inner ++ ']' :: r) = inner.length + 2 := by
    have hpos : inner.length ≠ 0 := fun h => hne (List.length_eq_zero_iff.mp h)
    rw [List.cons_append, flavorLength]
    simp only [hrun]
    rw [if_pos]
    simp [hpos]
  refine @longest_of_rules _ (rules.take 15) [(.emptyFlavor, emptyFlavorLength)] _ flavorLength _
    rfl hflavor (by omega) ?_ ?_
  · intro rule hrule
    simp only [rules, List.take_succ_cons, List.take_zero, List.mem_cons, List.not_mem_nil,
      or_false] at hrule
    rcases hrule with rfl | rfl | rfl | rfl | rfl | rfl | rfl | rfl | rfl | rfl | rfl | rfl | rfl |
      rfl | rfl <;> exact Nat.succ_pos _
  · intro rule hrule
    obtain rfl := List.mem_singleton.mp hrule
    obtain ⟨c, inner, rfl⟩ := List.exists_cons_of_ne_nil hne
    show emptyFlavorLength ('[' :: c :: inner ++ ']' :: r) ≤ _
    have hzero : emptyFlavorLength ('[' :: c :: inner ++ ']' :: r) = 0 := by
      unfold emptyFlavorLength
      split
      · next heq =>
        cases heq
        exact absurd rfl (hinner ']' List.mem_cons_self)
      · rfl
    rw [hzero]
    exact Nat.zero_le _

end DiceNotation.Formula
