/-
  DiceNotation.Proofs.Formula.Scan

  Texts and the tokens they are made of.

  `Scans` relates a text at a position to its tokens, one rule for a blank and one
  for a token. It holds of exactly the tokens that `tokensFrom` gives
  (`scans_iff`), and it can be followed from either end: a text is taken apart into
  its tokens (`Scans.cons_inv`) and put together from them.
-/

import DiceNotation.Formula.Parser
import DiceNotation.Proofs.Formula.Longest

namespace DiceNotation.Formula

open Text

/-! ## Lengths -/

theorem runLength_le (p : Char → Bool) (cs : List Char) : runLength p cs ≤ cs.length := by
  induction cs with
  | nil => exact Nat.le_refl _
  | cons c cs ih =>
    simp only [runLength, List.length_cons]
    split <;> omega

theorem suffixLength_le (state : SuffixState) (cs : List Char) :
    suffixLength state cs ≤ cs.length := by
  induction cs generalizing state with
  | nil => exact Nat.le_refl _
  | cons c cs ih =>
    simp only [suffixLength, List.length_cons]
    split
    · next state' _ =>
      have hle := ih state'
      omega
    · omega

theorem facesLength_le (cs : List Char) : facesLength cs ≤ cs.length := by
  cases cs with
  | nil => exact Nat.le_refl _
  | cons c cs =>
    have hle := runLength_le Char.isDigit (c :: cs)
    simp only [facesLength, List.length_cons] at hle ⊢
    split <;> omega

theorem numberLength_le (cs : List Char) : numberLength cs ≤ cs.length := by
  have hle := runLength_le Char.isDigit cs
  simp only [numberLength]
  split
  · next rest hdrop =>
    have hlength := congrArg List.length hdrop
    have hrest := runLength_le Char.isDigit rest
    rw [List.length_drop, List.length_cons] at hlength
    split <;> omega
  · exact hle

theorem diceLength_le (cs : List Char) : diceLength cs ≤ cs.length := by
  simp only [diceLength]
  split
  · next letter rest hdrop =>
    have hlength := congrArg List.length hdrop
    have hfaces := facesLength_le rest
    have hsuffix := suffixLength_le .between (rest.drop (facesLength rest))
    rw [List.length_drop, List.length_cons] at hlength
    rw [List.length_drop] at hsuffix
    split
    · split <;> omega
    · omega
  · exact Nat.zero_le _

theorem dicePrefixLength_le (cs : List Char) : dicePrefixLength cs ≤ cs.length := by
  simp only [dicePrefixLength]
  split
  · next letter rest hdrop =>
    have hlength := congrArg List.length hdrop
    rw [List.length_drop, List.length_cons] at hlength
    split <;> omega
  · exact Nat.zero_le _

theorem charLength_le (expected : Char) (cs : List Char) :
    charLength expected cs ≤ cs.length := by
  cases cs with
  | nil => exact Nat.le_refl _
  | cons c cs =>
    simp only [charLength, List.length_cons]
    split <;> omega

/-- No token is longer than the text. -/
theorem length_le_of_rules (cs : List Char) : ∀ rule ∈ rules, rule.2 cs ≤ cs.length := by
  intro rule hrule
  simp only [rules, List.mem_cons, List.not_mem_nil, or_false] at hrule
  rcases hrule with rfl | rfl | rfl | rfl | rfl | rfl | rfl | rfl | rfl | rfl | rfl | rfl | rfl |
    rfl | rfl | rfl | rfl
  · exact numberLength_le cs
  · exact diceLength_le cs
  · exact dicePrefixLength_le cs
  · show identifierLength cs ≤ cs.length
    cases cs with
    | nil => exact Nat.le_refl _
    | cons c cs =>
      have hle := runLength_le isWordChar cs
      simp only [identifierLength, List.length_cons]
      split <;> omega
  · show dataReferenceLength cs ≤ cs.length
    unfold dataReferenceLength
    split
    · next rest =>
      have hle := runLength_le isPathChar rest
      simp only [List.length_cons]
      split <;> omega
    · exact Nat.zero_le _
  · exact charLength_le _ cs
  · exact charLength_le _ cs
  · exact charLength_le _ cs
  · show rightBraceLength cs ≤ cs.length
    unfold rightBraceLength
    split
    · next rest =>
      have hle := suffixLength_le .between rest
      simp only [List.length_cons]
      omega
    · exact Nat.zero_le _
  iterate 6 exact charLength_le _ cs
  · show flavorLength cs ≤ cs.length
    unfold flavorLength
    split
    · next rest =>
      simp only [List.length_cons]
      split
      · next hinside =>
        simp only [Bool.and_eq_true, decide_eq_true_eq] at hinside
        omega
      · omega
    · exact Nat.zero_le _
  · show emptyFlavorLength cs ≤ cs.length
    unfold emptyFlavorLength
    split
    · simp only [List.length_cons]
      omega
    · exact Nat.zero_le _

theorem longest_bounds {c : Char} {cs : List Char} {kind : TokenKind} {n : Nat}
    (h : longest (c :: cs) = (kind, n)) : 0 < n ∧ n ≤ (c :: cs).length := by
  have hbound : (longestOf (c :: cs) rules (.unrecognized, 0)).2 ≤ (c :: cs).length :=
    Nat.le_of_lt_succ (longestOf_lt (Nat.succ_pos _) fun rule hrule =>
      Nat.lt_succ_of_le (length_le_of_rules (c :: cs) rule hrule))
  rw [longest_eq] at h
  split at h
  · cases h
    unfold unrecognizedLength
    split
    · next heq =>
      cases heq
      simp only [List.length_cons]
      omega
    · simp only [List.length_cons]
      omega
  · next hne =>
    rw [h] at hne hbound
    simp only [beq_iff_eq] at hne
    exact ⟨by omega, hbound⟩

/-! ## Texts and tokens -/

/-- A text that begins at a position and its tokens. -/
inductive Scans : Nat → List Char → List Token → Prop where
  | done (start : Nat) : Scans start [] []
  | blank {start : Nat} {c : Char} {cs : List Char} {ts : List Token}
      (hc : isSeparator c = true) (hcs : Scans (start + c.utf8Size) cs ts) :
      Scans start (c :: cs) ts
  | token {start : Nat} {kind : TokenKind} {w r : List Char} {ts : List Token} (hw : w ≠ [])
      (hhead : begins isSeparator w = false) (hlongest : longest (w ++ r) = (kind, w.length))
      (hr : Scans (start + byteLength w) r ts) :
      Scans start (w ++ r) (⟨kind, w, ⟨start, start + byteLength w⟩⟩ :: ts)

theorem scans_tokensFrom {fuel : Nat} {cs : List Char} (hfuel : cs.length ≤ fuel) (start : Nat) :
    Scans start cs (tokensFrom fuel start cs) := by
  induction fuel generalizing cs start with
  | zero =>
    rw [List.length_eq_zero_iff.mp (Nat.le_zero.mp hfuel)]
    exact .done start
  | succ fuel ih =>
    cases cs with
    | nil => exact .done start
    | cons c rest =>
      simp only [List.length_cons] at hfuel
      rw [tokensFrom]
      split
      · next hc => exact .blank hc (ih (by omega) _)
      · next hc =>
        rcases hlongest : longest (c :: rest) with ⟨kind, n⟩
        obtain ⟨hpos, hle⟩ := longest_bounds hlongest
        simp only [List.length_cons] at hle
        have hlength : ((c :: rest).take n).length = n := by
          rw [List.length_take, List.length_cons]
          omega
        obtain ⟨m, rfl⟩ : ∃ m, n = m + 1 := ⟨n - 1, by omega⟩
        have hscan := @Scans.token start kind ((c :: rest).take (m + 1)) ((c :: rest).drop (m + 1))
          (tokensFrom fuel (start + byteLength ((c :: rest).take (m + 1)))
            ((c :: rest).drop (m + 1))) (List.cons_ne_nil _ _)
          (by simpa [begins] using hc)
          (by rw [List.take_append_drop, hlongest, hlength])
          (ih (by rw [List.length_drop, List.length_cons]; omega) _)
        rw [List.take_append_drop] at hscan
        exact hscan

theorem Scans.tokensFrom_eq {start : Nat} {cs : List Char} {ts : List Token}
    (h : Scans start cs ts) {fuel : Nat} (hfuel : cs.length ≤ fuel) :
    tokensFrom fuel start cs = ts := by
  induction h generalizing fuel with
  | done start => cases fuel <;> rfl
  | @blank start c cs ts hc hcs ih =>
    simp only [List.length_cons] at hfuel
    obtain _ | fuel := fuel
    · omega
    · rw [tokensFrom, if_pos hc]
      exact ih (by omega)
  | @token start kind w r ts hw hhead hlongest hr ih =>
    obtain ⟨c, w, rfl⟩ := List.exists_cons_of_ne_nil hw
    simp only [List.length_append, List.length_cons] at hfuel
    obtain _ | fuel := fuel
    · omega
    · have hc : ¬ isSeparator c = true := by simpa [begins] using hhead
      have htake : (c :: (w ++ r)).take (c :: w).length = c :: w :=
        @List.take_left _ (c :: w) r
      have hdrop : (c :: (w ++ r)).drop (c :: w).length = r := @List.drop_left _ (c :: w) r
      rw [List.cons_append] at hlongest
      rw [List.cons_append, tokensFrom, if_neg hc, hlongest]
      simp only [htake, hdrop]
      rw [ih (by omega)]

/-- The tokens of a formula are those that its text is made of. -/
theorem scans_iff {source : List Char} {ts : List Token} :
    Scans 0 source ts ↔ tokens source = ts := by
  constructor
  · intro h
    exact h.tokensFrom_eq (Nat.le_refl _)
  · rintro rfl
    exact scans_tokensFrom (Nat.le_refl _) 0

/-- A token is the longest one where it stands. -/
def Token.Lexed (t : Token) : Prop := ∃ r, longest (t.text ++ r) = (t.kind, t.text.length)

theorem Scans.lexed {start : Nat} {cs : List Char} {ts : List Token} (h : Scans start cs ts) :
    ∀ t ∈ ts, t.Lexed := by
  induction h with
  | done start => exact nofun
  | blank _ _ ih => exact ih
  | @token start kind w r ts hw hhead hlongest hr ih =>
    exact List.forall_mem_cons.mpr ⟨⟨r, hlongest⟩, ih⟩

theorem lexed_tokens (source : List Char) : ∀ t ∈ tokens source, t.Lexed :=
  (scans_tokensFrom (Nat.le_refl _) 0).lexed

/-! ## Taking a text apart -/

section

variable {start : Nat} {cs r : List Char} {t : Token} {ts : List Token}

/-- The first token of a text stands behind blanks, if any. -/
theorem Scans.cons_inv (h : Scans start cs (t :: ts)) :
    ∃ blanks r, cs = blanks ++ (t.text ++ r) ∧ t.text ≠ [] ∧
      begins isSeparator t.text = false ∧ longest (t.text ++ r) = (t.kind, t.text.length) ∧
      t.span.start = start + byteLength blanks ∧ Scans t.span.stop r ts := by
  generalize hts : t :: ts = ts' at h
  induction h with
  | done => cases hts
  | @blank start c cs ts' hc hcs ih =>
    obtain ⟨blanks, r, rfl, hne, hhead, hlongest, hstart, hr⟩ := ih hts
    refine ⟨c :: blanks, r, rfl, hne, hhead, hlongest, ?_, hr⟩
    rw [hstart, byteLength]
    omega
  | @token start kind w r ts' hw hhead hlongest hr =>
    cases hts
    exact ⟨[], r, rfl, hw, hhead, hlongest, rfl, hr⟩

theorem byteLength_eq_zero {cs : List Char} (h : byteLength cs = 0) : cs = [] := by
  cases cs with
  | nil => rfl
  | cons c cs =>
    have hpos := Char.utf8Size_pos c
    rw [byteLength] at h
    omega

/-- A token that stands at the very start of a text is its head. -/
theorem Scans.adjacent_inv (h : Scans start cs (t :: ts)) (hadjacent : t.span.start = start) :
    ∃ r, cs = t.text ++ r ∧ t.text ≠ [] ∧ begins isSeparator t.text = false ∧
      longest (t.text ++ r) = (t.kind, t.text.length) ∧ Scans t.span.stop r ts := by
  obtain ⟨blanks, r, rfl, hne, hhead, hlongest, hstart, hr⟩ := h.cons_inv
  obtain rfl := @byteLength_eq_zero blanks (by omega)
  exact ⟨r, rfl, hne, hhead, hlongest, hr⟩

theorem Scans.nil_inv (h : Scans start [] ts) : ts = [] := by
  generalize hcs : ([] : List Char) = cs at h
  cases h with
  | done => rfl
  | blank => cases hcs
  | token hw _ _ _ =>
    obtain ⟨rfl, -⟩ := List.append_eq_nil_iff.mp hcs.symm
    exact absurd rfl hw

/-- What begins a text that does not begin with a blank is a token. -/
theorem Scans.head_inv {c : Char} (h : Scans start (c :: cs) ts) (hc : isSeparator c = false) :
    ∃ t rest, ts = t :: rest ∧ t.span.start = start ∧
      longest (c :: cs) = (t.kind, t.text.length) := by
  generalize hcs : c :: cs = cs' at h
  cases h with
  | done => cases hcs
  | blank hblank =>
    cases hcs
    rw [hc] at hblank
    cases hblank
  | token hw hhead hlongest hr => exact ⟨_, _, rfl, rfl, hlongest⟩

/-- Tokens do not stand before the text that they are tokens of. -/
theorem Scans.le_start (h : Scans start cs (t :: ts)) : start ≤ t.span.start := by
  obtain ⟨blanks, r, -, -, -, -, hstart, -⟩ := h.cons_inv
  omega

/-- Behind a blank stands no token that is adjacent. -/
theorem Scans.isAdjacent_blank {c : Char} (h : Scans start (c :: cs) ts)
    (hc : isSeparator c = true) : Cursor.isAdjacent ⟨ts, start⟩ = false := by
  generalize hcs : c :: cs = cs' at h
  cases h with
  | done => rfl
  | @blank _ c' cs' ts' hblank hrest =>
    cases hcs
    cases ts with
    | nil => rfl
    | cons t rest =>
      have hpos := Char.utf8Size_pos c
      have hle := hrest.le_start
      have hne : t.span.start ≠ start := by omega
      simpa [Cursor.isAdjacent] using hne
  | @token _ kind w r ts' hw hhead hlongest hr =>
    obtain ⟨d, w, rfl⟩ := List.exists_cons_of_ne_nil hw
    cases hcs
    rw [show isSeparator c = false from hhead] at hc
    cases hc

end

/-! ## Single tokens -/

/-- The class of a sign. -/
def kindOf : Operator → TokenKind
  | .add => .plus
  | .sub => .minus
  | .mul => .star
  | .div => .slash
  | .rem => .percent

theorem longest_sign (op : Operator) (r : List Char) : longest (op.sign :: r) = (kindOf op, 1) := by
  cases op <;> rfl

theorem isSeparator_sign (op : Operator) : isSeparator op.sign = false := by
  cases op <;> rfl

theorem longest_rightBrace (r : List Char) :
    longest ('\x7d' :: r) = (.rightBrace, rightBraceLength ('\x7d' :: r)) := by
  refine @longest_of_rules _ (rules.take 8) (rules.drop 9) _ rightBraceLength _ rfl rfl
    (by simp only [rightBraceLength]; omega) ?_ ?_
  · intro rule hrule
    have hzero : rule.2 ('\x7d' :: r) = 0 := by
      simp only [rules, List.take_succ_cons, List.take_zero, List.mem_cons, List.not_mem_nil,
        or_false] at hrule
      rcases hrule with rfl | rfl | rfl | rfl | rfl | rfl | rfl | rfl <;> rfl
    rw [hzero]
    simp only [rightBraceLength]
    omega
  · intro rule hrule
    have hzero : rule.2 ('\x7d' :: r) = 0 := by
      simp only [rules, List.drop_succ_cons, List.drop_zero, List.mem_cons, List.not_mem_nil,
        or_false] at hrule
      rcases hrule with rfl | rfl | rfl | rfl | rfl | rfl | rfl | rfl <;> rfl
    rw [hzero]
    exact Nat.zero_le _

end DiceNotation.Formula
