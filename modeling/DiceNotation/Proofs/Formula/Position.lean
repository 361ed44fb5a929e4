/-
  DiceNotation.Proofs.Formula.Position

  Cursors and the text that is left at them.

  What is still to be read at a cursor is the tokens of some text
  (`Cursor.Before`). Reading on, past a token, signs or flavors, leaves a rest of
  the text. How the text begins decides whether flavors, glue, the arguments of a
  call or an operator follow.

  The numbers of the text are such that they can be written anew where they stand
  (`Legible`): one with a point gains a digit before it or loses the point, so it is
  not glued to what it would then run together with (`Token.Apart`).
-/

import DiceNotation.Proofs.Formula.Literal
import DiceNotation.Proofs.Formula.Scan

namespace DiceNotation.Formula

open Text

/-! ## How tokens begin -/

theorem begins_append {p : Char → Bool} {w : List Char} (hw : w ≠ []) (r : List Char) :
    begins p (w ++ r) = begins p w := by
  obtain ⟨c, w, rfl⟩ := List.exists_cons_of_ne_nil hw
  rfl

theorem eq_cons_of_begins {d : Char} {cs : List Char} (h : begins (· == d) cs = true) :
    ∃ rest, cs = d :: rest := by
  cases cs with
  | nil => cases h
  | cons c rest => exact ⟨rest, by rw [beq_iff_eq.mp (show (c == d) = true from h)]⟩

theorem begins_of_charLength {d : Char} {cs : List Char} (h : 0 < charLength d cs) :
    begins (· == d) cs = true := by
  cases cs with
  | nil => cases h
  | cons c rest =>
    cases hc : c == d with
    | true => exact hc
    | false => simp [charLength, hc] at h

/-- Flavors begin with a bracket. -/
theorem begins_bracket_of_longest {cs : List Char} {kind : TokenKind} {n : Nat}
    (h : longest cs = (kind, n)) (hkind : kind = .flavor ∨ kind = .emptyFlavor) :
    begins (· == '[') cs = true := by
  cases hbracket : begins (· == '[') cs with
  | true => rfl
  | false =>
    have hzero : flavorLength cs = 0 ∧ emptyFlavorLength cs = 0 := by
      cases cs with
      | nil => exact ⟨rfl, rfl⟩
      | cons c rest =>
        have hc : c ≠ '[' := by
          rintro rfl
          cases hbracket
        exact ⟨flavorLength_of_head hc rest, emptyFlavorLength_of_head hc rest⟩
    obtain rfl | rfl := hkind
    · obtain ⟨hlength, hpos⟩ := length_of_longest h rfl
      omega
    · obtain ⟨hlength, hpos⟩ := length_of_longest h rfl
      omega

theorem begins_paren_of_longest {cs : List Char} {n : Nat} (h : longest cs = (.leftParen, n)) :
    begins (· == '(') cs = true := by
  obtain ⟨hlength, hpos⟩ := length_of_longest h rfl
  rw [← hlength] at hpos
  exact begins_of_charLength hpos

/-- A token of a class whose tokens begin otherwise does not begin with a bracket. -/
theorem begins_bracket_eq_false {cs : List Char} {kind : TokenKind} {n : Nat}
    {length : List Char → Nat} (h : longest cs = (kind, n))
    (hlength : rules.lookup kind = some length) (hzero : ∀ rest, length ('[' :: rest) = 0) :
    begins (· == '[') cs = false := by
  cases hbegins : begins (· == '[') cs with
  | false => rfl
  | true =>
    obtain ⟨rest, rfl⟩ := eq_cons_of_begins hbegins
    obtain ⟨hn, hpos⟩ := length_of_longest h hlength
    rw [hzero] at hn
    omega

/-- A flavor is a text in brackets that holds no closing one. -/
theorem flavor_parts {w r : List Char} (h : longest (w ++ r) = (.flavor, w.length)) :
    ∃ inner, w = '[' :: inner ++ [']'] ∧ inner ≠ [] ∧ ∀ c ∈ inner, c ≠ ']' := by
  obtain ⟨hlength, hpos⟩ := length_of_longest h rfl
  obtain ⟨rest, hrest⟩ := eq_cons_of_begins (begins_bracket_of_longest h (.inl rfl))
  obtain hall | ⟨inner, c, v, rfl, hinner, hc⟩ := all_or_split (· != ']') rest
  · rw [hrest, flavorLength, runLength_of_all hall] at hlength
    simp only [Nat.lt_irrefl, decide_false, Bool.and_false, Bool.false_eq_true, if_false]
      at hlength
    omega
  · have hinside : runLength (· != ']') (inner ++ c :: v) = inner.length :=
      runLength_append_cons hinner hc v
    obtain rfl : c = ']' := by simpa using hc
    rw [hrest, flavorLength] at hlength
    simp only [hinside] at hlength
    split at hlength
    · next hcond =>
      have hne : inner ≠ [] := by
        rintro rfl
        cases hcond
      refine ⟨inner, ?_, hne, fun d hd => by simpa using hinner d hd⟩
      have htake := congrArg (List.take w.length) hrest
      rw [List.take_left, ← hlength] at htake
      rw [htake, List.take_succ_cons, List.take_append, List.take_of_length_le (by omega)]
      simp
    · omega

theorem rightBrace_parts {w r : List Char} (h : longest (w ++ r) = (.rightBrace, w.length)) :
    ∃ suffix, w = '\x7d' :: suffix := by
  obtain ⟨hlength, hpos⟩ := length_of_longest h rfl
  obtain ⟨c, w, rfl⟩ := List.exists_cons_of_ne_nil (List.length_pos_iff.mp hpos)
  unfold rightBraceLength at hlength
  split at hlength
  · next heq =>
    cases heq
    exact ⟨w, rfl⟩
  · omega

/-! ## Numbers with a point -/

/-- Whether a token is a number with a point. -/
def Token.hasPoint (t : Token) : Bool := t.kind == .number && t.text.contains '.'

/-- Whether a token is a number with a point that stands for a whole number, which is written
    without one. -/
def Token.losesPoint (t : Token) : Bool :=
  t.hasPoint && match t.literal? with
    | some (.number (.int _)) => true
    | _ => false

/-- Two tokens in a row do not run together where numbers with a point are written anew. Right
    behind a fragment of text stands none, since it would be written with digits in front, and
    what stands right behind one that loses its point does not go on with digits. -/
def Token.Apart (t u : Token) : Prop :=
  t.span.stop = u.span.start →
    (u.hasPoint = true → t.kind.isFragment = false) ∧
      (t.losesPoint = true → begins continuesNumber u.text = false)

instance (t u : Token) : Decidable (t.Apart u) :=
  inferInstanceAs (Decidable (_ → _ ∧ _))

/-- Tokens of which every number can be written anew where it stands. -/
structure Legible (ts : List Token) : Prop where
  numbers : ∀ t ∈ ts, ∀ v, t.literal? = some (.number v) → IsLegible v
  apart : ts.IsChain Token.Apart

/-- A number that a token stands for can be written before the text behind the token. -/
structure Token.LegibleBefore (t : Token) (r : List Char) : Prop where
  number : ∀ v, t.literal? = some (.number v) → IsLegible v
  goes : t.losesPoint = true → begins continuesNumber r = false

/-- What stands right behind a cursor, if anything, is no number with a point. -/
def Cursor.Unpointed (c : Cursor) : Prop :=
  c.isAdjacent = true → ∀ t, c.rest.head? = some t → t.hasPoint = false

section

variable {t : Token} {ts : List Token} {r : List Char}

theorem isSeparator_of_continuesNumber {c : Char} (h : continuesNumber c = true) :
    isSeparator c = false := by
  obtain rfl | rfl | rfl : c = '.' ∨ c = 'd' ∨ c = 'D' := by
    simpa [continuesNumber, isDiceLetter] using h
  all_goals rfl

theorem Token.kind_of_number {v : Number} (h : t.literal? = some (.number v)) :
    t.kind = .number := by
  unfold Token.literal? at h
  split at h
  · assumption
  · simp only [diceOfLiteral?, Option.bind_eq_bind, Option.bind_eq_some_iff] at h
    obtain ⟨_, _, _, _, _, _, heq⟩ := h
    cases heq
  all_goals cases h

/-- A token that stands for a number is a number literal. -/
theorem Token.Lexed.number_inv (h : t.Lexed) {v : Number} (hv : t.literal? = some (.number v)) :
    t.kind = .number ∧
      ∃ r, longest (t.text ++ r) = (.number, t.text.length) ∧ numberOfLiteral? t.text = some v := by
  have hkind := Token.kind_of_number hv
  obtain ⟨r, hlongest⟩ := h
  rw [hkind] at hlongest
  rw [Token.literal?, hkind] at hv
  obtain ⟨v', hvalue, heq⟩ := Option.map_eq_some_iff.mp hv
  obtain rfl : v' = v := Node.number.inj heq
  exact ⟨hkind, r, hlongest, hvalue⟩

theorem Legible.tail (h : Legible (t :: ts)) : Legible ts :=
  ⟨fun u hu => h.numbers u (List.mem_cons_of_mem t hu), h.apart.of_cons⟩

theorem Legible.head (h : Legible (t :: ts)) (hr : Scans t.span.stop r ts) :
    t.LegibleBefore r := by
  refine ⟨h.numbers t List.mem_cons_self, fun hpoint => ?_⟩
  cases hbegins : begins continuesNumber r with
  | false => rfl
  | true =>
    obtain _ | ⟨c, cs⟩ := r
    · cases hbegins
    -- what digits go on with is no blank, so it belongs to the token right behind
    obtain ⟨u, rest, rfl, hstart, -⟩ := hr.head_inv (isSeparator_of_continuesNumber hbegins)
    obtain ⟨r', hcs, hne, -⟩ := hr.adjacent_inv hstart
    have hapart : t.Apart u := h.apart.rel
    rw [hcs, begins_append hne, (hapart hstart.symm).2 hpoint] at hbegins
    cases hbegins

theorem Token.LegibleBefore.number_goes (h : t.LegibleBefore r) {v : Number}
    (hv : t.literal? = some (.number v)) :
    '.' ∈ t.text → (∃ n, v = .int n) → begins continuesNumber r = false := by
  rintro hpoint ⟨n, rfl⟩
  refine h.goes ?_
  rw [Token.losesPoint, Token.hasPoint, Token.kind_of_number hv, hv]
  simpa using hpoint

/-- No number with a point is glued to a fragment. -/
theorem Legible.unpointed (h : Legible (t :: ts)) (hkind : t.kind.isFragment = true) :
    Cursor.Unpointed ⟨ts, t.span.stop⟩ := by
  intro hadjacent u hu
  obtain _ | ⟨v, ts⟩ := ts
  · cases hu
  obtain rfl : v = u := Option.some.inj hu
  have hapart : t.Apart v := h.apart.rel
  have hstart : t.span.stop = v.span.start := (beq_iff_eq.mp hadjacent).symm
  cases hpoint : v.hasPoint with
  | false => rfl
  | true =>
    rw [(hapart hstart).1 hpoint] at hkind
    cases hkind

/-- Numbers without a point can all be written anew. -/
theorem Legible.of_notMem (hlexed : ∀ t ∈ ts, t.Lexed)
    (hpoint : ∀ t ∈ ts, t.kind = .number → '.' ∉ t.text) : Legible ts := by
  have hnone : ∀ t ∈ ts, t.hasPoint = false := by
    intro t ht
    rw [Token.hasPoint, Bool.and_eq_false_imp]
    intro hkind
    simpa using hpoint t ht (beq_iff_eq.mp hkind)
  constructor
  · intro t ht v hv
    obtain ⟨hkind, r, hlongest, hvalue⟩ := (hlexed t ht).number_inv hv
    exact isLegible_of_notMem hlongest (hpoint t ht hkind) hvalue
  · refine (List.pairwise_of_forall_mem_list fun t ht u hu _ => ?_).isChain
    refine ⟨fun h => ?_, fun h => ?_⟩
    · rw [hnone u hu] at h
      cases h
    · rw [Token.losesPoint, hnone t ht] at h
      cases h

end

/-! ## Cursors before a text -/

/-- The text that is left at a cursor, with numbers that can be written anew. -/
structure Cursor.Before (c : Cursor) (cs : List Char) : Prop where
  scans : Scans c.stop cs c.rest
  legible : Legible c.rest

section

variable {t : Token} {ts : List Token} {stop : Nat} {cs : List Char} {c c' : Cursor}

theorem Cursor.kind?_of_rest (hc : c.rest = t :: ts) : c.kind? = some t.kind := by
  rw [Cursor.kind?, hc]
  rfl

/-- The first token and the text behind it. -/
theorem Cursor.Before.cons (h : Cursor.Before ⟨t :: ts, stop⟩ cs) :
    ∃ blanks r, cs = blanks ++ (t.text ++ r) ∧ t.text ≠ [] ∧
      begins isSeparator t.text = false ∧ longest (t.text ++ r) = (t.kind, t.text.length) ∧
      (Cursor.isAdjacent ⟨t :: ts, stop⟩ = true → blanks = []) ∧
      t.LegibleBefore r ∧ Cursor.Before ⟨ts, t.span.stop⟩ r := by
  obtain ⟨blanks, r, hcs, hne, hhead, hlongest, hstart, hr⟩ := h.scans.cons_inv
  refine ⟨blanks, r, hcs, hne, hhead, hlongest, fun hadjacent => ?_, h.legible.head hr, hr,
    h.legible.tail⟩
  have heq : t.span.start = stop := beq_iff_eq.mp hadjacent
  exact byteLength_eq_zero (by simp only at hstart; omega)

theorem Cursor.Before.next (h : c.Before cs) (hc : c.rest = t :: ts) :
    ∃ r, Cursor.Before ⟨ts, t.span.stop⟩ r := by
  obtain ⟨rest, stop⟩ := c
  obtain rfl : rest = t :: ts := hc
  obtain ⟨-, r, -, -, -, -, -, -, hr⟩ := h.cons
  exact ⟨r, hr⟩

theorem Cursor.Before.skip (h : c.Before cs) {kind : TokenKind} (hkind : c.isAt kind = true) :
    ∃ r, c.skip.Before r := by
  obtain ⟨t, rest, hrest, -, hskip⟩ := Cursor.exists_of_isAt hkind
  rw [hskip]
  exact h.next hrest

theorem Cursor.Before.signRun {soFar : Option Operator} (h : Cursor.Before ⟨ts, stop⟩ cs) :
    ∃ r, (signRun soFar ts stop).2.Before r := by
  induction ts generalizing soFar stop cs with
  | nil => exact ⟨cs, h⟩
  | cons t ts ih =>
    obtain ⟨-, r, -, -, -, -, -, -, hr⟩ := h.cons
    unfold Formula.signRun
    split
    · exact ih hr
    · exact ih hr
    · exact ⟨cs, h⟩

theorem Cursor.Before.signs (h : c.Before cs) {sign : Option Operator}
    (hsigns : Formula.signs c = (sign, c')) : ∃ r, c'.Before r := by
  have hrun := @Cursor.Before.signRun c.rest c.stop cs none h
  rw [show Formula.signRun none c.rest c.stop = (sign, c') from hsigns] at hrun
  exact hrun

theorem flavorRun_nil {source : List Char} (h : flavorRun source ts stop = .ok ([], c')) :
    c' = ⟨ts, stop⟩ := by
  cases ts with
  | nil =>
    cases h
    rfl
  | cons t ts =>
    unfold flavorRun at h
    split at h
    · obtain ⟨more, -, heq⟩ := bind_eq_ok.mp h
      cases heq
    · cases h
    · cases h
      rfl

/-- What is text with its flavors has none. -/
theorem withFlavors_isText {source : List Char} {n n' : Node}
    (h : withFlavors source n c = .ok (n', c')) (htext : n'.isText = true) :
    n.isText = true ∧ c' = c := by
  obtain ⟨⟨flavors, c₁⟩, hrun, heq⟩ := bind_eq_ok.mp h
  cases flavors with
  | nil =>
    cases heq
    exact ⟨htext, flavorRun_nil hrun⟩
  | cons flavor more =>
    cases heq
    cases htext

/-- A run of flavors leaves a text behind it, and no flavor is empty or holds a closing
    bracket. -/
theorem Cursor.Before.flavorRun (h : Cursor.Before ⟨ts, stop⟩ cs) {source : List Char}
    {flavors : List String} (hrun : Formula.flavorRun source ts stop = .ok (flavors, c')) :
    ∃ r, c'.Before r ∧ (flavors = [] → c' = ⟨ts, stop⟩ ∧ r = cs) ∧
      ∀ f ∈ flavors, f.toList ≠ [] ∧ ∀ d ∈ f.toList, d ≠ ']' := by
  induction ts generalizing stop cs flavors with
  | nil =>
    cases hrun
    exact ⟨cs, h, fun _ => ⟨rfl, rfl⟩, nofun⟩
  | cons t ts ih =>
    obtain ⟨blanks, r, hcs, hne, hhead, hlongest, -, -, hr⟩ := h.cons
    unfold Formula.flavorRun at hrun
    split at hrun
    · next hkind =>
      obtain ⟨⟨more, c₁⟩, hmore, heq⟩ := bind_eq_ok.mp hrun
      cases heq
      obtain ⟨r', hr', -, hflavors⟩ := ih hr hmore
      refine ⟨r', hr', nofun, fun f hf => ?_⟩
      obtain rfl | hf := List.mem_cons.mp hf
      · rw [hkind] at hlongest
        obtain ⟨inner, htext, hinner, hbracket⟩ := flavor_parts hlongest
        have hflavor : (flavorText t).toList = inner := by
          simp [flavorText, htext]
        rw [hflavor]
        exact ⟨hinner, hbracket⟩
      · exact hflavors f hf
    · cases hrun
    · cases hrun
      exact ⟨cs, h, fun _ => ⟨rfl, rfl⟩, nofun⟩

/-- Nothing stands between a fragment and what is glued to it, and that is no number with a
    point. -/
theorem Cursor.Before.unpointed (h : c.Before cs) (hc : c.rest = t :: ts)
    (hkind : t.kind.isFragment = true) {source : List Char} {n n' : Node}
    (hflavors : withFlavors source n ⟨ts, t.span.stop⟩ = .ok (n', c'))
    (htext : n'.isText = true) : c'.Unpointed := by
  obtain rfl := (withFlavors_isText hflavors htext).2
  have hlegible : Legible (t :: ts) := hc ▸ h.legible
  exact hlegible.unpointed hkind

end

/-! ## Flavors in a row -/

theorem toList_intercalate_ne_nil {flavors : List String} (hne : flavors ≠ [])
    (h : ∀ f ∈ flavors, f.toList ≠ []) : (String.intercalate " " flavors).toList ≠ [] := by
  obtain ⟨f, more, rfl⟩ := List.exists_cons_of_ne_nil hne
  have hf := h f List.mem_cons_self
  cases more with
  | nil => rwa [String.intercalate_singleton]
  | cons g more =>
    rw [String.intercalate_cons_cons, String.toList_append, String.toList_append]
    simp [hf]

theorem not_mem_intercalate {flavors : List String} {d : Char} (hd : d ≠ ' ')
    (h : ∀ f ∈ flavors, ∀ e ∈ f.toList, e ≠ d) :
    ∀ e ∈ (String.intercalate " " flavors).toList, e ≠ d := by
  induction flavors with
  | nil => exact nofun
  | cons f more ih =>
    have hf := h f List.mem_cons_self
    have hmore := ih fun g hg => h g (List.mem_cons_of_mem f hg)
    cases more with
    | nil => rwa [String.intercalate_singleton]
    | cons g more =>
      rw [String.intercalate_cons_cons, String.toList_append, String.toList_append]
      intro e he
      rw [List.mem_append, List.mem_append] at he
      obtain (he | he) | he := he
      · exact hf e he
      · obtain rfl : e = ' ' := by simpa using he
        exact hd.symm
      · exact hmore e he

end DiceNotation.Formula
