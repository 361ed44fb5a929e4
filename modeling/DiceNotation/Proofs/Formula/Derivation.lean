/-
  DiceNotation.Proofs.Formula.Derivation

  The grammar of formulas.

  `Derives` says which tokens a piece of a formula is made of, without a cursor, a
  look at what follows or an order in which anything is tried. A word right before a
  parenthesis may be the name of a function or a fragment with a group behind it;
  that the former is preferred is the one thing that the grammar leaves open
  (`greedy`). A literal is told from its characters alone (`IsLiteral`), and a dice
  literal that is glued to something is a fragment of text like any other.
-/

import DiceNotation.Proofs.Formula.Literal
import DiceNotation.Proofs.Formula.Scan

namespace DiceNotation.Formula

open Text

/-! ## Literals -/

/-- The number that digits stand for. -/
def digitsValue (cs : List Char) : Nat := Nat.ofDigitChars 10 cs 0

/-- A number literal stands for a number: a whole number of 64 bits, or with a point the
    nearest double. -/
inductive IsNumber : List Char → Number → Prop where
  | whole {digits : List Char} (hne : digits ≠ []) (hdigits : ∀ c ∈ digits, c.isDigit = true)
      (hle : digitsValue digits ≤ Nat.pow 2 63 - 1) : IsNumber digits (.int (digitsValue digits))
  | decimal {whole fraction : List Char} (hwhole : '.' ∉ whole) :
      IsNumber (whole ++ '.' :: fraction) (.ofFloat (Decimal.positional whole fraction))

/-- Digits give a number of dice, and one die is meant without any. -/
inductive IsCount : List Char → Nat → Prop where
  | none : IsCount [] 1
  | digits {digits : List Char} (hne : digits ≠ [])
      (hdigits : ∀ c ∈ digits, c.isDigit = true)
      (hle : digitsValue digits ≤ Nat.pow 2 64 - 1) : IsCount digits (digitsValue digits)

/-- Digits or a letter give the faces of dice. -/
inductive IsDenomination : List Char → Denomination → Prop where
  | coin {c : Char} (hc : c = 'c' ∨ c = 'C') : IsDenomination [c] .coin
  | fate {c : Char} (hc : c = 'f' ∨ c = 'F') : IsDenomination [c] .fate
  | die {digits : List Char} (hne : digits ≠ []) (hdigits : ∀ c ∈ digits, c.isDigit = true)
      (hpos : 1 ≤ digitsValue digits) (hle : digitsValue digits ≤ Nat.pow 2 32 - 1) :
      IsDenomination digits (.die (digitsValue digits))

/-- A token is an atom by itself and stands for a node. -/
inductive IsLiteral : Token → Node → Prop where
  | number {text : List Char} {span : Span} {value : Number} (hvalue : IsNumber text value) :
      IsLiteral ⟨.number, text, span⟩ (.number value)
  | dice {count faces suffix : List Char} {letter : Char} {span : Span} {number : Nat}
      {d : Denomination} {ms : List Modifier} (hcount : IsCount count number)
      (hletter : letter = 'd' ∨ letter = 'D') (hfaces : IsDenomination faces d)
      (hms : Modifier.ofSuffix (.ofDenomination d) suffix = .ok ms) :
      IsLiteral ⟨.dice, count ++ letter :: (faces ++ suffix), span⟩ (.dice number d ms)
  | fragment {t : Token} (hkind : t.kind = .dicePrefix ∨ t.kind = .dataReference ∨
      t.kind = .identifier) : IsLiteral t (.text (String.ofList t.text))

/-! ## Reading literals -/

theorem isNumber_of_literal {w r : List Char} {v : Number}
    (h : longest (w ++ r) = (.number, w.length)) (hv : numberOfLiteral? w = some v) :
    IsNumber w v := by
  by_cases hpoint : '.' ∈ w
  · obtain ⟨whole, fraction, rfl, hwhole⟩ := List.eq_append_cons_of_mem hpoint
    rw [numberOfLiteral?_point hwhole] at hv
    cases hv
    exact .decimal hwhole
  · have hdigits := isDigit_of_number h hpoint
    have hne : w ≠ [] := by
      rintro rfl
      exact absurd (length_of_longest h rfl).2 (Nat.lt_irrefl 0)
    rw [numberOfLiteral?_of_isDigit hdigits] at hv
    obtain ⟨m, hm, rfl⟩ := Option.map_eq_some_iff.mp hv
    obtain ⟨rfl, hle⟩ := (int64?_iff hne hdigits).mp hm
    exact .whole hne hdigits hle

theorem IsNumber.literal {w : List Char} {v : Number} (h : IsNumber w v) :
    numberOfLiteral? w = some v := by
  cases h with
  | whole hne hdigits hle =>
    rw [numberOfLiteral?_of_isDigit hdigits, (int64?_iff hne hdigits).mpr ⟨rfl, hle⟩]
    rfl
  | decimal hwhole => exact numberOfLiteral?_point hwhole

theorem diceCount?_iff {u : List Char} (hu : ∀ c ∈ u, c.isDigit = true) {n : Nat} :
    diceCount? u = some n ↔ IsCount u n := by
  cases u with
  | nil =>
    constructor
    · rintro ⟨⟩
      exact .none
    · rintro (⟨⟩ | ⟨hne, -, -⟩)
      · rfl
      · exact absurd rfl hne
  | cons c u =>
    have hne := List.cons_ne_nil c u
    refine (nat64?_iff hne hu).trans ⟨?_, fun h => ?_⟩
    · rintro ⟨rfl, hle⟩
      exact .digits hne hu hle
    · cases h with
      | digits _ _ hle => exact ⟨rfl, hle⟩

theorem IsDenomination.ofFaces? {faces : List Char} {d : Denomination}
    (h : IsDenomination faces d) : Denomination.ofFaces? faces = some d := by
  cases h with
  | coin hc => rcases hc with rfl | rfl <;> rfl
  | fate hc => rcases hc with rfl | rfl <;> rfl
  | die hne hdigits hpos hle =>
    obtain ⟨n, hn⟩ := Nat.exists_eq_add_of_le' hpos
    rw [hn]
    refine (ofFaces?_of_isDigit hne hdigits).mpr ⟨n, ?_, rfl⟩
    exact (nat32?_iff hne hdigits).mpr ⟨hn.symm, hn ▸ hle⟩

theorem isDenomination_of_ofFaces? {faces suffix : List Char} {d : Denomination}
    (hfaces : IsFaces faces suffix) (h : Denomination.ofFaces? faces = some d) :
    IsDenomination faces d := by
  obtain ⟨f, rfl, hf⟩ | ⟨hne, hdigits, -⟩ := hfaces
  · rcases eq_of_isFaceLetter hf with rfl | rfl | rfl | rfl <;> cases h
    · exact .coin (.inl rfl)
    · exact .coin (.inr rfl)
    · exact .fate (.inl rfl)
    · exact .fate (.inr rfl)
  · obtain ⟨n, hn, rfl⟩ := (ofFaces?_of_isDigit hne hdigits).mp h
    obtain ⟨hvalue, hle⟩ := (nat32?_iff hne hdigits).mp hn
    have hpos : 1 ≤ Nat.ofDigitChars 10 faces 0 := hvalue ▸ Nat.succ_pos n
    rw [hvalue] at hle ⊢
    exact .die hne hdigits hpos hle

/-- A suffix of modifiers does not begin with a digit. -/
theorem begins_of_ofSuffix {family : Modifier.Family} {suffix : List Char} {ms : List Modifier}
    (h : Modifier.ofSuffix family suffix = .ok ms) : begins Char.isDigit suffix = false := by
  have hbegins := (Modifier.ofSuffix_eq_ok_iff.mp h).1.beginsChunk
  cases suffix with
  | nil => rfl
  | cons c rest =>
    refine Bool.eq_false_iff.mpr fun hdigit => ?_
    have halpha := hbegins c rfl
    rw [isAlpha_of_isDigit hdigit] at halpha
    cases halpha

theorem IsDenomination.isFaces {faces suffix : List Char} {d : Denomination}
    (h : IsDenomination faces d) (hsuffix : begins Char.isDigit suffix = false) :
    IsFaces faces suffix := by
  cases h with
  | coin hc => exact .inl ⟨_, rfl, by rcases hc with rfl | rfl <;> rfl⟩
  | fate hc => exact .inl ⟨_, rfl, by rcases hc with rfl | rfl <;> rfl⟩
  | die hne hdigits _ _ => exact .inr ⟨hne, hdigits, hsuffix⟩

theorem isDiceLetter_iff {c : Char} : isDiceLetter c = true ↔ c = 'd' ∨ c = 'D' := by
  simp [isDiceLetter]

/-- What a token is read as can be told from its characters. -/
theorem isLiteral_of_literal? {t : Token} (hlexed : t.Lexed) {n : Node}
    (h : t.literal? = some n) : IsLiteral t n := by
  obtain ⟨kind, text, span⟩ := t
  obtain ⟨r, hlongest⟩ := hlexed
  unfold Token.literal? at h
  split at h
  · next hkind =>
    obtain rfl : kind = .number := hkind
    obtain ⟨value, hvalue, rfl⟩ := Option.map_eq_some_iff.mp h
    exact .number (isNumber_of_literal hlongest hvalue)
  · next hkind =>
    obtain rfl : kind = .dice := hkind
    obtain ⟨u, letter, faces, suffix, htext, hu, hletter, hfaces, -⟩ := dice_parts hlongest
    obtain rfl : text = u ++ letter :: (faces ++ suffix) := htext
    simp only [diceOfLiteral?, splitDice_append hu hletter hfaces.of_append, Option.bind_eq_bind,
      Option.bind_eq_some_iff] at h
    obtain ⟨number, hnumber, d, hd, ms, hms, h⟩ := h
    cases h
    exact .dice ((diceCount?_iff hu).mp hnumber) (isDiceLetter_iff.mp hletter)
      (isDenomination_of_ofFaces? hfaces hd) (toOption_eq_some.mp hms)
  · next hkind =>
    cases h
    exact .fragment (.inl hkind)
  · next hkind =>
    cases h
    exact .fragment (.inr (.inl hkind))
  · next hkind =>
    cases h
    exact .fragment (.inr (.inr hkind))
  · cases h

theorem IsLiteral.literal? {t : Token} {n : Node} (h : IsLiteral t n) : t.literal? = some n := by
  cases h with
  | number hvalue => simp only [Token.literal?, hvalue.literal, Option.map_some]
  | @dice count faces suffix letter _ number d ms hcount hletter hfaces hms =>
    have hu : ∀ c ∈ count, c.isDigit = true := by
      cases hcount with
      | none => exact nofun
      | digits _ hdigits _ => exact hdigits
    simp only [Token.literal?, diceOfLiteral?, splitDice_append hu (isDiceLetter_iff.mpr hletter)
      (hfaces.isFaces (begins_of_ofSuffix hms)), Option.bind_eq_bind,
      (diceCount?_iff hu).mpr hcount, Option.bind_some, hfaces.ofFaces?, hms]
    rfl
  | fragment hkind =>
    obtain ⟨kind, text, span⟩ := t
    rcases hkind with hkind | hkind | hkind <;> (cases hkind; rfl)

/-! ## Runs of tokens -/

/-- The position behind tokens that follow a position. -/
def endOf (p : Nat) : List Token → Nat
  | [] => p
  | t :: ts => endOf t.span.stop ts

/-- Whether a class of tokens is that of a sign. -/
def TokenKind.isSign : TokenKind → Bool
  | plus | minus => true
  | _ => false

/-- The product operator that a class of tokens stands for. -/
def TokenKind.product? : TokenKind → Option Operator
  | star => some .mul
  | slash => some .div
  | percent => some .rem
  | _ => none

/-- Tokens that are all signs. -/
def AreSigns (ss : List Token) : Prop := ∀ t ∈ ss, t.kind.isSign = true

/-- Tokens that are all flavors. -/
def AreFlavors (fs : List Token) : Prop := ∀ t ∈ fs, t.kind = .flavor

/-- The sign that signs come to of which so many are minus signs. -/
def signOfCount (minuses : Nat) : Operator := if minuses % 2 = 1 then .sub else .add

/-- The sign that a run of signs comes to: none without signs, and a minus if an odd number
    of them is minus signs. -/
def signOf (ss : List Token) : Option Operator :=
  if ss.isEmpty then none else some (signOfCount (ss.countP (·.kind == .minus)))

/-- An operand behind signs: its negation if an odd number of them is minus signs. -/
def Node.behind (n : Node) (ss : List Token) : Node :=
  if ss.countP (·.kind == .minus) % 2 = 1 then .negation n else n

/-- A node with flavors. -/
def Node.flavored (n : Node) (fs : List Token) : Node :=
  if fs.isEmpty then n else .annotated n (String.intercalate " " (fs.map flavorText))

/-- A word and a parenthesis right behind it. -/
def IsCallHead (ts us : List Token) : Prop :=
  ∃ t o rest, ts = [t] ∧ t.kind = .identifier ∧ us = o :: rest ∧ o.kind = .leftParen

@[simp] theorem endOf_append (p : Nat) (ts us : List Token) :
    endOf p (ts ++ us) = endOf (endOf p ts) us := by
  induction ts generalizing p with
  | nil => rfl
  | cons t ts ih => exact ih t.span.stop

/-- An operand takes the sign that the signs before it come to. -/
theorem signed_signOf (ss : List Token) (n : Node) : signed (signOf ss) n = n.behind ss := by
  cases ss with
  | nil => rfl
  | cons t ss =>
    rw [signOf, List.isEmpty_cons, if_neg Bool.false_ne_true, signOfCount, Node.behind]
    split <;> rfl

/-! ## Rules -/

/-- A piece of a formula is made of tokens that follow a position. -/
inductive Derives (source : List Char) (greedy : Bool) : Piece → Nat → List Token → Prop where
  | expression {ss ts us : List Token} {n : Node} {ns : List Node} {p : Nat}
      (hsigns : AreSigns ss) (hn : Derives source greedy (.operand n) (endOf p ss) ts)
      (hns : Derives source greedy (.rest ns) (endOf (endOf p ss) ts) us) :
      Derives source greedy (.expression (n.behind ss :: ns)) p (ss ++ ts ++ us)
  | restSum {ss ts us : List Token} {op : Operator} {n : Node} {ns : List Node} {p : Nat}
      (hsigns : AreSigns ss) (hop : signOf ss = some op)
      (hn : Derives source greedy (.operand n) (endOf p ss) ts)
      (hns : Derives source greedy (.rest ns) (endOf (endOf p ss) ts) us) :
      Derives source greedy (.rest (.operator op :: n :: ns)) p (ss ++ ts ++ us)
  | restProduct {t : Token} {ss ts us : List Token} {op : Operator} {n : Node}
      {ns : List Node} {p : Nat} (hop : t.kind.product? = some op) (hsigns : AreSigns ss)
      (hn : Derives source greedy (.operand n) (endOf t.span.stop ss) ts)
      (hns : Derives source greedy (.rest ns) (endOf (endOf t.span.stop ss) ts) us) :
      Derives source greedy (.rest (.operator op :: n.behind ss :: ns)) p
        (t :: (ss ++ ts ++ us))
  | restEnd {p : Nat} : Derives source greedy (.rest []) p []
  | operand {ts us : List Token} {first : Node} {more : List Node} {p : Nat}
      (hfirst : Derives source greedy (.atom first) p ts)
      (hmore : Derives source greedy (.glue first.isText more) (endOf p ts) us)
      (hcall : greedy = true → ¬ IsCallHead ts us) :
      Derives source greedy (.operand (.ofParts first more)) p (ts ++ us)
  | fragment {b : Bool} {t : Token} {fs us : List Token} {more : List Node} {p : Nat}
      (hadjacent : t.span.start = p) (hkind : t.kind.isFragment = true) (hfs : AreFlavors fs)
      (hmore : Derives source greedy
        (.glue ((Node.text (String.ofList t.text)).flavored fs).isText more)
        (endOf t.span.stop fs) us) :
      Derives source greedy (.glue b ((Node.text (String.ofList t.text)).flavored fs :: more)) p
        (t :: (fs ++ us))
  | behindText {t : Token} {ts us : List Token} {part : Node} {more : List Node} {p : Nat}
      (hadjacent : t.span.start = p) (hkind : t.kind.isBehindText = true)
      (hpart : Derives source greedy (.atom part) p (t :: ts))
      (hmore : Derives source greedy (.glue part.isText more) (endOf p (t :: ts)) us) :
      Derives source greedy (.glue true (part :: more)) p (t :: ts ++ us)
  | glueEnd {b : Bool} {p : Nat} : Derives source greedy (.glue b []) p []
  | literal {t : Token} {fs : List Token} {n : Node} {p : Nat} (hn : IsLiteral t n)
      (hfs : AreFlavors fs) : Derives source greedy (.atom (n.flavored fs)) p (t :: fs)
  | callEmpty {t o c : Token} {fs : List Token} {p : Nat} (hname : t.kind = .identifier)
      (hopen : o.kind = .leftParen) (hadjacent : o.span.start = t.span.stop)
      (hclose : c.kind = .rightParen) (hfs : AreFlavors fs) :
      Derives source greedy
        (.atom ((Node.function (String.ofList t.text) []).flavored fs)) p (t :: o :: c :: fs)
  | call {t o c : Token} {ts fs : List Token} {arguments : List SubFormula} {p : Nat}
      (hname : t.kind = .identifier) (hopen : o.kind = .leftParen)
      (hadjacent : o.span.start = t.span.stop)
      (hlist : Derives source greedy (.list arguments) o.span.stop ts)
      (hclose : c.kind = .rightParen) (hfs : AreFlavors fs) :
      Derives source greedy
        (.atom ((Node.function (String.ofList t.text) arguments).flavored fs)) p
        (t :: o :: (ts ++ c :: fs))
  | group {o c : Token} {ts fs : List Token} {inner : SubFormula} {p : Nat}
      (hopen : o.kind = .leftParen) (hinner : Derives source greedy (.sub inner) o.span.stop ts)
      (hclose : c.kind = .rightParen) (hfs : AreFlavors fs) :
      Derives source greedy (.atom ((Node.parenthetical inner).flavored fs)) p
        (o :: (ts ++ c :: fs))
  | pool {o c : Token} {ts fs : List Token} {items : List SubFormula} {ms : List Modifier}
      {p : Nat} (hopen : o.kind = .leftBrace)
      (hlist : Derives source greedy (.list items) o.span.stop ts)
      (hclose : c.kind = .rightBrace)
      (hms : Modifier.ofSuffix .pool (c.text.drop 1) = .ok ms) (hfs : AreFlavors fs) :
      Derives source greedy (.atom ((Node.pool items ms).flavored fs)) p (o :: (ts ++ c :: fs))
  | listLast {ts : List Token} {s : SubFormula} {p : Nat}
      (hs : Derives source greedy (.sub s) p ts) : Derives source greedy (.list [s]) p ts
  | listMore {c : Token} {ts us : List Token} {s : SubFormula} {more : List SubFormula}
      {p : Nat} (hs : Derives source greedy (.sub s) p ts) (hcomma : c.kind = .comma)
      (hmore : Derives source greedy (.list more) c.span.stop us) :
      Derives source greedy (.list (s :: more)) p (ts ++ c :: us)
  | sub {ts : List Token} {nodes : List Node} {p : Nat}
      (hnodes : Derives source greedy (.expression nodes) p ts) :
      Derives source greedy (.sub ⟨subText source p (endOf p ts), nodes⟩) p ts

end DiceNotation.Formula
