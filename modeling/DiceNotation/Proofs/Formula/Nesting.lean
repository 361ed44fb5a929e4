/-
  DiceNotation.Proofs.Formula.Nesting

  The levels of a text and of its tokens.

  `nesting` counts characters, so that the levels of a text are those of its parts, up
  to a minus sign at the beginning of a part (`nesting_append`). Blanks take no level
  away, so that the tokens of a text have at most the levels of the text
  (`Formula.Scans.nesting_le`). Most tokens have none
  (`Formula.Token.Lexed.nesting_eq_zero`).
-/

import DiceNotation.Evaluation.Roll
import DiceNotation.Proofs.Formula.Alphabet
import DiceNotation.Proofs.Formula.Derivation
import DiceNotation.Proofs.Formula.Position
import DiceNotation.Proofs.Number.Written

namespace DiceNotation

/-! ## Texts -/

/-- Whether an opening parenthesis stands right before what follows a text. -/
def opens : (opened : Bool) → List Char → Bool
  | opened, [] => opened
  | _, c :: cs => opens (c == '(') cs

/-- Whether a character may bring a level. -/
def isLevel (c : Char) : Bool := c == '(' || c == '\x7b' || c == '-'

section

variable (opened : Bool) (u v : List Char)

theorem nesting_append :
    nesting opened (u ++ v) = nesting opened u + nesting (opens opened u) v := by
  induction u generalizing opened with
  | nil => rw [List.nil_append, nesting, opens, Nat.zero_add]
  | cons c u ih => rw [List.cons_append, nesting, nesting, opens, ih, Nat.add_assoc]

theorem opens_append : opens opened (u ++ v) = opens (opens opened u) v := by
  induction u generalizing opened with
  | nil => rfl
  | cons c u ih => exact ih _

/-- Behind an opening parenthesis a text has the fewest levels. -/
theorem nesting_true_le : nesting true u ≤ nesting opened u := by
  cases u with
  | nil => exact Nat.le_refl 0
  | cons c u =>
    refine Nat.add_le_add_right ?_ _
    cases opened
    · simp only [Bool.not_true, Bool.and_false, Bool.not_false, Bool.and_true]
      split <;> split <;> simp_all
    · exact Nat.le_refl _

theorem nesting_le_false : nesting opened u ≤ nesting false u := by
  cases opened with
  | false => exact Nat.le_refl _
  | true => exact nesting_true_le false u

theorem nesting_append_le : nesting opened (u ++ v) ≤ nesting opened u + nesting false v := by
  rw [nesting_append]
  exact Nat.add_le_add_left (nesting_le_false _ v) _

theorem le_nesting_append : nesting opened u + nesting true v ≤ nesting opened (u ++ v) := by
  rw [nesting_append]
  exact Nat.add_le_add_left (nesting_true_le _ v) _

end

section

variable {opened : Bool} {c : Char} {cs : List Char}

theorem nesting_cons_of_not_level (hc : isLevel c = false) :
    nesting opened (c :: cs) = nesting false cs := by
  rw [isLevel, Bool.or_eq_false_iff, Bool.or_eq_false_iff] at hc
  simp [nesting, hc]

theorem nesting_eq_zero (h : ∀ c ∈ cs, isLevel c = false) : nesting opened cs = 0 := by
  induction cs generalizing opened with
  | nil => rfl
  | cons c cs ih =>
    rw [nesting_cons_of_not_level (h c List.mem_cons_self)]
    exact ih fun d hd => h d (List.mem_cons_of_mem c hd)

theorem nesting_minus (opened : Bool) (cs : List Char) :
    nesting opened ('-' :: cs) = (if opened then 0 else 1) + nesting false cs := by
  cases opened <;> rfl

theorem nesting_paren (opened : Bool) (cs : List Char) :
    nesting opened ('(' :: cs) = 1 + nesting true cs := by
  cases opened <;> rfl

theorem nesting_brace (opened : Bool) (cs : List Char) :
    nesting opened ('\x7b' :: cs) = 1 + nesting false cs := by
  cases opened <;> rfl

/-- Only a minus sign at its beginning makes a difference to where a text stands. -/
theorem nesting_eq_of_head (h : cs.head? ≠ some '-') : nesting opened cs = nesting false cs := by
  cases cs with
  | nil => rfl
  | cons c cs =>
    have hc : c ≠ '-' := fun hc => h (congrArg some hc)
    simp [nesting, hc]

theorem opens_of_notMem (hne : cs ≠ []) (h : '(' ∉ cs) : opens opened cs = false := by
  obtain ⟨c, cs, rfl⟩ := List.exists_cons_of_ne_nil hne
  obtain ⟨hc, hcs⟩ := not_or.mp (mt List.mem_cons.mpr h)
  rw [opens, beq_false_of_ne (Ne.symm hc)]
  clear h hne hc
  induction cs with
  | nil => rfl
  | cons d cs ih =>
    obtain ⟨hd, hcs⟩ := not_or.mp (mt List.mem_cons.mpr hcs)
    rw [opens, beq_false_of_ne (Ne.symm hd)]
    exact ih hcs

end

/-- A number brings a level only if a minus sign counts where it stands. -/
theorem Number.nesting_chars_le (n : Number) (opened : Bool) :
    nesting opened n.chars ≤ if n.isNegative && !opened then 1 else 0 := by
  obtain ⟨cs, hchars, hcs⟩ := n.exists_chars
  have hzero : ∀ opened, nesting opened cs = 0 := by
    refine fun opened => nesting_eq_zero fun c hc => Bool.eq_false_iff.mpr fun hlevel => ?_
    simp only [isLevel, Bool.or_eq_true, beq_iff_eq] at hlevel
    rcases hlevel with (rfl | rfl) | rfl <;> cases hcs _ hc
  rw [hchars]
  cases n.isNegative with
  | false => exact Nat.le_of_eq (hzero opened)
  | true =>
    rw [if_pos rfl, List.singleton_append, nesting_minus, hzero]
    cases opened <;> exact Nat.le_refl _

namespace Formula

open Text

/-! ## Tokens -/

/-- The texts of tokens, one right behind the other. -/
def tokenChars (ts : List Token) : List Char := ts.flatMap (·.text)

@[simp] theorem tokenChars_nil : tokenChars [] = [] := rfl

@[simp] theorem tokenChars_cons (t : Token) (ts : List Token) :
    tokenChars (t :: ts) = t.text ++ tokenChars ts := List.flatMap_cons

@[simp] theorem tokenChars_append (ts us : List Token) :
    tokenChars (ts ++ us) = tokenChars ts ++ tokenChars us := List.flatMap_append

/-- Without blanks a text has no more levels. -/
theorem Scans.nesting_le {start : Nat} {cs : List Char} {ts : List Token} (h : Scans start cs ts)
    (opened : Bool) : nesting opened (tokenChars ts) ≤ nesting opened cs := by
  induction h generalizing opened with
  | done => exact Nat.le_refl 0
  | @blank start c cs ts hc hcs ih =>
    have hlevel : isLevel c = false := by
      rcases (by simpa [isSeparator] using hc : ((c = ' ' ∨ c = '\t') ∨ c = '\r') ∨ c = '\n') with
        ((rfl | rfl) | rfl) | rfl <;> rfl
    rw [nesting_cons_of_not_level hlevel]
    exact Nat.le_trans (nesting_le_false _ _) (ih false)
  | token hw hhead hlongest hr ih =>
    rw [tokenChars_cons, nesting_append, nesting_append]
    exact Nat.add_le_add_left (ih _) _

section

variable {t : Token} {opened : Bool}

theorem isForeign_of_isLevel {c : Char} (h : isLevel c = true) : isForeign c = true := by
  simp only [isLevel, Bool.or_eq_true, beq_iff_eq] at h
  rcases h with (rfl | rfl) | rfl <;> rfl

/-- The tokens of a plain class have no level unless they are a bracket or a minus sign. -/
theorem Token.Lexed.isLevel_eq_false (h : t.Lexed) (hkind : t.kind.isPlain = true)
    (hchar : ∀ c, t.kind.char? = some c → isLevel c = false) :
    ∀ c ∈ t.text, isLevel c = false := by
  obtain ⟨r, hlongest⟩ := h
  refine fun c hc => Bool.eq_false_iff.mpr fun hlevel => ?_
  refine notMem_of_longest hlongest hkind (isForeign_of_isLevel hlevel) (fun heq => ?_) hc
  rw [hchar c heq] at hlevel
  cases hlevel

/-- A token of a class whose tokens are single characters is that character. -/
theorem Token.Lexed.text_eq (h : t.Lexed) {c : Char} (hchar : t.kind.char? = some c) :
    t.text = [c] := by
  obtain ⟨r, hlongest⟩ := h
  have hlookup : rules.lookup t.kind = some (charLength c) := by
    generalize t.kind = kind at hchar
    cases kind <;> cases hchar <;> rfl
  obtain ⟨hlength, hpos⟩ := length_of_longest hlongest hlookup
  obtain ⟨d, text, htext⟩ := List.exists_cons_of_length_pos hpos
  rw [htext, List.cons_append, charLength, List.length_cons] at hlength
  split at hlength
  · next heq =>
    obtain rfl : d = c := by simpa using heq
    rw [htext, List.length_eq_zero_iff.mp (show text.length = 0 by omega)]
  · omega

theorem Token.Lexed.ne_nil (h : t.Lexed) (hkind : t.kind ≠ .unrecognized) : t.text ≠ [] := by
  obtain ⟨r, hlongest⟩ := h
  obtain ⟨-, hpos, -⟩ := longestOf_of_longest hlongest hkind
  exact List.length_pos_iff.mp hpos

/-- A token that is no minus sign does not begin with one. -/
theorem Token.Lexed.head?_ne (h : t.Lexed) (hkind : t.kind ≠ .minus) : t.text.head? ≠ some '-' := by
  intro hhead
  obtain ⟨r, hlongest⟩ := h
  obtain ⟨rest, htext⟩ := List.head?_eq_some_iff.mp hhead
  rw [htext, List.cons_append] at hlongest
  exact hkind (congrArg Prod.fst (hlongest.symm.trans (longest_sign .sub (rest ++ r))))

/-- Behind a token other than an opening parenthesis there is none, if the token is a part of
    a formula. -/
theorem Token.Lexed.opens_eq_false (h : t.Lexed)
    (hkind : t.kind.isPlain = true ∧ t.kind ≠ .leftParen ∨ t.kind = .dataReference ∨
      t.kind = .flavor) : opens opened t.text = false := by
  have hknown : t.kind ≠ .unrecognized := by
    intro heq
    rw [heq] at hkind
    rcases hkind with ⟨hkind, -⟩ | hkind | hkind <;> cases hkind
  have hne := h.ne_nil hknown
  obtain ⟨r, hlongest⟩ := h
  obtain ⟨hplain, hparen⟩ | hkind | hkind := hkind
  · refine opens_of_notMem hne (notMem_of_longest hlongest hplain rfl ?_)
    cases hkind : t.kind <;> first | decide | exact absurd hkind hparen
  · rw [hkind] at hlongest
    refine opens_of_notMem hne fun hmem => ?_
    obtain ⟨u, v, hsplit⟩ := List.append_of_mem hmem
    have hlength := (length_of_longest hlongest rfl).1
    rw [hsplit] at hlength
    cases u with
    | nil => cases hlength
    | cons c u =>
      have hle := dataReferenceLength_foreign u (v ++ r) (show isPathChar '(' = false from rfl) c
      simp only [List.append_assoc, List.cons_append, List.length_append, List.length_cons]
        at hlength hle
      omega
  · rw [hkind] at hlongest
    obtain ⟨inner, htext, -⟩ := flavor_parts hlongest
    rw [htext, opens_append]
    rfl

end

/-! ## Pieces -/

section

variable {opened : Bool} {o c : Token} {ss ts us fs : List Token}

/-- Each minus sign among signs brings a level, except at the very start. -/
theorem countP_minus_le (hsigns : AreSigns ss) (hlexed : ∀ t ∈ ss, t.Lexed) :
    ss.countP (·.kind == .minus) ≤ nesting false (tokenChars ss) := by
  induction ss with
  | nil => exact Nat.le_refl 0
  | cons t ss ih =>
    obtain ⟨ht, hss⟩ := List.forall_mem_cons.mp hsigns
    obtain ⟨hl, hlss⟩ := List.forall_mem_cons.mp hlexed
    have hle := ih hss hlss
    rw [List.countP_cons, tokenChars_cons]
    cases hkind : t.kind with
    | plus =>
      rw [hl.text_eq (by rw [hkind]; rfl), List.singleton_append, nesting_cons_of_not_level rfl]
      exact hle
    | minus =>
      rw [hl.text_eq (by rw [hkind]; rfl), List.singleton_append, nesting_minus]
      simp only [beq_self_eq_true, if_true, Bool.false_eq_true, if_false]
      omega
    | _ =>
      rw [hkind] at ht
      cases ht

theorem opens_flavors (hfs : AreFlavors fs) (hlexed : ∀ t ∈ fs, t.Lexed) :
    opens false (tokenChars fs) = false := by
  induction fs with
  | nil => rfl
  | cons f fs ih =>
    obtain ⟨hf, hmore⟩ := List.forall_mem_cons.mp hfs
    obtain ⟨hl, hlexed⟩ := List.forall_mem_cons.mp hlexed
    rw [tokenChars_cons, opens_append, hl.opens_eq_false (.inr (.inr hf))]
    exact ih hmore hlexed

/-- Behind a literal, a word or a closing bracket and its flavors no parenthesis is open. -/
theorem opens_closed (hc : c.Lexed)
    (hkind : c.kind.isPlain = true ∧ c.kind ≠ .leftParen ∨ c.kind = .dataReference)
    (hfs : AreFlavors fs) (hlexed : ∀ t ∈ fs, t.Lexed) :
    opens opened (tokenChars (c :: fs)) = false := by
  rw [tokenChars_cons, opens_append, hc.opens_eq_false (hkind.imp_right .inl)]
  exact opens_flavors hfs hlexed

/-- The levels of an operand with signs before it and other tokens behind it. -/
theorem le_nesting_operand (hts : opens (opens opened (tokenChars ss)) (tokenChars ts) = false) :
    nesting opened (tokenChars ss) + nesting true (tokenChars ts) + nesting false (tokenChars us) ≤
      nesting opened (tokenChars (ss ++ ts ++ us)) := by
  rw [tokenChars_append, tokenChars_append, nesting_append, nesting_append, opens_append, hts]
  exact Nat.add_le_add_right (Nat.add_le_add_left (nesting_true_le _ _) _) _

/-- What closes a bracket takes no level away. -/
theorem le_nesting_flavored (opened : Bool) :
    nesting opened (tokenChars ts) + nesting true (tokenChars fs) ≤
      nesting opened (tokenChars (ts ++ c :: fs)) := by
  rw [tokenChars_append, tokenChars_cons, nesting_append, nesting_append]
  refine Nat.add_le_add_left (Nat.le_trans ?_ (Nat.le_add_left _ _)) _
  exact nesting_true_le _ _

/-- The levels of tokens in parentheses with flavors behind them. -/
theorem le_nesting_group (ho : o.Lexed) (hopen : o.kind = .leftParen) :
    1 + nesting true (tokenChars ts) + nesting true (tokenChars fs) ≤
      nesting opened (tokenChars (o :: (ts ++ c :: fs))) := by
  rw [tokenChars_cons, ho.text_eq (by rw [hopen]; rfl), List.singleton_append, nesting_paren,
    Nat.add_assoc]
  exact Nat.add_le_add_left (le_nesting_flavored true) 1

/-- The levels of tokens in braces with flavors behind them. -/
theorem le_nesting_pool (ho : o.Lexed) (hopen : o.kind = .leftBrace) :
    1 + nesting false (tokenChars ts) + nesting true (tokenChars fs) ≤
      nesting opened (tokenChars (o :: (ts ++ c :: fs))) := by
  rw [tokenChars_cons, ho.text_eq (by rw [hopen]; rfl), List.singleton_append, nesting_brace,
    Nat.add_assoc]
  exact Nat.add_le_add_left (le_nesting_flavored false) 1

end

/-- No parenthesis is open behind the tokens of an operand. -/
def Piece.Closes (ts : List Token) : Piece → Prop
  | .operand _ | .atom _ => ∀ opened, opens opened (tokenChars ts) = false
  | .glue _ _ => opens false (tokenChars ts) = false
  | _ => True

theorem TokenKind.ne_minus {kind : TokenKind} (h : kind.isFragment = true) : kind ≠ .minus := by
  rintro rfl
  cases h

theorem TokenKind.opens_of_product {kind : TokenKind} {op : Operator}
    (h : kind.product? = some op) : kind.isPlain = true ∧ kind ≠ .leftParen := by
  cases kind <;> simp_all [product?, isPlain]

theorem TokenKind.opens_of_isFragment {kind : TokenKind} (h : kind.isFragment = true) :
    kind.isPlain = true ∧ kind ≠ .leftParen ∨ kind = .dataReference := by
  cases kind <;> simp_all [isFragment, isPlain]

/-- No parenthesis is open behind the tokens of an operand. -/
theorem Derives.closes {source : List Char} {greedy : Bool} {piece : Piece} {p : Nat}
    {ts : List Token} (h : Derives source greedy piece p ts) (hlexed : ∀ t ∈ ts, t.Lexed) :
    piece.Closes ts := by
  induction h with
  | operand hfirst hmore hcall ihfirst ihmore =>
    rw [List.forall_mem_append] at hlexed
    intro opened
    rw [tokenChars_append, opens_append, ihfirst hlexed.1]
    exact ihmore hlexed.2
  | fragment hadjacent hkind hfs hmore ihmore =>
    rw [List.forall_mem_cons, List.forall_mem_append] at hlexed
    show opens false (tokenChars _) = false
    rw [← List.cons_append, tokenChars_append, opens_append,
      opens_closed hlexed.1 (TokenKind.opens_of_isFragment hkind) hfs hlexed.2.1]
    exact ihmore hlexed.2.2
  | behindText hadjacent hkind hpart hmore ihpart ihmore =>
    rw [List.forall_mem_append] at hlexed
    show opens false (tokenChars _) = false
    rw [tokenChars_append, opens_append, ihpart hlexed.1]
    exact ihmore hlexed.2
  | glueEnd => rfl
  | literal hn hfs =>
    rw [List.forall_mem_cons] at hlexed
    refine fun opened => opens_closed hlexed.1 ?_ hfs hlexed.2
    cases hn with
    | number => exact .inl ⟨rfl, nofun⟩
    | dice => exact .inl ⟨rfl, nofun⟩
    | fragment hkind => rcases hkind with hkind | hkind | hkind <;> simp [hkind, TokenKind.isPlain]
  | callEmpty hname hopen hadjacent hclose hfs =>
    simp only [List.forall_mem_cons] at hlexed
    obtain ⟨-, -, hc, hflavors⟩ := hlexed
    intro opened
    rw [tokenChars_cons, tokenChars_cons, opens_append, opens_append]
    exact opens_closed hc (.inl (by simp [hclose, TokenKind.isPlain])) hfs hflavors
  | call hname hopen hadjacent hlist hclose hfs ihlist =>
    simp only [List.forall_mem_cons, List.forall_mem_append] at hlexed
    obtain ⟨-, -, -, hc, hflavors⟩ := hlexed
    intro opened
    rw [tokenChars_cons, tokenChars_cons, tokenChars_append, opens_append, opens_append,
      opens_append]
    exact opens_closed hc (.inl (by simp [hclose, TokenKind.isPlain])) hfs hflavors
  | group hopen hinner hclose hfs ihinner | pool hopen hlist hclose hms hfs ihlist =>
    simp only [List.forall_mem_cons, List.forall_mem_append] at hlexed
    obtain ⟨-, -, hc, hflavors⟩ := hlexed
    intro opened
    rw [tokenChars_cons, tokenChars_append, opens_append, opens_append]
    exact opens_closed hc (.inl (by simp [hclose, TokenKind.isPlain])) hfs hflavors
  | _ => trivial

end Formula

end DiceNotation
