/-
  DiceNotation.Proofs.Formula.Pointing

  Syntax errors point at their culprits.

  The span of an error lies between characters of the formula and its fragment is
  what stands there (`SyntaxError.PointsInto`). Where a modifier is refused, the
  suffix is known with the chunks that were taken before it (`Refusal`), and the
  error points at the first place in the suffix with the text of the refused chunk.
  That is the place of the chunk, unless its text stands in the suffix before
  (`parse_error_points`).
-/

import DiceNotation.Proofs.Formula.Culprit
import DiceNotation.Proofs.Formula.Position

namespace DiceNotation.Text

/-! ## Occurrences -/

/-- A pattern stands in a text, at a position. -/
def Occurs (pattern cs : List Char) (n : Nat) : Prop :=
  ∃ before after, cs = before ++ (pattern ++ after) ∧ n = byteLength before

/-- A pattern stands in a text at a position, and nowhere before it. -/
def FirstOccurs (pattern cs : List Char) (n : Nat) : Prop :=
  Occurs pattern cs n ∧ ∀ m, Occurs pattern cs m → n ≤ m

section

variable {pattern cs : List Char} {n m : Nat}

theorem FirstOccurs.unique (hn : FirstOccurs pattern cs n) (hm : FirstOccurs pattern cs m) :
    n = m :=
  Nat.le_antisymm (hn.2 m hm.1) (hm.2 n hn.1)

/-- What stands in a part of a text stands in the text. -/
theorem Occurs.within {whole : List Char} (h : Occurs pattern cs n) (hcs : Occurs cs whole m) :
    Occurs pattern whole (m + n) := by
  obtain ⟨before, after, rfl, rfl⟩ := h
  obtain ⟨before', after', rfl, rfl⟩ := hcs
  refine ⟨before' ++ before, after ++ after', ?_, (byteLength_append _ _).symm⟩
  simp only [List.append_assoc]

theorem occurs_zero_of_isPrefixOf (h : pattern.isPrefixOf cs = true) : Occurs pattern cs 0 := by
  obtain ⟨after, rfl⟩ := List.isPrefixOf_iff_prefix.mp h
  exact ⟨[], after, rfl, rfl⟩

/-- A pattern that does not begin a text stands behind its first character. -/
theorem Occurs.tail {c : Char} (h : Occurs pattern (c :: cs) n)
    (hhead : ¬ pattern.isPrefixOf (c :: cs) = true) :
    ∃ m, n = c.utf8Size + m ∧ Occurs pattern cs m := by
  obtain ⟨_ | ⟨d, before⟩, after, heq, rfl⟩ := h
  · exact absurd (List.isPrefixOf_iff_prefix.mpr ⟨after, heq.symm⟩) hhead
  · cases heq
    exact ⟨byteLength before, rfl, before, after, rfl, rfl⟩

theorem Occurs.cons (h : Occurs pattern cs n) (c : Char) :
    Occurs pattern (c :: cs) (c.utf8Size + n) := by
  obtain ⟨before, after, rfl, rfl⟩ := h
  exact ⟨c :: before, after, rfl, rfl⟩

/-- The first occurrence of a pattern that occurs is found. -/
theorem exists_find?_of_occurs (h : Occurs pattern cs m) :
    ∃ n, find? pattern cs = some n ∧ FirstOccurs pattern cs n := by
  induction cs generalizing m with
  | nil =>
    obtain ⟨before, after, heq, -⟩ := h
    obtain ⟨-, hrest⟩ := List.append_eq_nil_iff.mp heq.symm
    obtain ⟨rfl, -⟩ := List.append_eq_nil_iff.mp hrest
    exact ⟨0, rfl, ⟨[], [], rfl, rfl⟩, fun _ _ => Nat.zero_le _⟩
  | cons c cs ih =>
    rw [find?]
    split
    · next hhead =>
      exact ⟨0, rfl, occurs_zero_of_isPrefixOf hhead, fun _ _ => Nat.zero_le _⟩
    · next hhead =>
      obtain ⟨m', -, hm'⟩ := h.tail hhead
      obtain ⟨n, hn, hoccurs, hfirst⟩ := ih hm'
      refine ⟨c.utf8Size + n, by rw [hn, Option.map_some], hoccurs.cons c, ?_⟩
      intro k hk
      obtain ⟨k', rfl, hk'⟩ := hk.tail hhead
      have hle := hfirst k' hk'
      omega

/-- The span of an occurrence is cut out as the pattern. -/
theorem slice?_of_occurs (h : Occurs pattern cs n) :
    slice? cs ⟨n, n + byteLength pattern⟩ = some pattern := by
  obtain ⟨before, after, rfl, rfl⟩ := h
  have hlength : byteLength before + byteLength pattern - byteLength before =
      byteLength pattern := by omega
  rw [slice?, if_pos (Nat.le_add_right _ _), dropBytes?_append, Option.bind_some, hlength,
    takeBytes?_append]

end

end DiceNotation.Text

namespace DiceNotation.Formula

open Text

/-! ## Tokens in the text -/

section

variable {source cs : List Char} {start : Nat} {t : Token} {ts us : List Token}

/-- The span of a token is as long as its text. -/
theorem Scans.stop_eq (h : Scans start cs (t :: ts)) :
    t.span.stop = t.span.start + byteLength t.text := by
  generalize hts : t :: ts = ts' at h
  induction h with
  | done => cases hts
  | blank _ _ ih => exact ih hts
  | token =>
    cases hts
    rfl

/-- The last tokens of a text are those of what it ends with. -/
theorem Scans.of_suffix (h : Scans start cs ts) (hus : us <:+ ts) :
    ∃ before after, cs = before ++ after ∧ Scans (start + byteLength before) after us := by
  induction h with
  | done start =>
    obtain rfl := List.suffix_nil.mp hus
    exact ⟨[], [], rfl, .done _⟩
  | @blank start c cs ts _ _ ih =>
    obtain ⟨before, after, rfl, hafter⟩ := ih hus
    refine ⟨c :: before, after, rfl, ?_⟩
    rw [byteLength, ← Nat.add_assoc]
    exact hafter
  | @token start kind w r ts hw hhead hlongest hr ih =>
    obtain rfl | hus := List.suffix_cons_iff.mp hus
    · exact ⟨[], w ++ r, rfl, .token hw hhead hlongest hr⟩
    · obtain ⟨before, after, rfl, hafter⟩ := ih hus
      refine ⟨w ++ before, after, (List.append_assoc _ _ _).symm, ?_⟩
      rw [byteLength_append, ← Nat.add_assoc]
      exact hafter

/-- The first of the last tokens stands in the text where its span says, and the others are
    those of what follows it. -/
theorem Token.exists_text (h : t :: ts <:+ tokens source) :
    ∃ before after, source = before ++ (t.text ++ after) ∧ t.span.start = byteLength before ∧
      t.span.stop = byteLength before + byteLength t.text ∧
      longest (t.text ++ after) = (t.kind, t.text.length) ∧ Scans t.span.stop after ts := by
  obtain ⟨before, after, rfl, hscans⟩ := (scans_iff.mpr rfl).of_suffix h
  have hstop := hscans.stop_eq
  obtain ⟨blanks, r, rfl, -, -, hlongest, hstart, hr⟩ := hscans.cons_inv
  rw [Nat.zero_add, ← byteLength_append] at hstart
  refine ⟨before ++ blanks, r, by rw [List.append_assoc], hstart, ?_, hlongest, hr⟩
  rw [hstop, hstart]

theorem Token.suffix_of_mem (h : t ∈ tokens source) : ∃ ts, t :: ts <:+ tokens source := by
  obtain ⟨front, ts, heq⟩ := List.append_of_mem h
  exact ⟨ts, front, heq.symm⟩

theorem Token.occurs (h : t ∈ tokens source) : Occurs t.text source t.span.start := by
  obtain ⟨ts, hts⟩ := Token.suffix_of_mem h
  obtain ⟨before, after, hsource, hstart, -⟩ := Token.exists_text hts
  exact ⟨before, after, hsource, hstart⟩

theorem Token.stop_eq (h : t ∈ tokens source) :
    t.span.stop = t.span.start + byteLength t.text := by
  obtain ⟨ts, hts⟩ := Token.suffix_of_mem h
  obtain ⟨before, after, -, hstart, hstop, -⟩ := Token.exists_text hts
  rw [hstart, hstop]

/-- The text between the braces of an empty pool and the braces themselves. -/
theorem occurs_between {opening closing : Token} (h : opening :: closing :: ts <:+ tokens source) :
    ∃ inside, Occurs inside source opening.span.start ∧
      closing.span.stop = opening.span.start + byteLength inside := by
  obtain ⟨before, after, hsource, hstart, hstop, -, hscans⟩ := Token.exists_text h
  have hstop' := hscans.stop_eq
  obtain ⟨blanks, r, rfl, -, -, -, hstart', -⟩ := hscans.cons_inv
  refine ⟨opening.text ++ (blanks ++ closing.text), ⟨before, r, ?_, hstart⟩, ?_⟩
  · rw [hsource]
    simp only [List.append_assoc]
  · rw [hstop', hstart', hstop, hstart]
    simp only [byteLength_append]
    omega

/-! ## Modifier suffixes in the text -/

theorem beginsChunk_of_suffixLength {suffix r : List Char}
    (h : suffixLength .between (suffix ++ r) = suffix.length) : Modifier.BeginsChunk suffix := by
  intro c hhead
  obtain ⟨rest, rfl⟩ := List.head?_eq_some_iff.mp hhead
  cases hc : c.isAlpha with
  | true => rfl
  | false =>
    have hnone : SuffixState.next? .between c = none := by simp [SuffixState.next?, hc]
    rw [List.cons_append, suffixLength, hnone] at h
    cases h

/-- A modifier suffix is what its token ends with, and it begins with a letter, if with
    anything. -/
theorem Token.suffix?_parts {family : Modifier.Family} {suffix : List Char}
    (ht : t ∈ tokens source) (h : t.suffix? = some (family, suffix)) :
    (∃ head, t.text = head ++ suffix) ∧ Modifier.BeginsChunk suffix := by
  obtain ⟨ts, hts⟩ := Token.suffix_of_mem ht
  obtain ⟨before, r, -, -, -, hlongest, -⟩ := Token.exists_text hts
  cases hk : t.kind with
  | dice =>
    rw [hk] at hlongest
    obtain ⟨u, d, faces, suffix', htext, hu, hd, hfaces, hlength⟩ := dice_parts hlongest
    have hsplit := splitDice_append hu hd hfaces.of_append
    simp only [Token.suffix?, hk, htext, hsplit, Option.map_eq_some_iff, Prod.mk.injEq] at h
    obtain ⟨-, -, -, rfl⟩ := h
    refine ⟨⟨u ++ d :: faces, by rw [htext]; simp⟩, beginsChunk_of_suffixLength hlength⟩
  | rightBrace =>
    rw [hk] at hlongest
    obtain ⟨suffix', htext⟩ := rightBrace_parts hlongest
    have hlength : rightBraceLength (t.text ++ r) = t.text.length :=
      (length_of_longest hlongest rfl).1
    rw [htext, List.cons_append, rightBraceLength, List.length_cons] at hlength
    simp only [Token.suffix?, hk, htext, List.drop_succ_cons, List.drop_zero, Option.some.injEq,
      Prod.mk.injEq] at h
    obtain ⟨-, rfl⟩ := h
    have hsuffix : suffixLength .between (suffix' ++ r) = suffix'.length := by omega
    exact ⟨⟨['\x7d'], htext⟩, beginsChunk_of_suffixLength hsuffix⟩
  | _ => simp [Token.suffix?, hk] at h

/-- A modifier suffix stands in the text right before the end of its token. -/
theorem Token.occurs_suffix {family : Modifier.Family} {suffix : List Char}
    (ht : t ∈ tokens source) (h : t.suffix? = some (family, suffix)) :
    Occurs suffix source (t.span.stop - byteLength suffix) := by
  obtain ⟨⟨head, htext⟩, -⟩ := Token.suffix?_parts ht h
  have hinside : Occurs suffix t.text (byteLength head) := ⟨head, [], by simp [htext], rfl⟩
  have hlength : byteLength t.text = byteLength head + byteLength suffix := by
    rw [htext, byteLength_append]
  have hstop := Token.stop_eq ht
  have hposition : t.span.stop - byteLength suffix = t.span.start + byteLength head := by omega
  rw [hposition]
  exact hinside.within (Token.occurs ht)

end

/-! ## Refused modifiers -/

/-- A modifier suffix in a formula that its family does not take: the chunks before the refused
    one are modifiers of the family, and the refused one is none. -/
structure Refusal (source : List Char) where
  token : Token
  family : Modifier.Family
  accepted : List (List Char)
  rejected : List Char
  later : List (List Char)
  mem : token ∈ tokens source
  suffix?_eq : token.suffix? = some (family, (accepted ++ rejected :: later).flatten)
  chunks_eq : Modifier.chunks (accepted ++ rejected :: later).flatten =
    .ok (accepted ++ rejected :: later)
  isSome_accepted : ∀ chunk ∈ accepted, (Modifier.ofChars? family chunk).isSome = true
  rejected_eq_none : Modifier.ofChars? family rejected = none

namespace Refusal

variable {source : List Char}

/-- The modifier suffix. -/
def suffix (r : Refusal source) : List Char := (r.accepted ++ r.rejected :: r.later).flatten

/-- Where the modifier suffix begins. -/
def start (r : Refusal source) : Nat := r.token.span.stop - byteLength r.suffix

/-- Where the refused chunk stands. -/
def position (r : Refusal source) : Nat := r.start + byteLength r.accepted.flatten

theorem occurs_suffix (r : Refusal source) : Occurs r.suffix source r.start :=
  Token.occurs_suffix r.mem r.suffix?_eq

theorem occurs_rejected (r : Refusal source) :
    Occurs r.rejected r.suffix (byteLength r.accepted.flatten) :=
  ⟨r.accepted.flatten, r.later.flatten, by simp [suffix], rfl⟩

/-- The refused chunk stands in the formula at its position. -/
theorem occurs (r : Refusal source) : Occurs r.rejected source r.position :=
  r.occurs_rejected.within r.occurs_suffix

end Refusal

/-- A suffix that is refused is refused for a chunk. -/
theorem exists_refusal {source : List Char} {t : Token} {family : Modifier.Family}
    {suffix rejected : List Char} (ht : t ∈ tokens source)
    (hsuffix : t.suffix? = some (family, suffix))
    (h : Modifier.ofSuffix family suffix = .error rejected) :
    ∃ r : Refusal source, r.token = t ∧ r.suffix = suffix ∧ r.rejected = rejected := by
  obtain ⟨-, hbegins⟩ := Token.suffix?_parts ht hsuffix
  rcases Modifier.ofSuffix_eq_error_iff.mp h with hwhole | ⟨hsplit, haccepted, hrejected⟩
  · exact absurd hbegins hwhole
  · obtain rfl := hsplit.flatten_eq
    exact ⟨⟨t, family, _, rejected, _, ht, hsuffix, hsplit.chunks_eq, haccepted, hrejected⟩,
      rfl, rfl, rfl⟩

/-! ## Errors -/

/-- An error is about a formula: its span lies between characters of the formula and its
    fragment is what stands there. -/
structure SyntaxError.PointsInto (e : SyntaxError) (formula : String) : Prop where
  formula_eq : e.formula = formula
  occurs : Occurs e.fragment.toList formula.toList e.span.start
  stop_eq : e.span.stop = e.span.start + byteLength e.fragment.toList

section

variable {source : List Char} {e : SyntaxError}

theorem fragment_atSpan {inside : List Char} {n : Nat} (h : Occurs inside source n)
    (fault : Fault) :
    (SyntaxError.atSpan source ⟨n, n + byteLength inside⟩ fault).fragment =
      String.ofList inside := by
  rw [SyntaxError.atSpan, slice?_of_occurs h, Option.getD_some]

theorem pointsInto_atSpan {inside : List Char} {span : Span} (h : Occurs inside source span.start)
    (hstop : span.stop = span.start + byteLength inside) (fault : Fault) :
    (SyntaxError.atSpan source span fault).PointsInto (String.ofList source) := by
  obtain ⟨start, stop⟩ := span
  obtain rfl : stop = start + byteLength inside := hstop
  have hfragment := fragment_atSpan h fault
  constructor
  · rfl
  · rw [hfragment, String.toList_ofList, String.toList_ofList]
    exact h
  · rw [hfragment, String.toList_ofList]
    rfl

/-- What an error about a modifier says and where it points. -/
theorem Refusal.modifierError_eq (r : Refusal source) :
    ∃ n, FirstOccurs r.rejected r.suffix n ∧
      modifierError source r.token.span.stop r.suffix r.rejected =
        .atSpan source ⟨r.start + n, r.start + n + byteLength r.rejected⟩
          (.invalidModifier (String.ofList r.rejected)) := by
  obtain ⟨n, hfind, hfirst⟩ := exists_find?_of_occurs r.occurs_rejected
  refine ⟨n, hfirst, ?_⟩
  rw [modifierError, hfind]
  rfl

/-- An error with a culprit points into the formula. -/
theorem Culprit.pointsInto (h : Culprit source e) : e.PointsInto (String.ofList source) := by
  cases h with
  | @formulaEnd fault hfault =>
    have hend : Occurs [] source (byteLength source) := ⟨source, [], by simp, rfl⟩
    exact pointsInto_atSpan hend (Nat.add_zero _).symm fault
  | @token t fault ht hfault => exact pointsInto_atSpan (Token.occurs ht) (Token.stop_eq ht) fault
  | @emptyPool opening closing rest h =>
    obtain ⟨inside, hinside, hstop⟩ := occurs_between h
    exact @pointsInto_atSpan source inside ⟨opening.span.start, closing.span.stop⟩ hinside hstop
      .emptyPool
  | modifier ht hsuffix hchunk =>
    obtain ⟨r, rfl, rfl, rfl⟩ := exists_refusal ht hsuffix hchunk
    obtain ⟨n, hfirst, heq⟩ := r.modifierError_eq
    rw [heq]
    exact pointsInto_atSpan (hfirst.1.within r.occurs_suffix) rfl _

/-- An error about a modifier comes from a refused suffix. -/
theorem Culprit.exists_refusal {chunk : String} (h : Culprit source e)
    (hfault : e.fault = .invalidModifier chunk) :
    ∃ (r : Refusal source) (n : Nat), chunk = String.ofList r.rejected ∧ e.fragment = chunk ∧
      e.span.start = r.start + n ∧ FirstOccurs r.rejected r.suffix n := by
  have hsome : e.fault.chunk? = some chunk := by rw [hfault]; rfl
  cases h with
  | formulaEnd hnone | token _ hnone => exact nomatch hnone.symm.trans hsome
  | emptyPool => cases hsome
  | modifier ht hsuffix hchunk =>
    obtain ⟨r, rfl, rfl, rfl⟩ := Formula.exists_refusal ht hsuffix hchunk
    obtain ⟨n, hfirst, heq⟩ := r.modifierError_eq
    rw [heq] at hfault ⊢
    cases hfault
    exact ⟨r, n, rfl, fragment_atSpan (hfirst.1.within r.occurs_suffix) _, rfl, hfirst⟩

end

/-- Syntax errors point into their formula. Where a modifier is refused, it is the first chunk
    of a suffix that is no modifier, and the error points at the first place in the suffix
    where its text stands: the place of the chunk itself, unless the text stands before. -/
theorem parse_error_points {formula : String} {e : SyntaxError} (h : parse formula = .error e) :
    e.PointsInto formula ∧
      ∀ chunk, e.fault = .invalidModifier chunk → ∃ r : Refusal formula.toList,
        chunk = String.ofList r.rejected ∧ e.fragment = chunk ∧
          Occurs r.rejected formula.toList r.position ∧
          (∃ n, e.span.start = r.start + n ∧ FirstOccurs r.rejected r.suffix n) ∧
          (e.span.start = r.position ↔
            FirstOccurs r.rejected r.suffix (byteLength r.accepted.flatten)) := by
  have hculprit : Culprit formula.toList e := by
    have hreported := reported_parseChars formula.toList
    rwa [show parseChars formula.toList = .error e from h] at hreported
  constructor
  · have hpoints := hculprit.pointsInto
    rwa [String.ofList_toList] at hpoints
  · intro chunk hfault
    obtain ⟨r, n, hchunk, hfragment, hstart, hfirst⟩ := hculprit.exists_refusal hfault
    refine ⟨r, hchunk, hfragment, r.occurs, ⟨n, hstart, hfirst⟩, ?_⟩
    rw [hstart, Refusal.position]
    constructor
    · intro heq
      obtain rfl : n = byteLength r.accepted.flatten := by omega
      exact hfirst
    · intro hplace
      rw [hfirst.unique hplace]

/-! ## Formulas that begin with refused dice -/

/-- A formula that begins with dice that cannot be read is refused for them. -/
theorem parseChars_of_dice {source : List Char} {t : Token} {rest : List Token} {e : SyntaxError}
    (htokens : tokens source = t :: rest) (hkind : t.kind = .dice)
    (hnode : diceNode source t = .error e) : parseChars source = .error e := by
  have hsigns : signs ⟨t :: rest, 0⟩ = (none, ⟨t :: rest, 0⟩) := by
    simp only [signs, signRun, hkind]
  have hatom : ∀ fuel, readAtom source (fuel + 1) ⟨t :: rest, 0⟩ = .error e := by
    intro fuel
    simp only [readAtom, hkind, hnode]
    rfl
  obtain ⟨fuel, hfuel⟩ : ∃ fuel, 8 * ((t :: rest).length + 1) = fuel + 3 :=
    ⟨8 * (t :: rest).length + 5, by omega⟩
  simp only [parseChars, htokens, hfuel, readExpression, hsigns, readOperand, hatom]
  rfl

/-- The letter that no die takes is pointed at behind a modifier that is taken. -/
theorem parse_error_points_taken :
    ∃ e, parse "4d6kh1kq" = .error e ∧ e.span = ⟨6, 8⟩ ∧ e.PointsInto "4d6kh1kq" ∧
      ∀ chunk, e.fault = .invalidModifier chunk → ∃ r : Refusal "4d6kh1kq".toList,
        chunk = String.ofList r.rejected ∧ e.fragment = chunk ∧
          Occurs r.rejected "4d6kh1kq".toList r.position ∧
          (∃ n, e.span.start = r.start + n ∧ FirstOccurs r.rejected r.suffix n) ∧
          (e.span.start = r.position ↔
            FirstOccurs r.rejected r.suffix (byteLength r.accepted.flatten)) := by
  have herror : parse "4d6kh1kq" =
      .error ⟨"4d6kh1kq", "kq", ⟨6, 8⟩, .invalidModifier "kq"⟩ :=
    @parseChars_of_dice _ ⟨.dice, ['4', 'd', '6', 'k', 'h', '1', 'k', 'q'], ⟨0, 8⟩⟩ [] _ rfl rfl rfl
  exact ⟨_, herror, rfl, parse_error_points herror⟩

/-- The chunk `h1` is refused behind `kh1`, but the error points into `kh1`. -/
theorem refused_chunk_missed :
    ∃ e, parse "4d6kh1h1" = .error e ∧ e.fault = .invalidModifier "h1" ∧ e.span = ⟨4, 6⟩ ∧
      ∀ r : Refusal "4d6kh1h1".toList, r.rejected = ['h', '1'] ∧ r.position = 6 := by
  obtain ⟨t, htokens, hkind, hstop, hparts, hnode⟩ : ∃ t, tokens "4d6kh1h1".toList = [t] ∧
      t.kind = .dice ∧ t.span.stop = 8 ∧
      t.suffix? = some (.ofDenomination (.die 6), ['k', 'h', '1', 'h', '1']) ∧
      diceNode "4d6kh1h1".toList t =
        .error (modifierError "4d6kh1h1".toList 8 ['k', 'h', '1', 'h', '1'] ['h', '1']) :=
    ⟨⟨.dice, ['4', 'd', '6', 'k', 'h', '1', 'h', '1'], ⟨0, 8⟩⟩, rfl, rfl, rfl, rfl, rfl⟩
  have hplace : modifierError "4d6kh1h1".toList 8 ['k', 'h', '1', 'h', '1'] ['h', '1'] =
      ⟨"4d6kh1h1", "h1", ⟨4, 6⟩, .invalidModifier "h1"⟩ := by decide
  have herror : parse "4d6kh1h1" =
      .error ⟨"4d6kh1h1", "h1", ⟨4, 6⟩, .invalidModifier "h1"⟩ := by
    rw [parse, parseChars_of_dice htokens hkind hnode, hplace]
  refine ⟨_, herror, rfl, rfl, ?_⟩
  rintro ⟨token, family, accepted, rejected, later, hmem, hsuffix, hchunks, htaken, hrefused⟩
  obtain rfl : token = t := List.mem_singleton.mp (htokens ▸ hmem)
  obtain ⟨rfl, hflatten⟩ : family = .ofDenomination (.die 6) ∧
      (accepted ++ rejected :: later).flatten = ['k', 'h', '1', 'h', '1'] := by
    simpa only [Option.some.injEq, Prod.mk.injEq, eq_comm] using hparts.symm.trans hsuffix
  have hrow : accepted ++ rejected :: later = [['k', 'h', '1'], ['h', '1']] := by
    rw [hflatten] at hchunks
    exact (Except.ok.inj hchunks).symm
  match accepted, hrow with
  | [], hrow =>
    cases hrow
    cases hrefused
  | [_], hrow =>
    cases hrow
    exact ⟨rfl, by rw [Refusal.position, Refusal.start, hstop]; rfl⟩
  | _ :: _ :: _, hrow => simp at hrow

end DiceNotation.Formula
