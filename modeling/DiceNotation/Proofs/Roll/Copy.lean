/-
  DiceNotation.Proofs.Roll.Copy

  Copies of rolls that have not been evaluated.

  A copy is read from the formula of the roll, with the data of the roll put in place
  of references once more. The terms of a roll keep the references of the text that it
  was read from (`Derives.references`), so its formula has the same ones
  (`Roll.references_formula`). Where no reference is left that would be replaced and the
  numbers can be written anew, the copy is the roll (`Roll.cloneUnevaluated_withData`);
  where they cannot or a reference is left, it need not be.
-/

import Mathlib.Data.List.Basic
import DiceNotation.Proofs.Formula.Acceptance
import DiceNotation.Proofs.Formula.Reference
import DiceNotation.Proofs.Formula.RoundTrip
import DiceNotation.Proofs.Number.Reread

namespace DiceNotation

open Formula

/-! ## References of terms -/

/-- The references in a flavor. -/
def Annotations.references (a : Annotations) : List (List Char) :=
  match a.flavor with
  | some flavor => Formula.references flavor.toList
  | none => []

mutual

/-- The references in the terms of a roll. -/
def Roll.references : Roll → List (List Char)
  | ⟨_, _, _, terms, _, _, _⟩ => Term.referencesOfAll terms

/-- The references in a fragment of text, in the rolls of a term and in its flavor. -/
def Term.references : Term → List (List Char)
  | .numeric _ a | .operator _ a => a.references
  | .dice d => d.annotations.references
  | .pool p rolls => Roll.referencesOfAll rolls ++ p.annotations.references
  | .function _ _ rolls _ a => Roll.referencesOfAll rolls ++ a.references
  | .parenthetical _ roll a => roll.references ++ a.references
  | .text content a _ => Formula.references content.toList ++ a.references

/-- The references in terms in a row. -/
def Term.referencesOfAll : List Term → List (List Char)
  | [] => []
  | t :: rest => t.references ++ Term.referencesOfAll rest

/-- The references in rolls in a row. -/
def Roll.referencesOfAll : List Roll → List (List Char)
  | [] => []
  | r :: rest => r.references ++ Roll.referencesOfAll rest

end

@[simp] theorem Term.referencesOfAll_append (ts us : List Term) :
    Term.referencesOfAll (ts ++ us) = Term.referencesOfAll ts ++ Term.referencesOfAll us := by
  induction ts with
  | nil => rfl
  | cons t ts ih =>
    rw [List.cons_append, Term.referencesOfAll, Term.referencesOfAll, ih, List.append_assoc]

theorem Term.referencesOfAll_singleton (t : Term) : Term.referencesOfAll [t] = t.references :=
  List.append_nil _

/-- A flavor comes behind the other references of its term. -/
theorem Term.references_setFlavor {t : Term} (h : t.annotations.flavor = none)
    (flavor : String) :
    (t.setFlavor (some flavor)).references = t.references ++ Formula.references flavor.toList := by
  have hnone : t.annotations.references = [] := by rw [Annotations.references, h]
  cases t <;>
    simp_all [Term.setFlavor, Term.setAnnotations, Term.annotations, Term.references,
      Annotations.references]

namespace Formula

/-! ## References of nodes -/

/-- The terms of a node have these references. -/
def Node.HasReferences (n : Node) (refs : List (List Char)) : Prop :=
  ∀ first row, Term.ofNode first n = .ok row → Term.referencesOfAll row = refs

/-- The terms of nodes in a row have these references. -/
def RowHasReferences (ns : List Node) (refs : List (List Char)) : Prop :=
  ∀ first row, Term.ofRow first ns = .ok row → Term.referencesOfAll row = refs

/-- The roll of a formula within a formula has these references. -/
def SubFormula.HasReferences (s : SubFormula) (refs : List (List Char)) : Prop :=
  ∀ roll, Roll.ofSub s = .ok roll → roll.references = refs

/-- The rolls of formulas in a row have these references. -/
def RollsHaveReferences (subs : List SubFormula) (refs : List (List Char)) : Prop :=
  ∀ rolls, Roll.ofSubs subs = .ok rolls → Roll.referencesOfAll rolls = refs

/-- A node becomes a single term, which has these references and no flavor. -/
def Node.IsBare (n : Node) (refs : List (List Char)) : Prop :=
  ∀ first row, Term.ofNode first n = .ok row →
    ∃ t, row = [t] ∧ t.annotations.flavor = none ∧ t.references = refs

section

variable {n : Node} {ns : List Node} {s : SubFormula} {subs : List SubFormula}
  {refs refs' : List (List Char)}

theorem RowHasReferences.nil : RowHasReferences [] [] := by
  intro first row h
  cases h
  rfl

theorem RowHasReferences.cons (hn : n.HasReferences refs) (hns : RowHasReferences ns refs') :
    RowHasReferences (n :: ns) (refs ++ refs') := by
  intro first row h
  rw [Term.ofRow_cons] at h
  obtain ⟨terms, hterms, h⟩ := bind_eq_ok.mp h
  obtain ⟨more, hmore, heq⟩ := bind_eq_ok.mp h
  cases heq
  rw [Term.referencesOfAll_append, hn _ _ hterms, hns _ _ hmore]

theorem RollsHaveReferences.nil : RollsHaveReferences [] [] := by
  intro rolls h
  cases h
  rfl

theorem RollsHaveReferences.cons (hs : s.HasReferences refs)
    (hsubs : RollsHaveReferences subs refs') :
    RollsHaveReferences (s :: subs) (refs ++ refs') := by
  intro rolls h
  rw [Roll.ofSubs] at h
  obtain ⟨roll, hroll, h⟩ := bind_eq_ok.mp h
  obtain ⟨more, hmore, heq⟩ := bind_eq_ok.mp h
  cases heq
  rw [Roll.referencesOfAll, hs _ hroll, hsubs _ hmore]

theorem Node.HasReferences.operator (op : Operator) : (Node.operator op).HasReferences [] := by
  intro first row h
  rw [Term.ofNode] at h
  cases h
  rfl

/-- A minus sign has no references. -/
theorem Node.HasReferences.behind (h : n.HasReferences refs) (ss : List Token) :
    (n.behind ss).HasReferences refs := by
  unfold Node.behind
  split
  · intro first row hrow
    obtain ⟨value, rfl, hvalue⟩ | hnode := Node.ofNode_negation first n
    · rw [hvalue] at hrow
      cases hrow
      exact h first [.numeric value {}] (by rw [Term.ofNode])
    · rw [hnode] at hrow
      obtain ⟨terms, hterms, heq⟩ := bind_eq_ok.mp hrow
      have hrefs := h _ _ hterms
      split at heq
      · cases heq
        exact hrefs
      · cases heq
        exact (List.append_nil _).trans ((List.append_nil _).trans hrefs)
  · exact h

theorem Node.HasReferences.ofParts {more : List Node} (hn : n.HasReferences refs)
    (hmore : RowHasReferences more refs') : (Node.ofParts n more).HasReferences (refs ++ refs') := by
  cases more with
  | nil =>
    have hnil : refs' = [] := (hmore true [] rfl).symm
    rw [hnil, List.append_nil]
    exact hn
  | cons part more =>
    intro first row h
    rw [Node.ofParts, if_neg (by simp), Term.ofNode] at h
    exact RowHasReferences.cons hn hmore first row h

/-- A node with flavors has its own references and then theirs. -/
theorem Node.IsBare.flavored (h : n.IsBare refs) {fs : List Token} (hfs : AreFlavors fs)
    (hlexed : ∀ t ∈ fs, t.Lexed) : (n.flavored fs).HasReferences (refs ++ tokenReferences fs) := by
  intro first row hrow
  cases fs with
  | nil =>
    obtain ⟨t, rfl, -, rfl⟩ := h first row hrow
    rfl
  | cons f fs =>
    rw [Node.flavored, if_neg (by simp), Term.ofNode] at hrow
    obtain ⟨terms, hterms, heq⟩ := bind_eq_ok.mp hrow
    obtain ⟨t, rfl, hnone, rfl⟩ := h first terms hterms
    cases heq
    rw [Term.flavorLast, Term.referencesOfAll_singleton, Term.references_setFlavor hnone,
      references_intercalate, List.flatMap_map]
    exact congrArg (t.references ++ ·)
      (List.flatMap_congr fun u hu => (hlexed u hu).references_flavor (hfs u hu))

theorem Node.IsBare.text (cs : List Char) :
    (Node.text (String.ofList cs)).IsBare (Formula.references cs) := by
  intro first row hrow
  rw [Term.ofNode] at hrow
  cases hrow
  refine ⟨_, rfl, rfl, ?_⟩
  rw [Term.references, String.toList_ofList]
  exact List.append_nil _

theorem Node.IsBare.function (h : RollsHaveReferences subs refs) (name : String) :
    (Node.function name subs).IsBare refs := by
  intro first row hrow
  rw [Term.ofNode] at hrow
  obtain ⟨rolls, hrolls, heq⟩ := bind_eq_ok.mp hrow
  cases heq
  exact ⟨_, rfl, rfl, (List.append_nil _).trans (h rolls hrolls)⟩

theorem Node.IsBare.pool (h : RollsHaveReferences subs refs) (ms : List Modifier) :
    (Node.pool subs ms).IsBare refs := by
  intro first row hrow
  rw [Term.ofNode] at hrow
  obtain ⟨rolls, hrolls, heq⟩ := bind_eq_ok.mp hrow
  cases heq
  exact ⟨_, rfl, rfl, (List.append_nil _).trans (h rolls hrolls)⟩

theorem Node.IsBare.parenthetical (h : s.HasReferences refs) :
    (Node.parenthetical s).IsBare refs := by
  intro first row hrow
  rw [Term.ofNode] at hrow
  obtain ⟨roll, hroll, heq⟩ := bind_eq_ok.mp hrow
  cases heq
  exact ⟨_, rfl, rfl, (List.append_nil _).trans (h roll hroll)⟩

/-- An atom by itself has the references of its token. -/
theorem IsLiteral.isBare {t : Token} (h : IsLiteral t n) (hlexed : t.Lexed) :
    n.IsBare (Formula.references t.text) := by
  cases h with
  | number | dice =>
    intro first row hrow
    rw [Term.ofNode] at hrow
    cases hrow
    exact ⟨_, rfl, rfl, (hlexed.references_eq_nil rfl).symm⟩
  | fragment => exact .text t.text

end

/-- The terms of a piece have these references. -/
def Piece.HasReferences (refs : List (List Char)) : Piece → Prop
  | .expression nodes | .rest nodes | .glue _ nodes => RowHasReferences nodes refs
  | .operand n | .atom n => n.HasReferences refs
  | .list subs => RollsHaveReferences subs refs
  | .sub s => s.HasReferences refs

theorem tokenReferences_signs {ss : List Token} (h : AreSigns ss) (hlexed : ∀ t ∈ ss, t.Lexed) :
    tokenReferences ss = [] :=
  tokenReferences_of_isPlain hlexed fun t ht => by
    obtain hkind | hkind := kind_of_isSign (h t ht) <;> rw [hkind] <;> rfl

theorem TokenKind.isPlain_of_product {kind : TokenKind} {op : Operator}
    (h : kind.product? = some op) : kind.isPlain = true := by
  cases kind <;> first | rfl | cases h

/-- The terms of a piece have the references of its tokens. -/
theorem Derives.references {source : List Char} {greedy : Bool} {piece : Piece} {p : Nat}
    {ts : List Token} (h : Derives source greedy piece p ts) (hlexed : ∀ t ∈ ts, t.Lexed) :
    piece.HasReferences (tokenReferences ts) := by
  induction h with
  | expression hsigns hn hns ihn ihns =>
    rw [List.append_assoc, List.forall_mem_append, List.forall_mem_append] at hlexed
    rw [List.append_assoc, tokenReferences_append, tokenReferences_append,
      tokenReferences_signs hsigns hlexed.1, List.nil_append]
    exact .cons ((ihn hlexed.2.1).behind _) (ihns hlexed.2.2)
  | restSum hsigns hop hn hns ihn ihns =>
    rw [List.append_assoc, List.forall_mem_append, List.forall_mem_append] at hlexed
    rw [List.append_assoc, tokenReferences_append, tokenReferences_append,
      tokenReferences_signs hsigns hlexed.1]
    exact .cons (.operator _) (.cons (ihn hlexed.2.1) (ihns hlexed.2.2))
  | restProduct hop hsigns hn hns ihn ihns =>
    rw [List.append_assoc, List.forall_mem_cons, List.forall_mem_append,
      List.forall_mem_append] at hlexed
    rw [List.append_assoc, tokenReferences_plain hlexed.1 (TokenKind.isPlain_of_product hop),
      tokenReferences_append, tokenReferences_append, tokenReferences_signs hsigns hlexed.2.1]
    exact .cons (.operator _) (.cons ((ihn hlexed.2.2.1).behind _) (ihns hlexed.2.2.2))
  | restEnd => exact .nil
  | operand hfirst hmore hcall ihfirst ihmore =>
    rw [List.forall_mem_append] at hlexed
    rw [tokenReferences_append]
    exact (ihfirst hlexed.1).ofParts (ihmore hlexed.2)
  | @fragment b t fs us more p hadjacent hkind hfs hmore ihmore =>
    rw [List.forall_mem_cons, List.forall_mem_append] at hlexed
    rw [tokenReferences_cons, tokenReferences_append, ← List.append_assoc]
    exact .cons ((Node.IsBare.text t.text).flavored hfs hlexed.2.1) (ihmore hlexed.2.2)
  | behindText hadjacent hkind hpart hmore ihpart ihmore =>
    rw [List.forall_mem_append] at hlexed
    rw [tokenReferences_append]
    exact .cons (ihpart hlexed.1) (ihmore hlexed.2)
  | glueEnd => exact .nil
  | literal hn hfs =>
    rw [List.forall_mem_cons] at hlexed
    exact (hn.isBare hlexed.1).flavored hfs hlexed.2
  | callEmpty hname hopen hadjacent hclose hfs =>
    simp only [List.forall_mem_cons] at hlexed
    obtain ⟨hn, ho, hc, hflavors⟩ := hlexed
    rw [tokenReferences_plain hn (by rw [hname]; rfl), tokenReferences_plain ho (by rw [hopen]; rfl),
      tokenReferences_plain hc (by rw [hclose]; rfl)]
    exact (Node.IsBare.function RollsHaveReferences.nil _).flavored hfs hflavors
  | call hname hopen hadjacent hlist hclose hfs ihlist =>
    rw [List.forall_mem_cons, List.forall_mem_cons, List.forall_mem_append,
      List.forall_mem_cons] at hlexed
    obtain ⟨hn, ho, hts, hc, hflavors⟩ := hlexed
    rw [tokenReferences_plain hn (by rw [hname]; rfl), tokenReferences_plain ho (by rw [hopen]; rfl),
      tokenReferences_append, tokenReferences_plain hc (by rw [hclose]; rfl)]
    exact (Node.IsBare.function (ihlist hts) _).flavored hfs hflavors
  | group hopen hinner hclose hfs ihinner =>
    rw [List.forall_mem_cons, List.forall_mem_append, List.forall_mem_cons] at hlexed
    obtain ⟨ho, hts, hc, hflavors⟩ := hlexed
    rw [tokenReferences_plain ho (by rw [hopen]; rfl), tokenReferences_append,
      tokenReferences_plain hc (by rw [hclose]; rfl)]
    exact (Node.IsBare.parenthetical (ihinner hts)).flavored hfs hflavors
  | pool hopen hlist hclose hms hfs ihlist =>
    rw [List.forall_mem_cons, List.forall_mem_append, List.forall_mem_cons] at hlexed
    obtain ⟨ho, hts, hc, hflavors⟩ := hlexed
    rw [tokenReferences_plain ho (by rw [hopen]; rfl), tokenReferences_append,
      tokenReferences_plain hc (by rw [hclose]; rfl)]
    exact (Node.IsBare.pool (ihlist hts) _).flavored hfs hflavors
  | listLast hs ihs =>
    have hlist := RollsHaveReferences.cons (ihs hlexed) .nil
    rwa [List.append_nil] at hlist
  | listMore hs hcomma hmore ihs ihmore =>
    rw [List.forall_mem_append, List.forall_mem_cons] at hlexed
    obtain ⟨hts, hc, hus⟩ := hlexed
    rw [tokenReferences_append, tokenReferences_plain hc (by rw [hcomma]; rfl)]
    exact .cons (ihs hts) (ihmore hus)
  | sub hnodes ihnodes =>
    intro roll hroll
    rw [Roll.ofSub] at hroll
    obtain ⟨-, -, h⟩ := bind_eq_ok.mp hroll
    obtain ⟨terms, hterms, heq⟩ := bind_eq_ok.mp h
    cases heq
    exact ihnodes hlexed true terms hterms

end Formula

/-! ## Reading again -/

/-- The terms of a formula have the references of the formula. -/
theorem Term.references_ofFormula {formula : String} {row : List Term}
    (h : Term.ofFormula formula = .ok row) :
    Term.referencesOfAll row = Formula.references formula.toList := by
  obtain ⟨nodes, hnodes, hrow⟩ := Term.ofFormula_eq_ok.mp h
  obtain ⟨c, hread, hc⟩ := parseChars_eq_ok.mp hnodes
  rw [(scans_iff.mpr rfl : Scans 0 formula.toList (tokens formula.toList)).references]
  exact (derives_of_reads hread hc).references (lexed_tokens _) true row hrow

/-- Terms are written as a formula of the same terms if their numbers can be written anew. -/
theorem Term.ofFormula_formulaOf {formula : String} {row : List Term}
    (h : Term.ofFormula formula = .ok row) (hlegible : Legible (tokens formula.toList)) :
    Term.ofFormula (Roll.formulaOf row) = .ok row := by
  obtain ⟨nodes, hnodes, hrow⟩ := Term.ofFormula_eq_ok.mp h
  obtain ⟨c, hread, -⟩ := parseChars_eq_ok.mp hnodes
  obtain ⟨-, -, row', hterms, hreread⟩ := hread.written formula.toList ⟨scans_iff.mpr rfl, hlegible⟩
  obtain rfl : row = row' := Except.ok.inj (hrow.symm.trans hterms)
  -- nothing stands behind the formula of the terms
  obtain ⟨ts, hts, nodes', hnodes', hread'⟩ :=
    hreread (Roll.formulaOf row).toList 0 [] [] (.done _) (.inl rfl)
  rw [List.append_nil] at hts
  rw [← scans_iff.mp hts] at hread'
  exact Term.ofFormula_eq_ok.mpr ⟨nodes', parseChars_eq_ok.mpr ⟨_, hread' 0, rfl⟩, hnodes'⟩

/-- A text that is a single literal. -/
theorem Formula.parse_of_token {formula : String} {t : Token} {n : Node}
    (htokens : tokens formula.toList = [t]) (hn : t.literal? = some n) :
    parse formula = .ok [n] := by
  have hsigns : signs ⟨[t], 0⟩ = (none, ⟨[t], 0⟩) := by
    refine signRun_of_avoids (fun u rest heq => ?_) none 0
    cases heq
    unfold Token.literal? at hn
    split at hn <;> simp_all [TokenKind.isSign]
  refine parseChars_eq_ok.mpr ⟨⟨[], t.span.stop⟩, ?_, rfl⟩
  rw [htokens]
  exact @Reads.expression _ none _ _ _ _ _ _ hsigns
    (.alone (.literal rfl hn (fun _ => rfl) rfl) rfl) (.restEnd rfl rfl)

/-! ## Copies -/

section

variable {formula : String} {data : Json} {r : Roll}

/-- The formula of a roll has the references of the text that the roll was read from, in
    the same order. -/
theorem Roll.references_formula (h : Roll.withData formula data = .ok r)
    (hlegible : Legible (tokens (substitute data none formula).toList)) :
    Formula.references r.formula.toList =
      Formula.references (substitute data none formula).toList := by
  obtain ⟨row, hrow, rfl⟩ := Roll.withData_eq_ok.mp h
  rw [← Term.references_ofFormula hrow]
  exact (Term.references_ofFormula (Term.ofFormula_formulaOf hrow hlegible)).symm

/-- The copy of a new roll is the roll, as long as no reference is left in the text that the
    roll was read from which the data would replace, no number in it is of 2^63 or more, and
    no number with a point is glued to what it would run together with. -/
theorem Roll.cloneUnevaluated_withData (h : Roll.withData formula data = .ok r)
    (hleft : Unreplaced data (substitute data none formula).toList)
    (hfits : ∀ t ∈ tokens (substitute data none formula).toList, t.wholeFits = true)
    (hapart : (tokens (substitute data none formula).toList).IsChain Token.Apart) :
    r.cloneUnevaluated = .ok r := by
  have hlegible := legible_tokens hfits hapart
  have hsame : Unreplaced data r.formula.toList := by
    rw [Unreplaced, Roll.references_formula h hlegible]
    exact hleft
  obtain ⟨row, hrow, rfl⟩ := Roll.withData_eq_ok.mp h
  have hsubstitute : substitute data none (Roll.formulaOf row) = Roll.formulaOf row :=
    substitute_eq_self hsame
  have hfresh : Roll.withData (Roll.formulaOf row) data = .ok { Roll.ofTerms row with data } := by
    rw [Roll.withData, hsubstitute, Term.ofFormula_formulaOf hrow hlegible]
    rfl
  exact (congrArg (· >>= _) hfresh).trans rfl

end

/-- A number is put in and another one has a point; the other reference is left in a flavor,
    since there is no value for it. -/
theorem Roll.cloneUnevaluated_withData_flavored :
    ∃ r, Roll.withData "0.5*@prof + d20[@skill]" (.obj [("prof", .int 3)]) = .ok r ∧
      r.formula = "0.5 * 3 + 1d20[@skill]" ∧ r.cloneUnevaluated = .ok r := by
  have hsubstitute : substitute (.obj [("prof", .int 3)]) none "0.5*@prof + d20[@skill]" =
      "0.5*3 + d20[@skill]" := by decide +kernel
  have htokens : tokens "0.5*3 + d20[@skill]".toList =
      [⟨.number, ['0', '.', '5'], ⟨0, 3⟩⟩, ⟨.star, ['*'], ⟨3, 4⟩⟩, ⟨.number, ['3'], ⟨4, 5⟩⟩,
        ⟨.plus, ['+'], ⟨6, 7⟩⟩, ⟨.dice, ['d', '2', '0'], ⟨8, 11⟩⟩,
        ⟨.flavor, ['[', '@', 's', 'k', 'i', 'l', 'l', ']'], ⟨11, 19⟩⟩] := rfl
  let half : Number := .ofFloat (Decimal.positional ['0'] ['5'])
  have hparse : parse "0.5*3 + d20[@skill]" = .ok [.number half, .operator .mul,
      .number (.int 3), .operator .add, .annotated (.dice 1 (.die 20) []) "@skill"] := by
    refine parseChars_eq_ok.mpr ⟨⟨[], 19⟩, ?_, rfl⟩
    rw [htokens]
    exact @Reads.expression _ none _ _ _ _ _ _ rfl (.alone (.literal rfl rfl nofun rfl) rfl)
      (@Reads.restProduct _ _ none _ _ _ _ _ _ rfl rfl rfl
        (.alone (.literal rfl rfl nofun rfl) rfl)
        (.restSum rfl (.alone (.literal rfl rfl nofun rfl) rfl) (.restEnd rfl rfl)))
  have hrow : Term.ofFormula "0.5*3 + d20[@skill]" = .ok [.numeric half {}, .operator .mul {},
      .numeric (.int 3) {}, .operator .add {},
      .dice { number := 1, denomination := .die 20, annotations := .flavored "@skill" }] :=
    Term.ofFormula_eq_ok.mpr ⟨_, hparse, rfl⟩
  have hroll := Roll.withData_eq_ok.mpr ⟨_, hsubstitute ▸ hrow, rfl⟩
  refine ⟨_, hroll, by decide +kernel, Roll.cloneUnevaluated_withData hroll ?_ ?_ ?_⟩
  · rw [hsubstitute]
    decide +kernel
  · rw [hsubstitute, htokens]
    decide +kernel
  · rw [hsubstitute, htokens]
    decide +kernel

/-- A value that is a reference itself is replaced when the roll is copied. -/
theorem Roll.cloneUnevaluated_chained :
    ∃ r copy, Roll.withData "@a" (.obj [("a", .str "@b"), ("b", .str "1")]) = .ok r ∧
      r.cloneUnevaluated = .ok copy ∧ r.formula = "@b" ∧ copy.formula = "1" := by
  have hparse : parse "@b" = .ok [.text "@b"] :=
    @parse_of_token _ ⟨.dataReference, ['@', 'b'], ⟨0, 2⟩⟩ _ rfl rfl
  have hparse' : parse "1" = .ok [.number (.int 1)] :=
    @parse_of_token _ ⟨.number, ['1'], ⟨0, 1⟩⟩ _ rfl rfl
  have hroll : Roll.withData "@a" (.obj [("a", .str "@b"), ("b", .str "1")]) =
      .ok { Roll.ofTerms [.text "@b" {} false] with
        data := .obj [("a", .str "@b"), ("b", .str "1")] } := by
    have hsubstitute : substitute (.obj [("a", .str "@b"), ("b", .str "1")]) none "@a" = "@b" := by
      decide +kernel
    exact Roll.withData_eq_ok.mpr ⟨_, hsubstitute ▸ Term.ofFormula_eq_ok.mpr ⟨_, hparse, rfl⟩, rfl⟩
  have hcopy : Roll.withData "@b" (.obj [("a", .str "@b"), ("b", .str "1")]) =
      .ok { Roll.ofTerms [.numeric (.int 1) {}] with
        data := .obj [("a", .str "@b"), ("b", .str "1")] } := by
    have hsubstitute : substitute (.obj [("a", .str "@b"), ("b", .str "1")]) none "@b" = "1" := by
      decide +kernel
    exact Roll.withData_eq_ok.mpr ⟨_, hsubstitute ▸ Term.ofFormula_eq_ok.mpr ⟨_, hparse', rfl⟩, rfl⟩
  have hformula : Roll.formulaOf [.text "@b" {} false] = "@b" := by decide +kernel
  have hclone : Roll.cloneUnevaluated { Roll.ofTerms [.text "@b" {} false] with
      data := .obj [("a", .str "@b"), ("b", .str "1")] } = .ok { Roll.ofTerms
        [.numeric (.int 1) {}] with data := .obj [("a", .str "@b"), ("b", .str "1")] } := by
    rw [← hformula] at hcopy
    exact (congrArg (· >>= _) hcopy).trans rfl
  exact ⟨_, _, hroll, hclone, hformula, by decide +kernel⟩

end DiceNotation
