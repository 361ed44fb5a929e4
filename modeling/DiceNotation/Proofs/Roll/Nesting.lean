/-
  DiceNotation.Proofs.Roll.Nesting

  How deep rolls lie inside the terms of a text.

  A roll lies inside a term only where the text that the term was read from opens a
  bracket or has a minus sign, so that the levels of the text bound how deep it lies
  (`Term.depth_classify_le`). The same levels bound those of the texts that the terms
  are written with; so the bound outlasts the joining of neighbours into one text that
  is read again (`Term.depth_le_of_mem_simplify`).
-/

import DiceNotation.Proofs.Formula.Acceptance
import DiceNotation.Proofs.Formula.Nesting
import DiceNotation.Proofs.Formula.Shape
import DiceNotation.Proofs.Roll.Simplify
import DiceNotation.Proofs.Roll.Written

namespace DiceNotation

open Formula Text

/-! ## Levels of terms -/

section

variable (opened : Bool) (t : Term) (ts us : List Term)

theorem Term.nesting_true_le : t.nesting true ≤ t.nesting opened := by
  unfold Term.nesting
  split
  · exact Nat.le_refl 0
  · split
    · exact Nat.le_refl 1
    · exact DiceNotation.nesting_true_le opened _

theorem Term.nesting_le_false : t.nesting opened ≤ t.nesting false := by
  cases opened with
  | false => exact Nat.le_refl _
  | true => exact Term.nesting_true_le false t

theorem Term.nestingOfAll_le_false : Term.nestingOfAll opened ts ≤ Term.nestingOfAll false ts := by
  cases ts with
  | nil => exact Nat.le_refl 0
  | cons t ts => exact Nat.add_le_add_right (t.nesting_le_false opened) _

theorem Term.nestingOfAll_append_le :
    Term.nestingOfAll opened (ts ++ us) ≤
      Term.nestingOfAll opened ts + Term.nestingOfAll false us := by
  induction ts generalizing opened with
  | nil =>
    rw [List.nil_append, Term.nestingOfAll, Nat.zero_add]
    exact Term.nestingOfAll_le_false opened us
  | cons t ts ih =>
    rw [List.cons_append, Term.nestingOfAll, Term.nestingOfAll, Nat.add_assoc]
    exact Nat.add_le_add_left (ih false) _

end

theorem Term.depthOfAll_append (ts us : List Term) :
    Term.depthOfAll (ts ++ us) = max (Term.depthOfAll ts) (Term.depthOfAll us) := by
  induction ts with
  | nil => rw [List.nil_append, Term.depthOfAll, Nat.zero_max]
  | cons t ts ih => rw [List.cons_append, Term.depthOfAll, Term.depthOfAll, ih, Nat.max_assoc]

theorem Term.depth_le_depthOfAll {t : Term} {ts : List Term} (h : t ∈ ts) :
    t.depth ≤ Term.depthOfAll ts := by
  induction h with
  | head => exact Nat.le_max_left _ _
  | tail _ _ ih => exact Nat.le_trans ih (Nat.le_max_right _ _)

theorem Term.depth_setAnnotations (a : Annotations) (t : Term) :
    (t.setAnnotations a).depth = t.depth := by
  cases t <;> rfl

theorem Term.fragment_setFlavor (t : Term) (flavor : Option String) :
    (t.setFlavor flavor).fragment = t.fragment := by
  cases t <;> rfl

theorem Term.nesting_setFlavor (opened : Bool) (t : Term) (flavor : Option String) :
    (t.setFlavor flavor).nesting opened = t.nesting opened := by
  rw [Term.nesting, Term.operator?_setFlavor, Term.fragment_setFlavor]
  cases t <;> rfl

/-! ## Levels of rows -/

/-- A row at the very start of a text has the levels that it has behind other terms, but for
    a minus sign at its beginning. -/
theorem nesting_rowChars (row : List Term) :
    nesting false (Term.rowChars row) = nesting false (Roll.formulaOf row).toList := by
  cases row with
  | nil => rfl
  | cons t row =>
    cases t with
    | operator op a =>
      rw [Roll.toList_formulaOf_operator, Term.rowChars_operator,
        nesting_cons_of_not_level rfl]
      cases op with
      | sub => rw [show Operator.sub.sign = '-' from rfl, nesting_minus, nesting_minus,
          nesting_cons_of_not_level rfl]
      | add | mul | div | rem =>
        rw [nesting_cons_of_not_level rfl, nesting_cons_of_not_level rfl,
          nesting_cons_of_not_level rfl]
    | _ => rw [Roll.toList_formulaOf_operand rfl, Term.rowChars_operand rfl]

theorem nesting_formulaOf_append_le (opened : Bool) (ts us : List Term) :
    nesting opened (Roll.formulaOf (ts ++ us)).toList ≤
      nesting opened (Roll.formulaOf ts).toList + nesting false (Roll.formulaOf us).toList := by
  by_cases hne : ts = []
  · rw [hne, List.nil_append]
    exact Nat.le_trans (nesting_le_false opened _) (Nat.le_add_left _ _)
  · rw [Roll.toList_formulaOf_append hne, ← nesting_rowChars]
    exact nesting_append_le opened _ _

/-- A row of terms, what it is written with and the rolls inside it are within bounds;
    the bound depends on whether an opening parenthesis stands before the row. -/
structure TermsNest (row : List Term) (k : Bool → Nat) : Prop where
  text : ∀ opened, nesting opened (Roll.formulaOf row).toList ≤ k opened
  terms : ∀ opened, Term.nestingOfAll opened row ≤ k opened
  depth : Term.depthOfAll row ≤ k true

section

variable {ts us : List Term} {k k' : Bool → Nat} {m : Nat}

theorem TermsNest.mono (h : TermsNest ts k) (hk : ∀ opened, k opened ≤ k' opened) :
    TermsNest ts k' where
  text opened := Nat.le_trans (h.text opened) (hk opened)
  terms opened := Nat.le_trans (h.terms opened) (hk opened)
  depth := Nat.le_trans h.depth (hk true)

theorem TermsNest.nil : TermsNest [] k :=
  ⟨fun _ => Nat.zero_le _, fun _ => Nat.zero_le _, Nat.zero_le _⟩

theorem TermsNest.append (hts : TermsNest ts k) (hus : TermsNest us fun _ => m) :
    TermsNest (ts ++ us) fun opened => k opened + m where
  text opened := Nat.le_trans (nesting_formulaOf_append_le opened ts us)
    (Nat.add_le_add (hts.text opened) (hus.text false))
  terms opened := Nat.le_trans (Term.nestingOfAll_append_le opened ts us)
    (Nat.add_le_add (hts.terms opened) (hus.terms false))
  depth := by
    have hts := hts.depth
    have hus := hus.depth
    rw [Term.depthOfAll_append]
    omega

/-- A term alone is within a bound that holds of all there is of it. -/
theorem TermsNest.one {t : Term} (htext : ∀ opened, nesting opened t.formula.toList ≤ m)
    (ht : t.operator? = none) (hterm : ∀ opened, t.nesting opened ≤ m) (hdepth : t.depth ≤ m) :
    TermsNest [t] fun _ => m where
  text opened := by
    rw [Roll.toList_formulaOf_operand ht, Term.rowChars_nil, List.append_nil]
    exact htext opened
  terms := hterm
  depth := Nat.max_le.mpr ⟨hdepth, Nat.zero_le _⟩

theorem TermsNest.depth_ofTerms (h : TermsNest ts k) : (Roll.ofTerms ts).depth ≤ k true + 1 :=
  Nat.succ_le_succ (Nat.max_le.mpr ⟨h.depth, h.terms true⟩)

theorem TermsNest.operator (op : Operator) (a : Annotations) :
    TermsNest [.operator op a] fun opened => nesting opened [op.sign] where
  text opened := by rw [Roll.toList_formulaOf_operator, Term.rowChars_nil]
  terms _ := Nat.zero_le _
  depth := Nat.zero_le _

/-- A number brings a level only if a minus sign counts where it stands. -/
theorem TermsNest.numeric (value : Number) :
    TermsNest [.numeric value {}] fun opened => if value.isNegative && !opened then 1 else 0 := by
  have htext : value.text.toList = value.chars := String.toList_ofList
  refine ⟨fun opened => ?_, fun opened => ?_, Nat.zero_le _⟩
  · rw [Roll.toList_formulaOf_operand rfl, Term.rowChars_nil, List.append_nil]
    show nesting opened value.text.toList ≤ _
    rw [htext]
    exact value.nesting_chars_le opened
  · show nesting opened value.text.toList + 0 ≤ _
    rw [htext]
    exact value.nesting_chars_le opened

/-- A roll in parentheses brings a level more. -/
theorem TermsNest.parenthetical {roll : Roll} (htext : nesting true roll.formula.toList ≤ m)
    (hdepth : roll.depth ≤ m + 1) :
    TermsNest [.parenthetical roll.formula roll {}] fun _ => 1 + m := by
  refine .one (fun opened => ?_) rfl (fun _ => Nat.le_add_right 1 m) ?_
  · show nesting opened ("(" ++ roll.formula ++ ")").toList ≤ 1 + m
    rw [String.toList_append, String.toList_append, List.append_assoc]
    show nesting opened ('(' :: (roll.formula.toList ++ [')'])) ≤ 1 + m
    rw [nesting_paren, nesting_append]
    exact Nat.add_le_add_left htext 1
  · rw [Nat.add_comm]
    exact hdepth

/-- A flavor brings the levels of its own text. -/
theorem TermsNest.setFlavor {t : Term} (h : TermsNest [t] fun _ => m)
    (ht : t.operator? = none) (hflavor : t.annotations.flavor = none) (flavor : String) :
    TermsNest [t.setFlavor (some flavor)] fun _ => m + nesting false flavor.toList := by
  refine .one (fun opened => ?_) ((Term.operator?_setFlavor t _).trans ht) (fun opened => ?_) ?_
  · have htext := h.text opened
    rw [Roll.toList_formulaOf_operand ht, Term.rowChars_nil, List.append_nil] at htext
    rw [Term.formula_setFlavor ht hflavor, nesting_append]
    refine Nat.add_le_add htext ?_
    rw [List.cons_append, nesting_cons_of_not_level rfl, nesting_append]
    exact Nat.le_of_eq (Nat.add_zero _)
  · rw [Term.nesting_setFlavor]
    exact Nat.le_trans (h.terms opened) (Nat.le_add_right _ _)
  · have hdepth : (t.setFlavor (some flavor)).depth = t.depth := Term.depth_setAnnotations _ t
    rw [hdepth]
    exact Nat.le_trans (Nat.le_trans (Nat.le_max_left _ _) h.depth) (Nat.le_add_right _ _)

end

namespace Formula

/-! ## Levels of nodes -/

/-- The terms of a node are within a bound; behind other terms no parenthesis is open. -/
def Node.Nests (n : Node) (k : Bool → Nat) : Prop :=
  ∀ first row, Term.ofNode first n = .ok row → TermsNest row fun opened => k (first && opened)

/-- The terms of nodes in a row are within a bound. -/
def RowNests (ns : List Node) (k : Bool → Nat) : Prop :=
  ∀ first row, Term.ofRow first ns = .ok row → TermsNest row fun opened => k (first && opened)

/-- The roll of a formula within a formula and its text are within a bound. -/
def SubFormula.Nests (s : SubFormula) (k : Bool → Nat) : Prop :=
  ∀ roll, Roll.ofSub s = .ok roll →
    (∀ opened, nesting opened roll.formula.toList ≤ k opened) ∧ roll.depth ≤ k true + 1

/-- The rolls of formulas in a row and their texts are within a bound. -/
def RollsNest (subs : List SubFormula) (k : Bool → Nat) : Prop :=
  ∀ rolls, Roll.ofSubs subs = .ok rolls →
    (∀ opened, nesting opened
      (String.intercalate ", " (rolls.map (·.formula))).toList ≤ k opened) ∧
    Roll.depthOfAll rolls ≤ k true + 1

/-- A node becomes a single operand without a flavor, which is within a bound. -/
def Node.NestsBare (n : Node) (m : Nat) : Prop :=
  ∀ first row, Term.ofNode first n = .ok row →
    ∃ t, row = [t] ∧ t.operator? = none ∧ t.annotations.flavor = none ∧
      TermsNest [t] fun _ => m

/-- What separates texts brings no level. -/
theorem nesting_intercalate_cons_le {separator : String}
    (hseparator : separator.toList.all fun c => !isLevel c) (opened : Bool) (text : String)
    (more : List String) :
    nesting opened (String.intercalate separator (text :: more)).toList ≤
      nesting opened text.toList + nesting false (String.intercalate separator more).toList := by
  cases more with
  | nil =>
    rw [String.intercalate_singleton]
    exact Nat.le_add_right _ _
  | cons text' more =>
    rw [String.intercalate_cons_cons, String.toList_append, String.toList_append]
    have hzero : nesting false separator.toList = 0 :=
      nesting_eq_zero fun c hc => by simpa using List.all_eq_true.mp hseparator c hc
    have hle := nesting_append_le opened text.toList separator.toList
    rw [hzero, Nat.add_zero] at hle
    exact Nat.le_trans (nesting_append_le opened _ _) (Nat.add_le_add_right hle _)

section

variable {n : Node} {ns : List Node} {s : SubFormula} {subs : List SubFormula}
  {k k' : Bool → Nat} {m : Nat}

theorem Node.Nests.mono (h : n.Nests k) (hk : ∀ opened, k opened ≤ k' opened) : n.Nests k' :=
  fun first row hrow => (h first row hrow).mono fun opened => hk (first && opened)

theorem RowNests.mono (h : RowNests ns k) (hk : ∀ opened, k opened ≤ k' opened) :
    RowNests ns k' :=
  fun first row hrow => (h first row hrow).mono fun opened => hk (first && opened)

theorem RollsNest.mono (h : RollsNest subs k) (hk : ∀ opened, k opened ≤ k' opened) :
    RollsNest subs k' := fun rolls hrolls =>
  ⟨fun opened => Nat.le_trans ((h rolls hrolls).1 opened) (hk opened),
    Nat.le_trans (h rolls hrolls).2 (Nat.succ_le_succ (hk true))⟩

theorem RowNests.nil : RowNests [] k := by
  intro first row h
  cases h
  exact .nil

theorem RowNests.cons (hn : n.Nests k) (hns : RowNests ns fun _ => m) :
    RowNests (n :: ns) fun opened => k opened + m := by
  intro first row h
  rw [Term.ofRow_cons] at h
  obtain ⟨terms, hterms, h⟩ := bind_eq_ok.mp h
  obtain ⟨more, hmore, heq⟩ := bind_eq_ok.mp h
  cases heq
  exact (hn _ _ hterms).append (hns _ _ hmore)

/-- Formulas behind a comma are behind no open parenthesis. -/
theorem RollsNest.cons (hs : s.Nests k) (hsubs : RollsNest subs fun _ => m) :
    RollsNest (s :: subs) fun opened => k opened + m := by
  intro rolls h
  rw [Roll.ofSubs] at h
  obtain ⟨roll, hroll, h⟩ := bind_eq_ok.mp h
  obtain ⟨more, hmore, heq⟩ := bind_eq_ok.mp h
  cases heq
  obtain ⟨htext, hdepth⟩ := hs roll hroll
  obtain ⟨hmoreText, hmoreDepth⟩ := hsubs more hmore
  refine ⟨fun opened => ?_, ?_⟩
  · exact Nat.le_trans (nesting_intercalate_cons_le rfl opened _ _)
      (Nat.add_le_add (htext opened) (hmoreText false))
  · rw [Roll.depthOfAll]
    dsimp only at hmoreDepth ⊢
    omega

theorem RollsNest.nil : RollsNest [] k := by
  intro rolls h
  cases h
  exact ⟨fun _ => Nat.zero_le _, Nat.zero_le _⟩

theorem Node.Nests.operator (op : Operator) :
    (Node.operator op).Nests fun _ => nesting false [op.sign] := by
  intro first row h
  rw [Term.ofNode] at h
  cases h
  exact (TermsNest.operator op {}).mono fun opened => nesting_le_false opened _

/-- A minus sign brings a level, except at the very start: there it stands before the operand,
    and elsewhere it stands in parentheses together with it. -/
theorem Node.Nests.negation (h : n.Nests fun _ => m) :
    n.negation.Nests fun opened => (if opened then 0 else 1) + m := by
  intro first row hrow
  obtain ⟨value, rfl, hvalue⟩ | hnode := Node.ofNode_negation first n
  · rw [hvalue] at hrow
    cases hrow
    refine (TermsNest.numeric value.neg).mono fun opened => ?_
    cases value.neg.isNegative <;> cases first <;> cases opened <;> simp
  · rw [hnode] at hrow
    obtain ⟨terms, hterms, heq⟩ := bind_eq_ok.mp hrow
    have hnegated : TermsNest (Term.minus :: terms) fun opened => nesting opened ['-'] + m :=
      (TermsNest.operator .sub {}).append (h _ _ hterms)
    cases first with
    | true =>
      cases heq
      refine hnegated.mono fun opened => Nat.le_of_eq ?_
      rw [nesting_minus]
      rfl
    | false =>
      cases heq
      have hzero : nesting true ['-'] + m = m := Nat.zero_add m
      have htext := hnegated.text true
      have hdepth := hnegated.depth_ofTerms
      rw [hzero] at htext hdepth
      exact .parenthetical htext hdepth

/-- An operand with as many minus signs before it as its signs come to. -/
theorem Node.Nests.behind {ss : List Token} (h : n.Nests fun _ => m) (hsigns : AreSigns ss)
    (hlexed : ∀ t ∈ ss, t.Lexed) :
    (n.behind ss).Nests fun opened => nesting opened (tokenChars ss) + m := by
  unfold Node.behind
  split
  · next hodd =>
    refine h.negation.mono fun opened => Nat.add_le_add_right ?_ m
    cases opened with
    | true => exact Nat.zero_le _
    | false =>
      have hle := countP_minus_le hsigns hlexed
      rw [if_neg Bool.false_ne_true]
      omega
  · exact h.mono fun opened => Nat.le_add_left _ _

theorem Node.Nests.ofParts {more : List Node} (hn : n.Nests k) (hmore : RowNests more fun _ => m) :
    (Node.ofParts n more).Nests fun opened => k opened + m := by
  cases more with
  | nil => exact hn.mono fun opened => Nat.le_add_right _ _
  | cons part more =>
    intro first row h
    rw [Node.ofParts, if_neg (by simp), Term.ofNode] at h
    exact RowNests.cons hn hmore first row h

/-- The texts of flavors have no more levels than the flavors. -/
theorem nesting_flavors_le {fs : List Token} (hfs : AreFlavors fs) (hlexed : ∀ t ∈ fs, t.Lexed) :
    nesting false (String.intercalate " " (fs.map flavorText)).toList ≤
      nesting true (tokenChars fs) := by
  induction fs with
  | nil => exact Nat.le_refl 0
  | cons f fs ih =>
    obtain ⟨hf, hmore⟩ := List.forall_mem_cons.mp hfs
    obtain ⟨hl, hlmore⟩ := List.forall_mem_cons.mp hlexed
    obtain ⟨r, hlongest⟩ := hl
    rw [hf] at hlongest
    obtain ⟨inner, htext, -⟩ := flavor_parts hlongest
    have hinner : (flavorText f).toList = inner := by simp [flavorText, htext]
    have hlevels : nesting true f.text = nesting false inner := by
      rw [htext, List.cons_append, nesting_cons_of_not_level rfl, nesting_append]
      exact Nat.add_zero _
    rw [List.map_cons, tokenChars_cons]
    calc nesting false (String.intercalate " " (flavorText f :: fs.map flavorText)).toList
        ≤ nesting false inner +
            nesting false (String.intercalate " " (fs.map flavorText)).toList := by
          rw [← hinner]
          exact nesting_intercalate_cons_le rfl false _ _
      _ ≤ nesting true f.text + nesting true (tokenChars fs) :=
          Nat.add_le_add (Nat.le_of_eq hlevels.symm) (ih hmore hlmore)
      _ ≤ nesting true (f.text ++ tokenChars fs) := le_nesting_append true _ _

theorem Node.NestsBare.flavored (h : n.NestsBare m) {fs : List Token} (hfs : AreFlavors fs)
    (hlexed : ∀ t ∈ fs, t.Lexed) :
    (n.flavored fs).Nests fun _ => m + nesting true (tokenChars fs) := by
  intro first row hrow
  cases fs with
  | nil =>
    obtain ⟨t, rfl, -, -, hnests⟩ := h first row hrow
    exact hnests
  | cons f fs =>
    rw [Node.flavored, if_neg (by simp), Term.ofNode] at hrow
    obtain ⟨terms, hterms, heq⟩ := bind_eq_ok.mp hrow
    obtain ⟨t, rfl, ht, hnone, hnests⟩ := h first terms hterms
    cases heq
    exact (hnests.setFlavor ht hnone _).mono fun _ =>
      Nat.add_le_add_left (nesting_flavors_le hfs hlexed) m

theorem Node.NestsBare.parenthetical (h : s.Nests k) :
    (Node.parenthetical s).NestsBare (1 + k true) := by
  intro first row hrow
  rw [Term.ofNode] at hrow
  obtain ⟨roll, hroll, heq⟩ := bind_eq_ok.mp hrow
  cases heq
  obtain ⟨htext, hdepth⟩ := h roll hroll
  exact ⟨_, rfl, rfl, rfl, .parenthetical (htext true) hdepth⟩

/-- The arguments of a function stand behind an opening parenthesis. -/
theorem Node.NestsBare.function {name : List Char} (h : RollsNest subs k)
    (hname : ∀ c ∈ name, isLevel c = false) :
    (Node.function (String.ofList name) subs).NestsBare (1 + k true) := by
  intro first row hrow
  rw [Term.ofNode] at hrow
  obtain ⟨rolls, hrolls, heq⟩ := bind_eq_ok.mp hrow
  cases heq
  obtain ⟨htext, hdepth⟩ := h rolls hrolls
  refine ⟨_, rfl, rfl, rfl, .one (fun opened => ?_) rfl (fun _ => Nat.le_add_right 1 _) ?_⟩
  · show nesting opened (String.ofList name ++ "(" ++
      String.intercalate ", " (rolls.map (·.formula)) ++ ")").toList ≤ 1 + k true
    have hopen : "(".toList = ['('] := rfl
    have hclose : ")".toList = [')'] := rfl
    simp only [String.toList_append, String.toList_ofList, hopen, hclose, List.append_assoc,
      List.cons_append, List.nil_append]
    rw [nesting_append, nesting_eq_zero hname, Nat.zero_add, nesting_paren, nesting_append,
      nesting_cons_of_not_level rfl]
    exact Nat.add_le_add_left (htext true) 1
  · rw [Nat.add_comm]
    exact hdepth

/-- The items of a pool stand behind a brace. -/
theorem Node.NestsBare.pool {ms : List Modifier} (h : RollsNest subs fun _ => m)
    (hms : ∀ c ∈ (modifiersText ms).toList, isLevel c = false) :
    (Node.pool subs ms).NestsBare (1 + m) := by
  intro first row hrow
  rw [Term.ofNode] at hrow
  obtain ⟨rolls, hrolls, heq⟩ := bind_eq_ok.mp hrow
  cases heq
  obtain ⟨htext, hdepth⟩ := h rolls hrolls
  have hformula : ∀ opened, nesting opened ("\x7b" ++
      String.intercalate ", " (rolls.map (·.formula)) ++ "\x7d" ++ modifiersText ms).toList ≤
        1 + m := by
    intro opened
    have hopen : "\x7b".toList = ['\x7b'] := rfl
    have hclose : "\x7d".toList = ['\x7d'] := rfl
    simp only [String.toList_append, hopen, hclose, List.append_assoc, List.cons_append,
      List.nil_append]
    rw [nesting_brace, nesting_append, nesting_cons_of_not_level rfl, nesting_eq_zero hms]
    refine Nat.add_le_add_left ?_ 1
    exact htext false
  refine ⟨_, rfl, rfl, rfl, .one hformula rfl (fun opened => ?_) ?_⟩
  · exact hformula opened
  · rw [Nat.add_comm]
    exact hdepth

theorem Node.NestsBare.text {cs : List Char} (hcs : cs.head? ≠ some '-') :
    (Node.text (String.ofList cs)).NestsBare (nesting true cs) := by
  intro first row hrow
  rw [Term.ofNode] at hrow
  cases hrow
  have hle : ∀ opened, nesting opened (String.ofList cs).toList ≤ nesting true cs := by
    intro opened
    rw [String.toList_ofList, nesting_eq_of_head hcs]
    exact Nat.le_of_eq (nesting_eq_of_head hcs).symm
  exact ⟨_, rfl, rfl, rfl, .one hle rfl hle (Nat.zero_le _)⟩

/-- A number literal has no minus sign. -/
theorem IsNumber.isNegative {text : List Char} {value : Number} (h : IsNumber text value) :
    value.isNegative = false := by
  cases h with
  | whole hne hdigits hle =>
    exact decide_eq_false (Int.not_lt.mpr (Int.natCast_nonneg (digitsValue text)))
  | decimal hwhole => exact Number.isNegative_ofFloat (Decimal.isNegative_positional _ _)

theorem isLevel_of_isDigit {c : Char} (hc : c.isDigit = true) : isLevel c = false := by
  rw [isLevel, beq_false_of_ne (ne_of_isDigit hc rfl), beq_false_of_ne (ne_of_isDigit hc rfl),
    beq_false_of_ne (ne_of_isDigit hc rfl)]
  rfl

/-- Dice are written without brackets and minus signs. -/
theorem Node.NestsBare.dice {ms : List Modifier} (number : Nat) (d : Denomination)
    (hms : ∀ c ∈ (modifiersText ms).toList, isLevel c = false) :
    (Node.dice number d ms).NestsBare m := by
  intro first row hrow
  rw [Term.ofNode] at hrow
  cases hrow
  have hdigits : ∀ n, ∀ c ∈ natChars n, isLevel c = false :=
    fun n c hc => isLevel_of_isDigit (isDigit_of_mem_natChars hc)
  have hfaces : ∀ c ∈ d.text.toList, isLevel c = false := by
    rw [toList_text, List.forall_mem_cons]
    cases d with
    | die n => exact ⟨rfl, hdigits n⟩
    | coin | fate => exact ⟨rfl, List.forall_mem_singleton.mpr rfl⟩
  have hformula : ∀ opened,
      nesting opened (natText number ++ d.text ++ modifiersText ms).toList ≤ m := by
    intro opened
    rw [nesting_eq_zero]
    · exact Nat.zero_le m
    · simp only [String.toList_append, List.forall_mem_append, natText, String.toList_ofList]
      exact ⟨⟨hdigits number, hfaces⟩, hms⟩
  exact ⟨_, rfl, rfl, rfl, .one hformula rfl hformula (Nat.zero_le m)⟩

/-- An atom by itself has the levels of its token. -/
theorem IsLiteral.nestsBare {t : Token} (h : IsLiteral t n) (hlexed : t.Lexed) :
    n.NestsBare (nesting true t.text) := by
  cases h with
  | @number text span value hvalue =>
    intro first row hrow
    rw [Term.ofNode] at hrow
    cases hrow
    refine ⟨_, rfl, rfl, rfl, (TermsNest.numeric value).mono fun opened => ?_⟩
    rw [hvalue.isNegative]
    exact Nat.zero_le _
  | dice hcount hletter hfaces hms =>
    refine .dice _ _ fun c hc => hlexed.isLevel_eq_false rfl nofun c ?_
    rw [Modifier.modifiersText_of_ofSuffix hms] at hc
    simp [hc]
  | fragment hkind =>
    refine .text (hlexed.head?_ne ?_)
    rcases hkind with hkind | hkind | hkind <;> rw [hkind] <;> nofun

end

/-! ## Levels of pieces -/

/-- The terms of a piece are within the levels of its tokens. -/
def Piece.Nests (ts : List Token) : Piece → Prop
  | .expression nodes => RowNests nodes fun opened => nesting opened (tokenChars ts)
  | .rest nodes | .glue _ nodes => RowNests nodes fun _ => nesting false (tokenChars ts)
  | .operand n | .atom n => n.Nests fun _ => nesting true (tokenChars ts)
  | .list subs => RollsNest subs fun opened => nesting opened (tokenChars ts)
  | .sub s => s.Nests fun opened => nesting opened (tokenChars ts)

/-- Signs have at least the levels of the operator that they come to. -/
theorem nesting_signOf_le {ss : List Token} {op : Operator} (hsigns : AreSigns ss)
    (hlexed : ∀ t ∈ ss, t.Lexed) (hop : signOf ss = some op) :
    nesting false [op.sign] ≤ nesting false (tokenChars ss) := by
  have hle := countP_minus_le hsigns hlexed
  unfold signOf at hop
  split at hop
  · cases hop
  · cases hop
    unfold signOfCount
    split
    · refine Nat.le_trans ?_ hle
      show 1 ≤ _
      omega
    · exact Nat.zero_le _

theorem nesting_of_product {kind : TokenKind} {op : Operator} (h : kind.product? = some op) :
    nesting false [op.sign] = 0 := by
  cases kind <;> cases h <;> rfl

/-- The terms of a piece are within the levels of its tokens. -/
theorem Derives.nests {source : List Char} {greedy : Bool} {piece : Piece} {p : Nat}
    {ts : List Token} (h : Derives source greedy piece p ts) (hlexed : ∀ t ∈ ts, t.Lexed) :
    piece.Nests ts := by
  induction h with
  | expression hsigns hn hns ihn ihns =>
    rw [List.append_assoc, List.forall_mem_append, List.forall_mem_append] at hlexed
    obtain ⟨hss, hts, hus⟩ := hlexed
    exact (RowNests.cons ((ihn hts).behind hsigns hss) (ihns hus)).mono fun opened =>
      le_nesting_operand (hn.closes hts _)
  | restSum hsigns hop hn hns ihn ihns =>
    rw [List.append_assoc, List.forall_mem_append, List.forall_mem_append] at hlexed
    obtain ⟨hss, hts, hus⟩ := hlexed
    simp only [Piece.Nests] at ihn ihns ⊢
    refine (RowNests.cons (.operator _) (RowNests.cons (ihn hts) (ihns hus))).mono fun _ => ?_
    rw [← Nat.add_assoc]
    refine Nat.le_trans ?_ (le_nesting_operand (hn.closes hts _))
    exact Nat.add_le_add_right (Nat.add_le_add_right (nesting_signOf_le hsigns hss hop) _) _
  | restProduct hop hsigns hn hns ihn ihns =>
    rw [List.append_assoc, List.forall_mem_cons, List.forall_mem_append,
      List.forall_mem_append] at hlexed
    obtain ⟨ht, hss, hts, hus⟩ := hlexed
    simp only [Piece.Nests] at ihn ihns ⊢
    have hoperand : (Node.behind _ _).Nests fun _ => _ :=
      ((ihn hts).behind hsigns hss).mono fun opened =>
        Nat.add_le_add_right (nesting_le_false opened _) _
    refine (RowNests.cons (.operator _) (RowNests.cons hoperand (ihns hus))).mono fun _ => ?_
    rw [nesting_of_product hop, Nat.zero_add, tokenChars_cons, nesting_append,
      ht.opens_eq_false (.inl (TokenKind.opens_of_product hop))]
    exact Nat.le_trans (le_nesting_operand (hn.closes hts _)) (Nat.le_add_left _ _)
  | restEnd =>
    simp only [Piece.Nests]
    exact RowNests.nil
  | operand hfirst hmore hcall ihfirst ihmore =>
    rw [List.forall_mem_append] at hlexed
    obtain ⟨hts, hus⟩ := hlexed
    simp only [Piece.Nests] at ihfirst ihmore ⊢
    refine ((ihfirst hts).ofParts (ihmore hus)).mono fun _ => ?_
    rw [tokenChars_append, nesting_append, hfirst.closes hts]
  | fragment hadjacent hkind hfs hmore ihmore =>
    rw [List.forall_mem_cons, List.forall_mem_append] at hlexed
    obtain ⟨ht, hflavors, hus⟩ := hlexed
    simp only [Piece.Nests] at ihmore ⊢
    have hfragment := (Node.NestsBare.text (ht.head?_ne (TokenKind.ne_minus hkind))).flavored hfs hflavors
    refine (RowNests.cons hfragment (ihmore hus)).mono fun _ => ?_
    rw [← List.cons_append, tokenChars_append, nesting_append,
      opens_closed ht (TokenKind.opens_of_isFragment hkind) hfs hflavors, tokenChars_cons]
    refine Nat.add_le_add_right (Nat.le_trans ?_ (nesting_true_le false _)) _
    exact le_nesting_append true _ _
  | behindText hadjacent hkind hpart hmore ihpart ihmore =>
    rw [List.forall_mem_append] at hlexed
    obtain ⟨hts, hus⟩ := hlexed
    simp only [Piece.Nests] at ihpart ihmore ⊢
    refine (RowNests.cons (ihpart hts) (ihmore hus)).mono fun _ => ?_
    rw [tokenChars_append, nesting_append, hpart.closes hts]
    exact Nat.add_le_add_right (nesting_true_le _ _) _
  | glueEnd =>
    simp only [Piece.Nests]
    exact RowNests.nil
  | literal hn hfs =>
    rw [List.forall_mem_cons] at hlexed
    simp only [Piece.Nests]
    refine ((hn.nestsBare hlexed.1).flavored hfs hlexed.2).mono fun _ => ?_
    rw [tokenChars_cons]
    exact le_nesting_append true _ _
  | @callEmpty t o c fs p hname hopen hadjacent hclose hfs =>
    simp only [List.forall_mem_cons] at hlexed
    obtain ⟨ht, ho, hc, hflavors⟩ := hlexed
    simp only [Piece.Nests]
    have hcall := (Node.NestsBare.function (k := fun _ => 0) RollsNest.nil
      (ht.isLevel_eq_false (by rw [hname]; rfl) (by rw [hname]; nofun))).flavored hfs hflavors
    refine hcall.mono fun _ => ?_
    rw [tokenChars_cons, nesting_append]
    exact Nat.le_trans (@le_nesting_group _ _ c [] _ ho hopen) (Nat.le_add_left _ _)
  | call hname hopen hadjacent hlist hclose hfs ihlist =>
    rw [List.forall_mem_cons, List.forall_mem_cons, List.forall_mem_append,
      List.forall_mem_cons] at hlexed
    obtain ⟨ht, ho, hts, hc, hflavors⟩ := hlexed
    simp only [Piece.Nests] at ihlist ⊢
    have hcall := (Node.NestsBare.function (ihlist hts)
      (ht.isLevel_eq_false (by rw [hname]; rfl) (by rw [hname]; nofun))).flavored hfs hflavors
    refine hcall.mono fun _ => ?_
    rw [tokenChars_cons, nesting_append]
    exact Nat.le_trans (le_nesting_group ho hopen) (Nat.le_add_left _ _)
  | group hopen hinner hclose hfs ihinner =>
    rw [List.forall_mem_cons, List.forall_mem_append, List.forall_mem_cons] at hlexed
    obtain ⟨ho, hts, hc, hflavors⟩ := hlexed
    simp only [Piece.Nests] at ihinner ⊢
    exact ((Node.NestsBare.parenthetical (ihinner hts)).flavored hfs hflavors).mono fun _ =>
      le_nesting_group ho hopen
  | pool hopen hlist hclose hms hfs ihlist =>
    rw [List.forall_mem_cons, List.forall_mem_append, List.forall_mem_cons] at hlexed
    obtain ⟨ho, hts, hc, hflavors⟩ := hlexed
    simp only [Piece.Nests] at ihlist ⊢
    have hitems := (ihlist hts).mono fun opened => nesting_le_false opened _
    have hplain : ∀ c ∈ (modifiersText _).toList, isLevel c = false := fun x hx => by
      rw [Modifier.modifiersText_of_ofSuffix hms] at hx
      exact hc.isLevel_eq_false (by rw [hclose]; rfl) (by rw [hclose]; nofun) x
        (List.mem_of_mem_drop hx)
    exact ((Node.NestsBare.pool hitems hplain).flavored hfs hflavors).mono fun _ =>
      le_nesting_pool ho hopen
  | listLast hs ihs =>
    simp only [Piece.Nests] at ihs ⊢
    exact RollsNest.cons (ihs hlexed) (RollsNest.nil (k := fun _ => 0))
  | listMore hs hcomma hmore ihs ihmore =>
    rw [List.forall_mem_append, List.forall_mem_cons] at hlexed
    obtain ⟨hts, hc, hus⟩ := hlexed
    simp only [Piece.Nests] at ihs ihmore ⊢
    have hbehind := (ihmore hus).mono fun opened => nesting_le_false opened _
    refine (RollsNest.cons (ihs hts) hbehind).mono fun opened => ?_
    rw [tokenChars_append, tokenChars_cons, nesting_append, hc.text_eq (by rw [hcomma]; rfl),
      List.singleton_append, nesting_cons_of_not_level rfl]
  | sub hnodes ihnodes =>
    intro roll hroll
    rw [Roll.ofSub] at hroll
    obtain ⟨-, -, h⟩ := bind_eq_ok.mp hroll
    obtain ⟨terms, hterms, heq⟩ := bind_eq_ok.mp h
    cases heq
    have hnests := ihnodes hlexed true terms hterms
    exact ⟨hnests.text, hnests.depth_ofTerms⟩

end Formula

/-! ## Fragments of text -/

/-- The terms of a formula are within the levels of the formula. -/
theorem Term.nests_ofFormula {formula : String} {row : List Term}
    (h : Term.ofFormula formula = .ok row) :
    TermsNest row fun opened => DiceNotation.nesting opened formula.toList := by
  obtain ⟨nodes, hnodes, hrow⟩ := Term.ofFormula_eq_ok.mp h
  obtain ⟨c, hread, hc⟩ := parseChars_eq_ok.mp hnodes
  have hscans : Scans 0 formula.toList (tokens formula.toList) := scans_iff.mpr rfl
  have hnests := (derives_of_reads hread hc).nests (lexed_tokens _)
  exact (hnests true row hrow).mono hscans.nesting_le

/-- A fragment becomes a term that is no deeper than the levels of the fragment. -/
theorem Term.depth_classify_le (content : String) :
    (Term.classify content).depth ≤ DiceNotation.nesting true content.toList := by
  unfold Term.classify
  split
  · next t hformula =>
    split
    · exact Nat.zero_le _
    · exact Nat.le_trans (Nat.le_max_left _ _) (Term.nests_ofFormula hformula).depth
  · exact Nat.zero_le _

theorem Term.depth_reclassify_le (t : Term) :
    t.reclassify.depth ≤ max t.depth (t.nesting true) := by
  cases t with
  | text content a evaluated =>
    have hdepth : (Term.text content a evaluated).reclassify.depth = (classify content).depth :=
      Term.depth_setAnnotations _ _
    rw [hdepth]
    exact Nat.le_trans (Term.depth_classify_le content) (Nat.le_max_right _ _)
  | _ => exact Nat.le_max_left _ _

/-! ## Joined rows -/

/-- Two neighbours that are joined have the levels of both. -/
theorem Term.nesting_join_le {t u : Term} (h : t.joins u = true) (ht : t.isIntermediate = false)
    (hu : u.isIntermediate = false) :
    (t.join u).nesting true ≤ t.nesting true + u.nesting false := by
  simp only [Term.joins, Bool.and_eq_true, Option.isNone_iff_eq_none] at h
  obtain ⟨⟨htop, huop⟩, -⟩ := h
  have hjoined : (t.join u).nesting true =
      DiceNotation.nesting true (t.fragment ++ u.fragment).toList := rfl
  rw [hjoined, String.toList_append, Term.nesting, Term.nesting, htop, huop, ht, hu]
  exact nesting_append_le true _ _

/-- A joined row is no deeper and has no more levels. -/
theorem Term.nesting_of_mem_joinFrom {t u : Term} {ts : List Term}
    (hrow : ∀ v ∈ t :: ts, v.isIntermediate = false) (h : u ∈ joinFrom t ts) :
    u.depth ≤ max t.depth (Term.depthOfAll ts) ∧
      u.nesting true ≤ t.nesting true + Term.nestingOfAll false ts := by
  induction ts generalizing t with
  | nil =>
    obtain rfl := List.mem_singleton.mp h
    exact ⟨Nat.le_max_left _ _, Nat.le_refl _⟩
  | cons next rest ih =>
    obtain ⟨ht, hrest⟩ := List.forall_mem_cons.mp hrow
    obtain ⟨hnext, hmore⟩ := List.forall_mem_cons.mp hrest
    rw [Term.depthOfAll, Term.nestingOfAll]
    unfold joinFrom at h
    split at h
    · next hjoins =>
      have hle := Term.nesting_join_le hjoins ht hnext
      have hdepth : (t.join next).depth = 0 := rfl
      obtain ⟨hu, hnesting⟩ := ih (List.forall_mem_cons.mpr ⟨rfl, hmore⟩) h
      omega
    · have hle := next.nesting_true_le false
      obtain rfl | h := List.mem_cons.mp h
      · exact ⟨Nat.le_max_left _ _, Nat.le_add_right _ _⟩
      · obtain ⟨hu, hnesting⟩ := ih hrest h
        omega

theorem Term.nesting_of_mem_joinAll {u : Term} {ts : List Term}
    (hrow : ∀ v ∈ ts, v.isIntermediate = false) (h : u ∈ joinAll ts) :
    u.depth ≤ Term.depthOfAll ts ∧ u.nesting true ≤ Term.nestingOfAll true ts := by
  cases ts with
  | nil => cases h
  | cons t rest => exact Term.nesting_of_mem_joinFrom hrow h

/-- Simplifying reads no term that is deeper than the row or the levels of its texts. -/
theorem Term.depth_le_of_mem_simplify {t : Term} {ts : List Term}
    (hrow : ∀ v ∈ ts, v.isIntermediate = false) (h : t ∈ simplify ts) :
    t.depth ≤ max (Term.depthOfAll ts) (Term.nestingOfAll true ts) := by
  obtain ⟨u, hu, rfl⟩ := List.mem_map.mp (mem_of_mem_dropLeading (mem_of_mem_dropTrailing h))
  obtain ⟨hdepth, hnesting⟩ := Term.nesting_of_mem_joinAll hrow hu
  exact Nat.le_trans u.depth_reclassify_le (max_le_max hdepth hnesting)

end DiceNotation
