/-
  DiceNotation.Proofs.Formula.Reference

  The references of a text and of its tokens.

  `references` are the paths behind the at signs of a text. Where each of them stands
  for itself, substitution leaves the text as it is (`substitute_eq_self`). A reference
  ends where its token does, so the references of a text are those of its tokens, one
  after another (`Scans.references`); only references and flavors have any
  (`Token.Lexed.references_eq_nil`).
-/

import DiceNotation.Formula.Reference
import DiceNotation.Proofs.Formula.Alphabet
import DiceNotation.Proofs.Formula.Derivation
import DiceNotation.Proofs.Formula.Position

namespace DiceNotation.Formula

open Text

/-! ## References of texts -/

/-- The paths of the references of a text, one after another. -/
def references : List Char → List (List Char)
  | [] => []
  | c :: rest =>
    let length := runLength isPathChar rest
    if c == '@' && length != 0 then rest.take length :: references rest else references rest

/-- Each reference of a text stands for itself: it is not replaced. -/
def Unreplaced (data : Json) (cs : List Char) : Prop :=
  ∀ path ∈ references cs, referenceChars data none path = '@' :: path

instance (data : Json) (cs : List Char) : Decidable (Unreplaced data cs) :=
  inferInstanceAs (Decidable (∀ path ∈ references cs, referenceChars data none path = '@' :: path))

section

variable {w r : List Char}

theorem references_cons_of_ne {c : Char} (hc : c ≠ '@') (cs : List Char) :
    references (c :: cs) = references cs := by
  rw [references]
  simp [hc]

theorem references_of_notMem (h : '@' ∉ w) : references w = [] := by
  induction w with
  | nil => rfl
  | cons c w ih =>
    rw [references_cons_of_ne fun hc => h (hc ▸ List.mem_cons_self),
      ih fun hw => h (List.mem_cons_of_mem c hw)]

/-- A text whose last reference ends with it has its own references, whatever follows. -/
theorem references_append (h : ∀ u path, w = u ++ '@' :: path →
    (∀ c ∈ path, isPathChar c = true) → begins isPathChar r = false) :
    references (w ++ r) = references w ++ references r := by
  induction w with
  | nil => rfl
  | cons c w ih =>
    have hmore := ih fun u path heq => h (c :: u) path (by rw [heq]; rfl)
    by_cases hc : c = '@'
    · subst hc
      have hrun : (w ++ r).take (runLength isPathChar (w ++ r)) =
            w.take (runLength isPathChar w) ∧
          runLength isPathChar (w ++ r) = runLength isPathChar w := by
        obtain hall | ⟨u, d, v, rfl, hu, hd⟩ := all_or_split isPathChar w
        · rw [runLength_append_of_all hall, runLength_of_begins (h [] w rfl hall),
            runLength_of_all hall]
          exact ⟨by rw [Nat.add_zero, List.take_left, List.take_length], rfl⟩
        · rw [List.append_assoc, List.cons_append, runLength_append_cons hu hd,
            runLength_append_cons hu hd, List.take_left, List.take_left]
          exact ⟨rfl, rfl⟩
      rw [List.cons_append, references, references, hrun.1, hrun.2, hmore]
      split <;> rfl
    · rw [List.cons_append, references_cons_of_ne hc, references_cons_of_ne hc, hmore]

theorem references_append_of_begins (hr : begins isPathChar r = false) :
    references (w ++ r) = references w ++ references r :=
  references_append fun _ _ _ _ => hr

theorem references_append_of_notMem (hw : '@' ∉ w) : references (w ++ r) = references r := by
  have hends : ∀ u path, w = u ++ '@' :: path → (∀ c ∈ path, isPathChar c = true) →
      begins isPathChar r = false := by
    rintro u path rfl
    exact absurd (List.mem_append_right u List.mem_cons_self) hw
  rw [references_append hends, references_of_notMem hw, List.nil_append]

theorem references_brackets (inner : List Char) :
    references ('[' :: inner ++ [']']) = references inner := by
  rw [List.cons_append, references_cons_of_ne (by decide), references_append_of_begins rfl,
    references_of_notMem (w := [']']) (by decide), List.append_nil]

/-- Flavors in a row have the references of all of them. -/
theorem references_intercalate (flavors : List String) :
    references (String.intercalate " " flavors).toList =
      flavors.flatMap fun f => references f.toList := by
  induction flavors with
  | nil => rfl
  | cons f more ih =>
    cases more with
    | nil => rw [String.intercalate_singleton, List.flatMap_singleton]
    | cons g more =>
      rw [String.intercalate_cons_cons, String.toList_append, String.toList_append,
        List.append_assoc, List.flatMap_cons, ← ih]
      exact (references_append_of_begins rfl).trans
        (congrArg _ (references_cons_of_ne (by decide) _))

/-- There is no at sign in a path, so that the other references stand behind it. -/
theorem references_drop_path (cs : List Char) :
    references (cs.drop (runLength isPathChar cs)) = references cs := by
  have hnot : '@' ∉ cs.take (runLength isPathChar cs) := by
    intro hmem
    obtain hall | ⟨u, d, v, rfl, hu, hd⟩ := all_or_split isPathChar cs
    · cases hall '@' (List.mem_of_mem_take hmem)
    · rw [runLength_append_cons hu hd, List.take_left] at hmem
      cases hu '@' hmem
  rw [← references_append_of_notMem hnot, List.take_append_drop]

/-! ## Substitution -/

theorem substituteChars_eq_self {data : Json} (fuel : Nat) {cs : List Char}
    (h : Unreplaced data cs) : substituteChars data none fuel cs = cs := by
  induction fuel generalizing cs with
  | zero => rfl
  | succ fuel ih =>
    cases cs with
    | nil => rfl
    | cons c rest =>
      rw [Unreplaced, references] at h
      rw [substituteChars]
      split at h
      · next hreference =>
        obtain ⟨hpath, hrest⟩ := List.forall_mem_cons.mp h
        rw [← references_drop_path] at hrest
        rw [if_pos hreference, hpath, ih hrest, List.cons_append, List.take_append_drop,
          beq_iff_eq.mp (Bool.and_eq_true_iff.mp hreference).1]
      · next hreference => rw [if_neg hreference, ih h]

/-- A text stays as it is if each of its references stands for itself. -/
theorem substitute_eq_self {data : Json} {formula : String}
    (h : Unreplaced data formula.toList) : substitute data none formula = formula := by
  rw [substitute]
  exact (congrArg String.ofList (substituteChars_eq_self _ h)).trans String.ofList_toList

end

theorem pathKeys_ne_nil (path : List Char) : pathKeys path ≠ [] := by
  cases path with
  | nil => simp [pathKeys]
  | cons c rest =>
    unfold pathKeys
    split
    · simp
    · split <;> simp

theorem pathValue?_null (path : List Char) : pathValue? .null path = none := by
  unfold pathValue?
  cases hkeys : pathKeys path with
  | nil => exact absurd hkeys (pathKeys_ne_nil path)
  | cons key keys => rfl

/-- A formula without data stays as it is. -/
theorem substitute_null (formula : String) : substitute .null none formula = formula := by
  refine substitute_eq_self fun path _ => ?_
  rw [referenceChars, pathValue?_null]
  rfl

/-! ## At signs in tokens -/

section

variable {w r : List Char} {kind : TokenKind}

theorem at_notMem (h : longest (w ++ r) = (kind, w.length)) (hkind : kind.isPlain = true) :
    '@' ∉ w :=
  notMem_of_longest h hkind rfl (by cases kind <;> exact nofun)

/-- A path behind an at sign makes a reference. -/
theorem longest_reference (h : begins isPathChar r = true) :
    longest ('@' :: r) = (.dataReference, 1 + runLength isPathChar r) := by
  have hrun : runLength isPathChar r ≠ 0 := by
    intro hzero
    rw [begins_of_runLength hzero] at h
    cases h
  have hzero : ∀ rule ∈ rules.take 4 ++ rules.drop 5, rule.2 ('@' :: r) = 0 := by
    intro rule hrule
    simp only [rules, List.take_succ_cons, List.take_zero, List.drop_succ_cons, List.drop_zero,
      List.cons_append, List.nil_append, List.mem_cons, List.not_mem_nil, or_false] at hrule
    rcases hrule with rfl | rfl | rfl | rfl | rfl | rfl | rfl | rfl | rfl | rfl | rfl | rfl | rfl |
      rfl | rfl | rfl <;> rfl
  refine @longest_of_rules _ (rules.take 4) (rules.drop 5) _ dataReferenceLength _ rfl ?_ (by omega)
    ?_ ?_
  · simp [dataReferenceLength, hrun]
  · intro rule hrule
    rw [hzero rule (List.mem_append_left _ hrule)]
    omega
  · intro rule hrule
    rw [hzero rule (List.mem_append_right _ hrule)]
    exact Nat.zero_le _

/-- A text that begins no token is a token of a single character, or all that is left. -/
theorem unrecognized_parts (h : longest (w ++ r) = (.unrecognized, w.length)) :
    w.length = 1 ∨ r = [] := by
  rw [longest_eq] at h
  split at h
  · have hlength : unrecognizedLength (w ++ r) = w.length := congrArg Prod.snd h
    unfold unrecognizedLength at hlength
    split at hlength
    · next rest heq =>
      have hall := congrArg List.length heq
      rw [List.length_append, List.length_cons] at hall
      exact .inr (List.length_eq_zero_iff.mp (by omega))
    · exact .inl hlength.symm
  · next hne =>
    obtain heq | ⟨rule, hrule, heq⟩ := @longestOf_eq (w ++ r) rules (.unrecognized, 0)
    · rw [heq] at hne
      exact absurd rfl hne
    · rw [heq] at h
      have hkind : rule.1 = .unrecognized := congrArg Prod.fst h
      simp only [rules, List.mem_cons, List.not_mem_nil, or_false] at hrule
      rcases hrule with rfl | rfl | rfl | rfl | rfl | rfl | rfl | rfl | rfl | rfl | rfl | rfl |
        rfl | rfl | rfl | rfl | rfl <;> cases hkind

/-- A text that ends with a bracket ends with no reference. -/
theorem ne_reference_of_bracket {u path v : List Char} (hpath : ∀ c ∈ path, isPathChar c = true) :
    v ++ [']'] ≠ u ++ '@' :: path := by
  intro heq
  obtain rfl | ⟨path, c, rfl⟩ := List.eq_nil_or_concat path
  · cases (List.append_inj' heq rfl).2
  · rw [List.concat_eq_append, ← List.cons_append, ← List.append_assoc] at heq
    cases (List.append_inj' heq rfl).2
    cases hpath ']' (List.concat_eq_append ▸ List.mem_append_right path List.mem_cons_self)

/-- A reference does not go on behind its token. -/
theorem begins_of_reference (h : longest (w ++ r) = (kind, w.length)) {u path : List Char}
    (hw : w = u ++ '@' :: path) (hpath : ∀ c ∈ path, isPathChar c = true) :
    begins isPathChar r = false := by
  cases hr : begins isPathChar r with
  | false => rfl
  | true =>
    exfalso
    have hlength := congrArg List.length hw
    rw [List.length_append, List.length_cons] at hlength
    cases u with
    | nil =>
      -- at the head of the text the longest token is the reference that goes on
      have hbegins : begins isPathChar (path ++ r) = true := by
        cases path with
        | nil => exact hr
        | cons c path => exact hpath c List.mem_cons_self
      rw [hw, List.nil_append, List.cons_append, longest_reference hbegins,
        runLength_append_of_all hpath] at h
      have hrun := congrArg Prod.snd h
      have hpos : runLength isPathChar r ≠ 0 := by
        intro hzero
        rw [begins_of_runLength hzero] at hr
        cases hr
      rw [List.length_cons] at hrun
      omega
    | cons c u =>
      -- elsewhere an at sign stands in flavors only, which end with a bracket
      rw [List.length_cons] at hlength
      cases hplain : kind.isPlain with
      | true => exact at_notMem h hplain (hw ▸ List.mem_append_right _ List.mem_cons_self)
      | false =>
        cases kind with
        | dataReference =>
          have hdata := (length_of_longest h rfl).1
          have hle := dataReferenceLength_foreign u (path ++ r) (show isPathChar '@' = false from rfl) c
          have hall : w ++ r = c :: u ++ '@' :: (path ++ r) := by
            rw [hw, List.append_assoc]
            rfl
          rw [hall] at hdata
          rw [List.length_cons] at hle
          omega
        | flavor =>
          obtain ⟨inner, htext, -⟩ := flavor_parts h
          exact ne_reference_of_bracket hpath (htext.symm.trans hw)
        | emptyFlavor =>
          have hempty := (length_of_longest h rfl).1
          unfold emptyFlavorLength at hempty
          split at hempty
          · next rest heq =>
            obtain rfl : u = [] := List.length_eq_zero_iff.mp (by omega)
            rw [hw] at heq
            exact absurd (List.cons.inj (List.cons.inj heq).2).1 (by decide)
          · omega
        | unrecognized =>
          obtain hone | hnil := unrecognized_parts h
          · omega
          · rw [hnil] at hr
            cases hr
        | _ => cases hplain

end

/-! ## Texts and their tokens -/

/-- The references of tokens, one after another. -/
def tokenReferences (ts : List Token) : List (List Char) := ts.flatMap fun t => references t.text

@[simp] theorem tokenReferences_append (ts us : List Token) :
    tokenReferences (ts ++ us) = tokenReferences ts ++ tokenReferences us := List.flatMap_append

theorem tokenReferences_cons (t : Token) (ts : List Token) :
    tokenReferences (t :: ts) = references t.text ++ tokenReferences ts := rfl

/-- The references of a text are those of its tokens. -/
theorem Scans.references {start : Nat} {cs : List Char} {ts : List Token}
    (h : Scans start cs ts) : references cs = tokenReferences ts := by
  induction h with
  | done start => rfl
  | @blank start c cs ts hc hcs ih =>
    have hne : c ≠ '@' := by
      rintro rfl
      cases hc
    rw [references_cons_of_ne hne, ih]
  | @token start kind w r ts hw hhead hlongest hr ih =>
    rw [references_append fun u path hw hpath => begins_of_reference hlongest hw hpath, ih]
    rfl

/-- Tokens of plain classes have no references. -/
theorem Token.Lexed.references_eq_nil {t : Token} (h : t.Lexed) (hkind : t.kind.isPlain = true) :
    Formula.references t.text = [] := by
  obtain ⟨r, hlongest⟩ := h
  exact references_of_notMem (at_notMem hlongest hkind)

theorem tokenReferences_of_isPlain {ts : List Token} (hlexed : ∀ t ∈ ts, t.Lexed)
    (h : ∀ t ∈ ts, t.kind.isPlain = true) : tokenReferences ts = [] :=
  List.flatMap_eq_nil_iff.mpr fun t ht => (hlexed t ht).references_eq_nil (h t ht)

/-- A token of a plain class adds no references to those behind it. -/
theorem tokenReferences_plain {t : Token} (ht : t.Lexed) (hkind : t.kind.isPlain = true)
    (ts : List Token) : tokenReferences (t :: ts) = tokenReferences ts := by
  rw [tokenReferences_cons, ht.references_eq_nil hkind, List.nil_append]

/-- A flavor has the references of the text in its brackets. -/
theorem Token.Lexed.references_flavor {t : Token} (h : t.Lexed) (hkind : t.kind = .flavor) :
    Formula.references (flavorText t).toList = Formula.references t.text := by
  obtain ⟨r, hlongest⟩ := h
  rw [hkind] at hlongest
  obtain ⟨inner, htext, -⟩ := flavor_parts hlongest
  have hinner : (flavorText t).toList = inner := by
    simp [flavorText, htext]
  rw [hinner, htext, references_brackets]

end DiceNotation.Formula
