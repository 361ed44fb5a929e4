/-
  DiceNotation.Proofs.Formula.Lexeme

  Where tokens end.

  Whether a text is a token depends on the character behind it alone: where the
  character behind is replaced by one that ends tokens in the same way
  (`EndsLike`), the token stays the longest one (`longest_of_endsLike`). Only a
  bracket, which has to be closed, looks further ahead.
-/

import DiceNotation.Formula.Token

namespace DiceNotation.Formula

/-! ## Classes of characters -/

/-- Characters that no token goes on with. -/
def isDelimiter (c : Char) : Bool :=
  c == ' ' || c == '(' || c == ')' || c == ',' || c == '\x7d' || c == '['

/-- Whether a text begins with a character of a class. -/
def begins (p : Char → Bool) (cs : List Char) : Bool := cs.head?.any p

/-- A text that ends the token before it as another one does: it begins with the same
    character, or both begin with a digit, or nothing can go on with it. -/
def EndsLike (r r' : List Char) : Prop :=
  ∀ c', r'.head? = some c' → isDelimiter c' = true ∨
    ∃ c, r.head? = some c ∧ (c' = c ∨ c.isDigit = true ∧ c'.isDigit = true)

/-- Classes without delimiters, in which all digits are or none. -/
structure Common (p : Char → Bool) : Prop where
  delimiter : ∀ c, isDelimiter c = true → p c = false
  digit : ∀ c c', c.isDigit = true → c'.isDigit = true → p c = p c'

theorem isAlpha_of_isDigit {c : Char} (h : c.isDigit = true) : c.isAlpha = false := by
  have hle : c.val.toNat ≤ 57 := of_decide_eq_true (Bool.and_eq_true_iff.mp h).2
  have hupper : decide (c.val ≥ 'A'.val ∧ c.val ≤ 'Z'.val) = false := by
    refine decide_eq_false fun hc => ?_
    have hc : 65 ≤ c.val.toNat := hc.1
    omega
  have hlower : decide (c.val ≥ 'a'.val) = false := by
    refine decide_eq_false fun hc => ?_
    have hc : 97 ≤ c.val.toNat := hc
    omega
  show (decide (c.val ≥ 'A'.val ∧ c.val ≤ 'Z'.val) ||
    (decide (c.val ≥ 'a'.val) && decide (c.val ≤ 'z'.val))) = false
  rw [hupper, hlower]
  rfl

theorem ne_of_isDigit {c d : Char} (h : c.isDigit = true) (hd : d.isDigit = false) : c ≠ d := by
  rintro rfl
  rw [h] at hd
  cases hd

theorem eq_of_isDelimiter {c : Char} (h : isDelimiter c = true) :
    c = ' ' ∨ c = '(' ∨ c = ')' ∨ c = ',' ∨ c = '\x7d' ∨ c = '[' := by
  simpa [isDelimiter, or_assoc] using h

theorem common_isDigit : Common Char.isDigit where
  delimiter := by
    intro c h
    rcases eq_of_isDelimiter h with rfl | rfl | rfl | rfl | rfl | rfl <;> rfl
  digit := fun c c' h h' => h.trans h'.symm

theorem common_isWordChar : Common isWordChar where
  delimiter := by
    intro c h
    rcases eq_of_isDelimiter h with rfl | rfl | rfl | rfl | rfl | rfl <;> rfl
  digit := by
    intro c c' h h'
    simp [isWordChar, Char.isAlphanum, h, h']

theorem common_isPathChar : Common isPathChar where
  delimiter := by
    intro c h
    rcases eq_of_isDelimiter h with rfl | rfl | rfl | rfl | rfl | rfl <;> rfl
  digit := by
    intro c c' h h'
    simp [isPathChar, Char.isAlphanum, h, h']

/-- A class of single characters that are neither delimiters nor digits. -/
theorem common_of_finite {p : Char → Bool} (hdelimiter : ∀ c, isDelimiter c = true → p c = false)
    (hdigit : ∀ c, c.isDigit = true → p c = false) : Common p where
  delimiter := hdelimiter
  digit := fun c c' h h' => (hdigit c h).trans (hdigit c' h').symm

theorem common_isDiceLetter : Common isDiceLetter := by
  refine common_of_finite ?_ ?_
  · intro c h
    rcases eq_of_isDelimiter h with rfl | rfl | rfl | rfl | rfl | rfl <;> rfl
  · intro c h
    simp [isDiceLetter, ne_of_isDigit h (show 'd'.isDigit = false from rfl),
      ne_of_isDigit h (show 'D'.isDigit = false from rfl)]

theorem common_isFaceLetter : Common isFaceLetter := by
  refine common_of_finite ?_ ?_
  · intro c h
    rcases eq_of_isDelimiter h with rfl | rfl | rfl | rfl | rfl | rfl <;> rfl
  · intro c h
    simp [isFaceLetter, ne_of_isDigit h (show 'c'.isDigit = false from rfl),
      ne_of_isDigit h (show 'C'.isDigit = false from rfl),
      ne_of_isDigit h (show 'f'.isDigit = false from rfl),
      ne_of_isDigit h (show 'F'.isDigit = false from rfl)]

theorem common_point : Common (· == '.') := by
  refine common_of_finite ?_ ?_
  · intro c h
    rcases eq_of_isDelimiter h with rfl | rfl | rfl | rfl | rfl | rfl <;> rfl
  · intro c h
    simp [ne_of_isDigit h (show '.'.isDigit = false from rfl)]

theorem common_next? (state : SuffixState) : Common fun c => (state.next? c).isSome where
  delimiter := by
    intro c h
    rcases eq_of_isDelimiter h with rfl | rfl | rfl | rfl | rfl | rfl <;> cases state <;> rfl
  digit := by
    intro c c' h h'
    have hangle : ∀ {c : Char}, c.isDigit = true → (c == '<' || c == '>') = false := by
      intro c h
      simp [ne_of_isDigit h (show '<'.isDigit = false from rfl),
        ne_of_isDigit h (show '>'.isDigit = false from rfl)]
    cases state <;>
      simp [SuffixState.next?, isAlpha_of_isDigit h, isAlpha_of_isDigit h', h, h', hangle h,
        hangle h']

section

variable {p q : Char → Bool} {r r' : List Char}

theorem EndsLike.begins (h : EndsLike r r') (hp : Common p) (hr : begins p r = false) :
    Formula.begins p r' = false := by
  cases r' with
  | nil => rfl
  | cons c' rest' =>
    show p c' = false
    obtain hdelimiter | ⟨c, hc, hsame⟩ := h c' rfl
    · exact hp.delimiter c' hdelimiter
    · have hpc : p c = false := by simpa [Formula.begins, hc] using hr
      obtain rfl | ⟨hdigit, hdigit'⟩ := hsame
      · exact hpc
      · rw [← hp.digit c c' hdigit hdigit', hpc]

/-- A text that begins with a delimiter, or an empty one, ends every token. -/
theorem EndsLike.of_isDelimiter (h : ∀ c, r'.head? = some c → isDelimiter c = true) :
    EndsLike r r' := fun c' hc' => .inl (h c' hc')

theorem EndsLike.of_head {c : Char} (rest rest' : List Char) :
    EndsLike (c :: rest) (c :: rest') := by
  intro c' hc'
  cases hc'
  exact .inr ⟨c, rfl, .inl rfl⟩

theorem EndsLike.of_isDigit {c c' : Char} (hc : c.isDigit = true) (hc' : c'.isDigit = true)
    (rest rest' : List Char) : EndsLike (c :: rest) (c' :: rest') := by
  intro c'' hc''
  cases hc''
  exact .inr ⟨c, rfl, .inr ⟨hc, hc'⟩⟩

end

/-! ## Runs of characters -/

section

variable {p : Char → Bool}

theorem runLength_of_begins {r : List Char} (h : begins p r = false) : runLength p r = 0 := by
  cases r with
  | nil => rfl
  | cons c rest => simp [runLength, show p c = false from h]

theorem begins_of_runLength {r : List Char} (h : runLength p r = 0) : begins p r = false := by
  cases r with
  | nil => rfl
  | cons c rest =>
    show p c = false
    cases hc : p c with
    | false => rfl
    | true =>
      simp only [runLength, hc, if_true] at h
      omega

theorem runLength_append_of_all {w : List Char} (h : ∀ c ∈ w, p c = true) (r : List Char) :
    runLength p (w ++ r) = w.length + runLength p r := by
  induction w with
  | nil => simp
  | cons c w ih =>
    rw [List.cons_append, runLength, if_pos (h c List.mem_cons_self),
      ih fun d hd => h d (List.mem_cons_of_mem _ hd), List.length_cons]
    omega

theorem runLength_of_all {w : List Char} (h : ∀ c ∈ w, p c = true) :
    runLength p w = w.length := by
  have happend := runLength_append_of_all h []
  rwa [List.append_nil] at happend

/-- A run that ends within a text does not depend on what follows. -/
theorem runLength_append_cons {w : List Char} (h : ∀ c ∈ w, p c = true) {c : Char}
    (hc : p c = false) (r : List Char) : runLength p (w ++ c :: r) = w.length := by
  rw [runLength_append_of_all h, runLength_of_begins (show begins p (c :: r) = false from hc)]
  rfl

/-- A text is a run, or a run ends within it. -/
theorem all_or_split (p : Char → Bool) (w : List Char) :
    (∀ c ∈ w, p c = true) ∨
      ∃ u c v, w = u ++ c :: v ∧ (∀ c ∈ u, p c = true) ∧ p c = false := by
  induction w with
  | nil => exact .inl fun c hc => absurd hc List.not_mem_nil
  | cons d w ih =>
    cases hd : p d with
    | false => exact .inr ⟨[], d, w, rfl, fun c hc => absurd hc List.not_mem_nil, hd⟩
    | true =>
      have hall : ∀ {u : List Char}, (∀ c ∈ u, p c = true) → ∀ c ∈ d :: u, p c = true := by
        intro u hu c hc
        obtain rfl | hc := List.mem_cons.mp hc
        · exact hd
        · exact hu c hc
      obtain h | ⟨u, c, v, rfl, hu, hc⟩ := ih
      · exact .inl (hall h)
      · exact .inr ⟨d :: u, c, v, rfl, hall hu, hc⟩

variable {r r' : List Char}

theorem runLength_local (hp : Common p) (hlike : EndsLike r r') {w : List Char}
    (h : runLength p (w ++ r) ≤ w.length) :
    runLength p (w ++ r') = runLength p (w ++ r) := by
  obtain hall | ⟨u, c, v, rfl, hu, hc⟩ := all_or_split p w
  · rw [runLength_append_of_all hall] at h ⊢
    have hzero : runLength p r = 0 := by omega
    have hr' := hlike.begins hp (begins_of_runLength hzero)
    rw [runLength_append_of_all hall, hzero, runLength_of_begins hr']
  · rw [List.append_assoc, List.append_assoc, List.cons_append, List.cons_append,
      runLength_append_cons hu hc, runLength_append_cons hu hc]

theorem suffixLength_local (hlike : EndsLike r r') {w : List Char} {state : SuffixState}
    (h : suffixLength state (w ++ r) ≤ w.length) :
    suffixLength state (w ++ r') = suffixLength state (w ++ r) := by
  induction w generalizing state with
  | nil =>
    have hbegins : ∀ {r : List Char}, begins (fun c => (state.next? c).isSome) r = false ↔
        suffixLength state r = 0 := by
      intro r
      cases r with
      | nil => simp [begins, suffixLength]
      | cons c rest =>
        show (state.next? c).isSome = false ↔ _
        simp only [suffixLength]
        cases state.next? c <;> simp
    have hzero : suffixLength state r = 0 := Nat.le_zero.mp h
    have hzero' := hbegins.mp (hlike.begins (common_next? state) (hbegins.mpr hzero))
    rw [List.nil_append, List.nil_append, hzero, hzero']
  | cons c w ih =>
    simp only [List.cons_append, suffixLength] at h ⊢
    cases hnext : state.next? c with
    | none => rfl
    | some state' =>
      simp only [hnext, List.length_cons] at h ⊢
      rw [ih (by omega)]

end

/-! ## Classes of tokens -/

section

variable {w r r' : List Char}

theorem drop_append_cons (u : List Char) (c : Char) (v : List Char) :
    (u ++ c :: v).drop u.length = c :: v := List.drop_left

/-- The length of a number whose digits go up to a character that is none. -/
theorem numberLength_append_cons {u : List Char} (hu : ∀ c ∈ u, c.isDigit = true) {c : Char}
    (hc : c.isDigit = false) (v : List Char) :
    numberLength (u ++ c :: v) =
      if c = '.' then
        if u.length == 0 && runLength Char.isDigit v == 0 then 0
        else u.length + 1 + runLength Char.isDigit v
      else u.length := by
  simp only [numberLength, runLength_append_cons hu hc, drop_append_cons]
  by_cases hpoint : c = '.'
  · subst hpoint
    rfl
  · rw [if_neg hpoint]
    split
    · next heq =>
      cases heq
      exact absurd rfl hpoint
    · rfl

theorem numberLength_of_all {u : List Char} (hu : ∀ c ∈ u, c.isDigit = true) (hne : u ≠ [])
    {r : List Char} (hr : begins Char.isDigit r = false) :
    numberLength (u ++ r) =
      u.length + if begins (· == '.') r then 1 + runLength Char.isDigit (r.drop 1) else 0 := by
  have hlength : u.length ≠ 0 := fun h => hne (List.length_eq_zero_iff.mp h)
  cases r with
  | nil =>
    rw [List.append_nil]
    simp only [numberLength, runLength_of_all hu, List.drop_length]
    rfl
  | cons c v =>
    rw [numberLength_append_cons hu (show c.isDigit = false from hr)]
    by_cases hpoint : c = '.'
    · subst hpoint
      simp [hlength, begins, Nat.add_assoc]
    · simp [hpoint, begins]

/-- Behind digits that are a number by themselves stands no digit. -/
theorem begins_isDigit_of_numberLength (hall : ∀ c ∈ w, c.isDigit = true)
    (h : numberLength (w ++ r) ≤ w.length) : begins Char.isDigit r = false := by
  refine begins_of_runLength ?_
  have hle : w.length + runLength Char.isDigit r ≤ numberLength (w ++ r) := by
    rw [← runLength_append_of_all hall]
    simp only [numberLength]
    split
    · split
      · next hzero =>
        simp only [Bool.and_eq_true, beq_iff_eq] at hzero
        omega
      · omega
    · omega
  omega

theorem begins_point_of_numberLength (hall : ∀ c ∈ w, c.isDigit = true) (hw : w ≠ [])
    (h : numberLength (w ++ r) ≤ w.length) : begins (· == '.') r = false := by
  rw [numberLength_of_all hall hw (begins_isDigit_of_numberLength hall h)] at h
  cases hp : begins (· == '.') r with
  | false => rfl
  | true =>
    simp only [hp, if_true] at h
    omega

theorem numberLength_local (hlike : EndsLike r r') (hw : w ≠ [])
    (h : numberLength (w ++ r) ≤ w.length) : numberLength (w ++ r') = numberLength (w ++ r) := by
  obtain hall | ⟨u, c, v, rfl, hu, hc⟩ := all_or_split Char.isDigit w
  · have hr := begins_isDigit_of_numberLength hall h
    have hpoint := begins_point_of_numberLength hall hw h
    rw [numberLength_of_all hall hw hr, hpoint,
      numberLength_of_all hall hw (hlike.begins common_isDigit hr),
      hlike.begins common_point hpoint]
    rfl
  · rw [List.append_assoc, List.cons_append, numberLength_append_cons hu hc] at h
    rw [List.append_assoc, List.append_assoc, List.cons_append, List.cons_append,
      numberLength_append_cons hu hc, numberLength_append_cons hu hc]
    by_cases hpoint : c = '.'
    · have hrun : runLength Char.isDigit (v ++ r) ≤ v.length := by
        rw [if_pos hpoint] at h
        split at h
        · next hzero =>
          simp only [Bool.and_eq_true, beq_iff_eq] at hzero
          omega
        · simp only [List.length_append, List.length_cons] at h
          omega
      rw [runLength_local common_isDigit hlike hrun]
    · rw [if_neg hpoint, if_neg hpoint]

/-- The length of dice whose number goes up to a character that is no digit. -/
theorem diceLength_append_cons {u : List Char} (hu : ∀ c ∈ u, c.isDigit = true) {c : Char}
    (hc : c.isDigit = false) (v : List Char) :
    diceLength (u ++ c :: v) =
      if isDiceLetter c then
        if facesLength v == 0 then 0
        else u.length + 1 + facesLength v + suffixLength .between (v.drop (facesLength v))
      else 0 := by
  simp only [diceLength, runLength_append_cons hu hc, drop_append_cons]

theorem facesLength_cons_of_face {f : Char} (hf : isFaceLetter f = true) (v : List Char) :
    facesLength (f :: v) = 1 := by
  simp [facesLength, hf]

theorem facesLength_of_not_face {v : List Char} (hv : begins isFaceLetter v = false) :
    facesLength v = runLength Char.isDigit v := by
  cases v with
  | nil => rfl
  | cons f v => simp [facesLength, show isFaceLetter f = false from hv]

/-- Faces and a suffix end where they end, whatever follows. -/
theorem facesLength_local (hlike : EndsLike r r') {v : List Char}
    (h : facesLength (v ++ r) = 0 ∨
      facesLength (v ++ r) + suffixLength .between ((v ++ r).drop (facesLength (v ++ r))) ≤
        v.length) :
    facesLength (v ++ r') = facesLength (v ++ r) ∧ (facesLength (v ++ r) ≠ 0 →
      suffixLength .between ((v ++ r').drop (facesLength (v ++ r))) =
        suffixLength .between ((v ++ r).drop (facesLength (v ++ r)))) := by
  cases v with
  | nil =>
    have hzero : facesLength r = 0 := by
      obtain h | h := h
      · exact h
      · simp only [List.nil_append, List.length_nil] at h
        omega
    have hface : begins isFaceLetter r = false := by
      cases r with
      | nil => rfl
      | cons f rest =>
        cases hf : isFaceLetter f with
        | false => exact hf
        | true =>
          rw [facesLength_cons_of_face hf] at hzero
          cases hzero
    have hzero' : facesLength r' = 0 := by
      rw [facesLength_of_not_face (hlike.begins common_isFaceLetter hface)]
      rw [facesLength_of_not_face hface] at hzero
      exact runLength_of_begins (hlike.begins common_isDigit (begins_of_runLength hzero))
    exact ⟨by rw [List.nil_append, List.nil_append, hzero, hzero'], fun h => absurd hzero h⟩
  | cons f v =>
    cases hf : isFaceLetter f with
    | true =>
      have hone : ∀ r, facesLength (f :: v ++ r) = 1 := fun r => facesLength_cons_of_face hf _
      simp only [hone] at h ⊢
      refine ⟨trivial, fun _ => ?_⟩
      simp only [List.cons_append, List.drop_succ_cons, List.drop_zero, List.length_cons] at h ⊢
      exact suffixLength_local hlike (by omega)
    | false =>
      have hrun : ∀ r, facesLength (f :: v ++ r) = runLength Char.isDigit (f :: v ++ r) :=
        fun r => facesLength_of_not_face hf
      simp only [hrun] at h ⊢
      obtain hall | ⟨u, c, u', huv, hu, hc⟩ := all_or_split Char.isDigit (f :: v)
      · simp only [runLength_append_of_all hall, List.length_cons] at h ⊢
        have hzero : runLength Char.isDigit r = 0 := by omega
        have hzero' := runLength_of_begins (hlike.begins common_isDigit (begins_of_runLength hzero))
        have hdrop : ∀ r, (f :: v ++ r).drop (v.length + 1 + 0) = r :=
          fun r => @List.drop_left _ (f :: v) r
        simp only [hzero, hzero', hdrop] at h ⊢
        have hsuffix := @suffixLength_local r r' hlike [] .between
        exact ⟨trivial, fun _ => hsuffix (by simp only [List.nil_append, List.length_nil]; omega)⟩
      · simp only [huv, List.append_assoc, List.cons_append, runLength_append_cons hu hc] at h ⊢
        simp only [drop_append_cons] at h ⊢
        refine ⟨trivial, fun hne => ?_⟩
        have hsuffix := @suffixLength_local r r' hlike (c :: u') .between
        refine hsuffix ?_
        simp only [List.cons_append, List.length_append, List.length_cons] at h ⊢
        omega

theorem diceLength_of_all {u r : List Char} (hu : ∀ c ∈ u, c.isDigit = true)
    (hdigit : begins Char.isDigit r = false) (hletter : begins isDiceLetter r = false) :
    diceLength (u ++ r) = 0 := by
  cases r with
  | nil =>
    rw [List.append_nil]
    simp only [diceLength, runLength_of_all hu, List.drop_length]
  | cons c v =>
    rw [diceLength_append_cons hu (show c.isDigit = false from hdigit),
      show isDiceLetter c = false from hletter]
    rfl

/-- Dice end where they end, unless they would begin behind a number. -/
theorem diceLength_local (hlike : EndsLike r r')
    (hnumber : (∀ c ∈ w, c.isDigit = true) →
      begins Char.isDigit r = false ∧ begins isDiceLetter r = false)
    (h : diceLength (w ++ r) ≤ w.length) : diceLength (w ++ r') = diceLength (w ++ r) := by
  obtain hall | ⟨u, c, v, rfl, hu, hc⟩ := all_or_split Char.isDigit w
  · obtain ⟨hdigit, hletter⟩ := hnumber hall
    rw [diceLength_of_all hall hdigit hletter, diceLength_of_all hall
      (hlike.begins common_isDigit hdigit) (hlike.begins common_isDiceLetter hletter)]
  · simp only [List.append_assoc, List.cons_append, diceLength_append_cons hu hc,
      List.length_append, List.length_cons] at h ⊢
    cases hletter : isDiceLetter c with
    | false => rfl
    | true =>
      simp only [hletter, if_true] at h ⊢
      obtain ⟨hfaces, hsuffix⟩ := @facesLength_local r r' hlike v (by
        split at h
        · next hzero => exact .inl (by simpa using hzero)
        · exact .inr (by omega))
      rw [hfaces]
      split
      · rfl
      · next hne => rw [hsuffix (by simpa using hne)]

theorem dicePrefixLength_append_cons {u : List Char} (hu : ∀ c ∈ u, c.isDigit = true) {c : Char}
    (hc : c.isDigit = false) (v : List Char) :
    dicePrefixLength (u ++ c :: v) =
      if u.length != 0 && isDiceLetter c then u.length + 1 else 0 := by
  simp only [dicePrefixLength, runLength_append_cons hu hc, drop_append_cons]

theorem dicePrefixLength_of_all {u r : List Char} (hu : ∀ c ∈ u, c.isDigit = true)
    (hdigit : begins Char.isDigit r = false) :
    dicePrefixLength (u ++ r) =
      if u.length != 0 && begins isDiceLetter r then u.length + 1 else 0 := by
  cases r with
  | nil =>
    rw [List.append_nil]
    simp [dicePrefixLength, runLength_of_all hu, begins]
  | cons c v =>
    rw [dicePrefixLength_append_cons hu (show c.isDigit = false from hdigit)]
    rfl

/-- Behind digits that are a number by themselves stands no letter of dice. -/
theorem begins_isDiceLetter_of_dicePrefixLength (hall : ∀ c ∈ w, c.isDigit = true) (hw : w ≠ [])
    (hdigit : begins Char.isDigit r = false) (h : dicePrefixLength (w ++ r) ≤ w.length) :
    begins isDiceLetter r = false := by
  have hlength : w.length ≠ 0 := fun h => hw (List.length_eq_zero_iff.mp h)
  rw [dicePrefixLength_of_all hall hdigit] at h
  cases hletter : begins isDiceLetter r with
  | false => rfl
  | true =>
    simp only [hletter, Bool.and_true, bne_iff_ne, ne_eq, hlength, not_false_iff, if_true] at h
    omega

theorem dicePrefixLength_local (hlike : EndsLike r r')
    (hnumber : (∀ c ∈ w, c.isDigit = true) →
      begins Char.isDigit r = false ∧ begins isDiceLetter r = false) :
    dicePrefixLength (w ++ r') = dicePrefixLength (w ++ r) := by
  obtain hall | ⟨u, c, v, rfl, hu, hc⟩ := all_or_split Char.isDigit w
  · obtain ⟨hdigit, hletter⟩ := hnumber hall
    rw [dicePrefixLength_of_all hall hdigit, hletter,
      dicePrefixLength_of_all hall (hlike.begins common_isDigit hdigit),
      hlike.begins common_isDiceLetter hletter]
  · simp only [List.append_assoc, List.cons_append, dicePrefixLength_append_cons hu hc]

theorem identifierLength_local (hlike : EndsLike r r') (hw : w ≠ [])
    (h : identifierLength (w ++ r) ≤ w.length) :
    identifierLength (w ++ r') = identifierLength (w ++ r) := by
  cases w with
  | nil => exact absurd rfl hw
  | cons c w =>
    simp only [List.cons_append, identifierLength, List.length_cons] at h ⊢
    split
    · next hstart =>
      rw [if_pos hstart] at h
      rw [runLength_local common_isWordChar hlike (by omega)]
    · rfl

theorem dataReferenceLength_local (hlike : EndsLike r r') (hw : w ≠ [])
    (h : dataReferenceLength (w ++ r) ≤ w.length) :
    dataReferenceLength (w ++ r') = dataReferenceLength (w ++ r) := by
  cases w with
  | nil => exact absurd rfl hw
  | cons c w =>
    by_cases hc : c = '@'
    · subst hc
      simp only [List.cons_append, dataReferenceLength, List.length_cons] at h ⊢
      rw [runLength_local common_isPathChar hlike (by
        split at h
        · next hzero =>
          rw [beq_iff_eq.mp hzero]
          exact Nat.zero_le _
        · omega)]
    · have hzero : ∀ cs, dataReferenceLength (c :: cs) = 0 := by
        intro cs
        unfold dataReferenceLength
        split
        · next heq =>
          cases heq
          exact absurd rfl hc
        · rfl
      rw [List.cons_append, List.cons_append, hzero, hzero]

theorem rightBraceLength_local (hlike : EndsLike r r') (hw : w ≠ [])
    (h : rightBraceLength (w ++ r) ≤ w.length) :
    rightBraceLength (w ++ r') = rightBraceLength (w ++ r) := by
  cases w with
  | nil => exact absurd rfl hw
  | cons c w =>
    by_cases hc : c = '\x7d'
    · subst hc
      simp only [List.cons_append, rightBraceLength, List.length_cons] at h ⊢
      rw [suffixLength_local hlike (by omega)]
    · have hzero : ∀ cs, rightBraceLength (c :: cs) = 0 := by
        intro cs
        unfold rightBraceLength
        split
        · next heq =>
          cases heq
          exact absurd rfl hc
        · rfl
      rw [List.cons_append, List.cons_append, hzero, hzero]

theorem flavorLength_of_head {c : Char} (hc : c ≠ '[') (cs : List Char) :
    flavorLength (c :: cs) = 0 := by
  unfold flavorLength
  split
  · next heq =>
    cases heq
    exact absurd rfl hc
  · rfl

theorem emptyFlavorLength_of_head {c : Char} (hc : c ≠ '[') (cs : List Char) :
    emptyFlavorLength (c :: cs) = 0 := by
  unfold emptyFlavorLength
  split
  · next heq =>
    cases heq
    exact absurd rfl hc
  · rfl

end

end DiceNotation.Formula
