/-
  DiceNotation.Proofs.Formula.Literal

  Number and dice literals as they are written again.

  A number is written in digits, with a point among them if it is a double
  (`IsLegible`), and dice with their number, a small letter and the faces in digits or
  as a letter. What is written is read as the same node, and it is a token wherever the
  literal was one (`number_rewritten`, `dice_rewritten`), unless a number that loses
  its point stands before something that digits go on with.
-/

import Mathlib.Data.List.TakeWhile
import DiceNotation.Proofs.Formula.Grammar
import DiceNotation.Proofs.Formula.Longest
import DiceNotation.Proofs.Modifier.Suffix
import DiceNotation.Proofs.Text.Numeral

namespace DiceNotation.Formula

open Text

/-- A token is as long as the longest one of its class. -/
theorem length_of_longest {cs : List Char} {kind : TokenKind} {n : Nat}
    {length : List Char → Nat} (h : longest cs = (kind, n))
    (hlength : rules.lookup kind = some length) : length cs = n ∧ 0 < n := by
  have hkind : kind ≠ .unrecognized := by
    rintro rfl
    cases hlength
  obtain ⟨hbest, hpos, -⟩ := longestOf_of_longest h hkind
  obtain heq | ⟨rule, hrule, heq⟩ := @longestOf_eq cs rules (.unrecognized, 0)
  · rw [heq] at hbest
    cases hbest
    exact absurd rfl hkind
  · rw [heq] at hbest
    cases hbest
    refine ⟨?_, hpos⟩
    simp only [rules, List.mem_cons, List.not_mem_nil, or_false] at hrule
    rcases hrule with rfl | rfl | rfl | rfl | rfl | rfl | rfl | rfl | rfl | rfl | rfl | rfl | rfl |
      rfl | rfl | rfl | rfl <;> cases hlength <;> rfl

/-! ## Numbers -/

/-- A number without a point is made of digits. -/
theorem isDigit_of_number {w r : List Char} (h : longest (w ++ r) = (.number, w.length))
    (hpoint : '.' ∉ w) : ∀ c ∈ w, c.isDigit = true := by
  have hlength : numberLength (w ++ r) = w.length := (length_of_longest h rfl).1
  obtain hall | ⟨u, c, v, rfl, hu, hc⟩ := all_or_split Char.isDigit w
  · exact hall
  · have hne : c ≠ '.' := by
      rintro rfl
      exact hpoint (List.mem_append_right _ List.mem_cons_self)
    rw [List.append_assoc, List.cons_append, numberLength_append_cons hu hc, if_neg hne,
      List.length_append, List.length_cons] at hlength
    omega

theorem numberOfLiteral?_of_isDigit {w : List Char} (hw : ∀ c ∈ w, c.isDigit = true) :
    numberOfLiteral? w = (int64? w).map .int := by
  have hne : ∀ c ∈ w, (c != '.') = true := by
    intro c hc
    simpa using ne_of_isDigit (hw c hc) (show '.'.isDigit = false from rfl)
  have hdrop : w.dropWhile (· != '.') = [] := List.dropWhile_eq_nil_iff.mpr hne
  rw [numberOfLiteral?, hdrop]

theorem numberOfLiteral?_point {whole fraction : List Char} (hwhole : '.' ∉ whole) :
    numberOfLiteral? (whole ++ '.' :: fraction) =
      some (.ofFloat (Decimal.positional whole fraction)) := by
  have hne : ∀ c ∈ whole, (c != '.') = true := by
    intro c hc
    exact bne_iff_ne.mpr (ne_of_mem_of_not_mem hc hwhole)
  have htake : (whole ++ '.' :: fraction).takeWhile (· != '.') = whole := by
    rw [List.takeWhile_append_of_pos hne, List.takeWhile_cons]
    exact List.append_nil whole
  have hdrop : (whole ++ '.' :: fraction).dropWhile (· != '.') = '.' :: fraction := by
    rw [List.dropWhile_append_of_pos hne, List.dropWhile_cons]
    rfl
  rw [numberOfLiteral?, htake, hdrop]

theorem point_notMem {w : List Char} (hw : ∀ c ∈ w, c.isDigit = true) : '.' ∉ w :=
  fun h => Bool.false_ne_true (hw '.' h)

/-- Behind a number stands no digit. -/
theorem begins_isDigit_of_number {w r : List Char}
    (h : longest (w ++ r) = (.number, w.length)) : begins Char.isDigit r = false := by
  obtain ⟨hlength, hpos⟩ := length_of_longest h rfl
  obtain hall | ⟨u, c, v, rfl, hu, hc⟩ := all_or_split Char.isDigit w
  · exact begins_isDigit_of_numberLength hall (Nat.le_of_eq hlength)
  rw [List.append_assoc, List.cons_append, numberLength_append_cons hu hc, List.length_append,
    List.length_cons] at hlength
  rw [List.length_append, List.length_cons] at hpos
  -- the digits behind the point go up to the end of the number
  have hrun : runLength Char.isDigit (v ++ r) = v.length := by
    split at hlength
    · split at hlength <;> omega
    · omega
  obtain hall | ⟨u', c', v', rfl, hu', hc'⟩ := all_or_split Char.isDigit v
  · rw [runLength_append_of_all hall] at hrun
    exact begins_of_runLength (by omega)
  · rw [List.append_assoc, List.cons_append, runLength_append_cons hu' hc', List.length_append,
      List.length_cons] at hrun
    omega

/-- Characters that digits without a point go on with. -/
def continuesNumber (c : Char) : Bool := c == '.' || isDiceLetter c

theorem begins_continuesNumber {r : List Char} :
    begins continuesNumber r = false ↔
      begins (· == '.') r = false ∧ begins isDiceLetter r = false := by
  cases r with
  | nil => simp [begins]
  | cons c r => exact Bool.or_eq_false_iff

theorem common_continuesNumber : Common continuesNumber where
  delimiter := by
    intro c h
    exact Bool.or_eq_false_iff.mpr
      ⟨common_point.delimiter c h, common_isDiceLetter.delimiter c h⟩
  digit := by
    intro c c' h h'
    have hpoint : (c == '.') = (c' == '.') := common_point.digit c c' h h'
    rw [continuesNumber, continuesNumber, hpoint, common_isDiceLetter.digit c c' h h']

/-- A number that is written as a literal of its own, with a point if it is a double. -/
inductive IsLegible : Number → Prop where
  | int {n : Nat} (hn : n ≤ Nat.pow 2 63 - 1) : IsLegible (.int n)
  | float {x : Float} {whole fraction : List Char}
      (hchars : (Number.float x).chars = whole ++ '.' :: fraction) (hne : whole ≠ [])
      (hdigits : ∀ c ∈ whole ++ fraction, c.isDigit = true)
      (hvalue : Number.ofFloat (Decimal.positional whole fraction) = .float x)
      (hneg : (Number.float x).neg.chars = '-' :: (Number.float x).chars) :
      IsLegible (.float x)

theorem chars_natCast (n : Nat) : (Number.int n).chars = natChars n := by
  rw [Number.chars, intChars, if_neg (by omega)]
  rfl

theorem Number.neg_natCast {m : Nat} (h : m ≤ Nat.pow 2 63 - 1) :
    (Number.int m).neg = .int (-(m : Int)) := by
  have hfits : fitsInt64 (-(m : Int)) = true := by
    have hle : minInt64 ≤ -(m : Int) ∧ -(m : Int) ≤ maxInt64 := by
      have hpow : Nat.pow 2 63 = 9223372036854775808 := rfl
      simp only [minInt64, maxInt64, hpow, Int.ofNat_eq_natCast] at h ⊢
      omega
    simpa [fitsInt64] using hle
  rw [Number.neg, Number.fitted, if_pos hfits]

section

variable {v : Number}

theorem IsLegible.literal (h : IsLegible v) : numberOfLiteral? v.chars = some v := by
  cases h with
  | @int n hn =>
    rw [chars_natCast, numberOfLiteral?_of_isDigit fun c hc => isDigit_of_mem_natChars hc,
      int64?_natChars hn]
    rfl
  | float hchars hne hdigits hvalue hneg =>
    have hwhole := point_notMem fun c hc => hdigits c (List.mem_append_left _ hc)
    rw [hchars, numberOfLiteral?_point hwhole, hvalue]

/-- A number is written with a digit in front. -/
theorem IsLegible.exists_digit (h : IsLegible v) :
    ∃ c rest, v.chars = c :: rest ∧ c.isDigit = true := by
  cases h with
  | @int n hn =>
    rw [chars_natCast]
    exact natChars_eq_cons n
  | @float x whole fraction hchars hne hdigits hvalue hneg =>
    obtain ⟨c, rest, rfl⟩ := List.exists_cons_of_ne_nil hne
    exact ⟨c, rest ++ '.' :: fraction, hchars, hdigits c List.mem_cons_self⟩

/-- A number is a token where it is written, unless what follows goes on with it. -/
theorem IsLegible.longest (h : IsLegible v) {r : List Char} (hdigit : begins Char.isDigit r = false)
    (hgoes : (∃ n, v = .int n) → begins continuesNumber r = false) :
    longest (v.chars ++ r) = (.number, v.chars.length) := by
  cases h with
  | @int n hn =>
    obtain ⟨hpoint, hletter⟩ := begins_continuesNumber.mp (hgoes ⟨n, rfl⟩)
    rw [chars_natCast]
    exact longest_number (fun c hc => isDigit_of_mem_natChars hc) (natChars_ne_nil n) hdigit hpoint
      hletter
  | float hchars hne hdigits hvalue hneg =>
    rw [hchars]
    exact longest_decimal (fun c hc => hdigits c (List.mem_append_left _ hc)) hne
      (fun c hc => hdigits c (List.mem_append_right _ hc)) hdigit

/-- With a minus sign a number is written behind it, unless it is zero. -/
theorem IsLegible.neg_chars (h : IsLegible v) :
    v = .int 0 ∨ v.neg.chars = '-' :: v.chars := by
  cases h with
  | @int n hn =>
    cases n with
    | zero => exact .inl rfl
    | succ n =>
      refine .inr ?_
      rw [chars_natCast, Number.neg_natCast hn]
      show intChars (-((n + 1 : Nat) : Int)) = '-' :: natChars (n + 1)
      rw [intChars, if_pos (by omega), Int.natAbs_neg]
      rfl
  | float _ _ _ _ hneg => exact .inr hneg

end

/-- A number without a point is written in its digits. -/
theorem isLegible_of_notMem {w r : List Char} {v : Number}
    (h : longest (w ++ r) = (.number, w.length)) (hpoint : '.' ∉ w)
    (hv : numberOfLiteral? w = some v) : IsLegible v := by
  have hdigits := isDigit_of_number h hpoint
  obtain ⟨-, hpos⟩ := length_of_longest h rfl
  rw [numberOfLiteral?_of_isDigit hdigits] at hv
  obtain ⟨m, hm, rfl⟩ := Option.map_eq_some_iff.mp hv
  obtain ⟨c, w, rfl⟩ := List.exists_cons_of_ne_nil (List.length_pos_iff.mp hpos)
  obtain ⟨n, rfl, hn⟩ := int64?_of_isDigit (hdigits c List.mem_cons_self) hm
  exact .int hn

/-- A number is written as a token wherever its literal is one. A number that loses its point
    may not be followed by what digits go on with. -/
theorem number_rewritten {w r : List Char} {v : Number}
    (h : longest (w ++ r) = (.number, w.length)) (hv : IsLegible v)
    (hgoes : '.' ∈ w → (∃ n, v = .int n) → begins continuesNumber r = false) :
    ∀ r', EndsLike r r' → longest (v.chars ++ r') = (.number, v.chars.length) := by
  intro r' hlike
  have hdigit := begins_isDigit_of_number h
  refine hv.longest (hlike.begins common_isDigit hdigit) fun hint =>
    hlike.begins common_continuesNumber ?_
  by_cases hpoint : '.' ∈ w
  · exact hgoes hpoint hint
  · have hdigits := isDigit_of_number h hpoint
    obtain ⟨-, hpos, hle⟩ := longestOf_of_longest h (by decide)
    have hne := List.length_pos_iff.mp hpos
    exact begins_continuesNumber.mpr
      ⟨begins_point_of_numberLength hdigits hne (hle (.number, numberLength) (by simp [rules])),
        (begins_of_digits hle hne hdigits).2⟩

/-! ## Faces -/

/-- A text that is the faces of dice where another one follows. -/
def IsFaces (faces r : List Char) : Prop :=
  (∃ f, faces = [f] ∧ isFaceLetter f = true) ∨
    (faces ≠ [] ∧ (∀ c ∈ faces, c.isDigit = true) ∧ begins Char.isDigit r = false)

theorem eq_of_isFaceLetter {f : Char} (h : isFaceLetter f = true) :
    f = 'c' ∨ f = 'C' ∨ f = 'f' ∨ f = 'F' := by
  simpa [isFaceLetter, or_assoc] using h

theorem isFaceLetter_of_isDigit {c : Char} (hc : c.isDigit = true) : isFaceLetter c = false := by
  cases h : isFaceLetter c with
  | false => rfl
  | true => rcases eq_of_isFaceLetter h with rfl | rfl | rfl | rfl <;> cases hc

theorem isDiceLetter_of_isDigit {c : Char} (hc : c.isDigit = true) : isDiceLetter c = false := by
  have hd : c ≠ 'd' := ne_of_isDigit hc rfl
  have hD : c ≠ 'D' := ne_of_isDigit hc rfl
  simp [isDiceLetter, hd, hD]

section

variable {faces r : List Char}

theorem IsFaces.ne_nil (h : IsFaces faces r) : faces ≠ [] := by
  obtain ⟨f, rfl, -⟩ | ⟨hne, -, -⟩ := h
  · exact List.cons_ne_nil f []
  · exact hne

theorem IsFaces.facesLength (h : IsFaces faces r) : facesLength (faces ++ r) = faces.length := by
  obtain ⟨f, rfl, hf⟩ | ⟨hne, hdigits, hr⟩ := h
  · exact facesLength_cons_of_face hf r
  · obtain ⟨c, faces, rfl⟩ := List.exists_cons_of_ne_nil hne
    have hc : isFaceLetter c = false := isFaceLetter_of_isDigit (hdigits c List.mem_cons_self)
    rw [facesLength_of_not_face (v := c :: faces ++ r) hc, runLength_append_of_all hdigits,
      runLength_of_begins hr, Nat.add_zero]

theorem IsFaces.runLength (h : IsFaces faces r) :
    max 1 (runLength Char.isDigit (faces ++ r)) = faces.length := by
  obtain ⟨f, rfl, hf⟩ | ⟨hne, hdigits, hr⟩ := h
  · have hdigit : f.isDigit = false := by
      rcases eq_of_isFaceLetter hf with rfl | rfl | rfl | rfl <;> rfl
    have hrun : Formula.runLength Char.isDigit (f :: r) = 0 := runLength_of_begins hdigit
    rw [List.singleton_append, hrun]
    rfl
  · have hpos := List.length_pos_iff.mpr hne
    rw [runLength_append_of_all hdigits, runLength_of_begins hr]
    omega

/-- Faces before a text are faces before what it begins with. -/
theorem IsFaces.of_append {suffix : List Char} (h : IsFaces faces (suffix ++ r)) :
    IsFaces faces suffix := by
  refine h.imp_right fun ⟨hne, hdigits, hr⟩ => ⟨hne, hdigits, ?_⟩
  cases suffix with
  | nil => rfl
  | cons c suffix => exact hr

/-- What has faces at its head is faces and a rest. -/
theorem exists_isFaces {v : List Char} (hne : Formula.facesLength (v ++ r) ≠ 0)
    (hle : Formula.facesLength (v ++ r) ≤ v.length) :
    ∃ faces suffix, v = faces ++ suffix ∧ IsFaces faces (suffix ++ r) := by
  obtain _ | ⟨f, v⟩ := v
  · exact absurd (Nat.le_zero.mp hle) hne
  cases hf : isFaceLetter f with
  | true => exact ⟨[f], v, rfl, .inl ⟨f, rfl, hf⟩⟩
  | false =>
    rw [facesLength_of_not_face (v := f :: v ++ r) hf] at hne hle
    obtain hall | ⟨u, c, u', huv, hu, hc⟩ := all_or_split Char.isDigit (f :: v)
    · rw [runLength_append_of_all hall] at hle
      have hzero : Formula.runLength Char.isDigit r = 0 := by omega
      exact ⟨f :: v, [], (List.append_nil _).symm,
        .inr ⟨List.cons_ne_nil f v, hall, begins_of_runLength hzero⟩⟩
    · refine ⟨u, c :: u', huv, .inr ⟨?_, hu, hc⟩⟩
      rintro rfl
      rw [huv, List.nil_append, List.cons_append] at hne
      exact hne (runLength_of_begins hc)

end

/-! ## Dice -/

/-- A dice literal whose number is made of digits, taken apart. -/
theorem splitDice_append {u faces suffix : List Char} (hu : ∀ c ∈ u, c.isDigit = true) {d : Char}
    (hd : isDiceLetter d = true) (hfaces : IsFaces faces suffix) :
    splitDice (u ++ d :: (faces ++ suffix)) = (u, faces, suffix) := by
  have hletters : ∀ c ∈ u, (!isDiceLetter c) = true := by
    intro c hc
    rw [isDiceLetter_of_isDigit (hu c hc)]
    rfl
  have htake : (u ++ d :: (faces ++ suffix)).takeWhile (!isDiceLetter ·) = u := by
    rw [List.takeWhile_append_of_pos hletters, List.takeWhile_cons, hd]
    exact List.append_nil u
  have hdrop : (u ++ d :: (faces ++ suffix)).dropWhile (!isDiceLetter ·) =
      d :: (faces ++ suffix) := by
    rw [List.dropWhile_append_of_pos hletters, List.dropWhile_cons, hd]
    rfl
  simp only [splitDice, htake, hdrop, List.drop_succ_cons, List.drop_zero, hfaces.runLength,
    List.take_left, List.drop_left]

/-- A dice literal is a number, a letter, faces and a suffix. -/
theorem dice_parts {w r : List Char} (h : longest (w ++ r) = (.dice, w.length)) :
    ∃ u d faces suffix, w = u ++ d :: (faces ++ suffix) ∧ (∀ c ∈ u, c.isDigit = true) ∧
      isDiceLetter d = true ∧ IsFaces faces (suffix ++ r) ∧
      suffixLength .between (suffix ++ r) = suffix.length := by
  have hlength : diceLength (w ++ r) = w.length := (length_of_longest h rfl).1
  obtain ⟨-, hpos, hle⟩ := longestOf_of_longest h (by decide)
  obtain hall | ⟨u, d, v, rfl, hu, hd⟩ := all_or_split Char.isDigit w
  · -- digits alone are no dice, since no letter follows them
    obtain ⟨hdigit, hletter⟩ := begins_of_digits hle (List.length_pos_iff.mp hpos) hall
    rw [diceLength_of_all hall hdigit hletter] at hlength
    omega
  rw [List.append_assoc, List.cons_append, diceLength_append_cons hu hd, List.length_append,
    List.length_cons] at hlength
  have hletter : isDiceLetter d = true := by
    by_contra hletter
    rw [if_neg hletter] at hlength
    omega
  rw [if_pos hletter] at hlength
  have hfaces : facesLength (v ++ r) ≠ 0 := by
    intro hzero
    rw [hzero, if_pos (by rfl)] at hlength
    omega
  rw [if_neg (by simpa using hfaces)] at hlength
  obtain ⟨faces, suffix, rfl, hisFaces⟩ := exists_isFaces hfaces (by omega)
  refine ⟨u, d, faces, suffix, rfl, hu, hletter, hisFaces, ?_⟩
  rw [List.append_assoc, hisFaces.facesLength, List.drop_left, List.length_append] at hlength
  omega

/-- The faces of dice as they are written. -/
def facesChars : Denomination → List Char
  | .die n => natChars n
  | .coin => ['c']
  | .fate => ['f']

theorem toList_text (d : Denomination) : d.text.toList = 'd' :: facesChars d := by
  cases d with
  | die n => simp [Denomination.text, facesChars, natText]
  | coin => rfl
  | fate => rfl

theorem ofFaces?_of_isDigit {faces : List Char} (hne : faces ≠ [])
    (hdigits : ∀ c ∈ faces, c.isDigit = true) {d : Denomination} :
    Denomination.ofFaces? faces = some d ↔
      ∃ n, nat32? faces = some (n + 1) ∧ d = .die (n + 1) := by
  obtain ⟨c, faces, rfl⟩ := List.exists_cons_of_ne_nil hne
  have hc := hdigits c List.mem_cons_self
  unfold Denomination.ofFaces?
  split
  iterate 4
    next heq =>
      cases heq
      cases hc
  split
  · next n hn =>
    rw [hn]
    constructor
    · rintro ⟨⟩
      exact ⟨n, rfl, rfl⟩
    · rintro ⟨m, hm, rfl⟩
      cases hm
      rfl
  · next hnot =>
    constructor
    · exact nofun
    · rintro ⟨n, hn, -⟩
      exact absurd hn (hnot n)

/-- Faces that are written are read as the denomination they were read as before. -/
theorem faces_rewritten {faces r r' : List Char} {d : Denomination} (hfaces : IsFaces faces r)
    (hd : Denomination.ofFaces? faces = some d)
    (hr : begins Char.isDigit r = false → begins Char.isDigit r' = false) :
    Denomination.ofFaces? (facesChars d) = some d ∧ IsFaces (facesChars d) r' := by
  obtain ⟨f, rfl, hf⟩ | ⟨hne, hdigits, hdigit⟩ := hfaces
  · rcases eq_of_isFaceLetter hf with rfl | rfl | rfl | rfl <;> cases hd <;>
      exact ⟨rfl, .inl ⟨_, rfl, rfl⟩⟩
  · obtain ⟨n, hn, rfl⟩ := (ofFaces?_of_isDigit hne hdigits).mp hd
    have hchars : ∀ c ∈ natChars (n + 1), c.isDigit = true := fun c hc => isDigit_of_mem_natChars hc
    exact ⟨(ofFaces?_of_isDigit (natChars_ne_nil _) hchars).mpr
      ⟨n, nat32?_natChars (nat32?_le hn), rfl⟩, .inr ⟨natChars_ne_nil _, hchars, hr hdigit⟩⟩

/-- Dice as they are written. -/
def diceChars (count : Nat) (d : Denomination) (ms : List Modifier) : List Char :=
  natChars count ++ 'd' :: (facesChars d ++ (modifiersText ms).toList)

theorem diceCount?_natChars {u : List Char} {count : Nat} (h : diceCount? u = some count) :
    diceCount? (natChars count) = some count := by
  have hle : count ≤ maxNat64 := by
    unfold diceCount? at h
    split at h
    · cases h
      decide
    · exact nat64?_le h
  rw [diceCount?, if_neg (by simpa using natChars_ne_nil count), nat64?_natChars hle]

/-- Dice are written with their number and a small letter. -/
theorem dice_rewritten {w r : List Char} {n : Node}
    (h : longest (w ++ r) = (.dice, w.length)) (hn : diceOfLiteral? w = some n) :
    ∃ count d ms, n = .dice count d ms ∧ diceOfLiteral? (diceChars count d ms) = some n ∧
      ∀ r', EndsLike r r' →
        longest (diceChars count d ms ++ r') = (.dice, (diceChars count d ms).length) := by
  obtain ⟨u, letter, faces, suffix, rfl, hu, hletter, hfaces, hsuffix⟩ := dice_parts h
  have hbegins : ∀ r', EndsLike r r' → begins Char.isDigit (suffix ++ r) = false →
      begins Char.isDigit (suffix ++ r') = false := by
    intro r' hlike hdigit
    cases suffix with
    | nil => exact hlike.begins common_isDigit hdigit
    | cons c suffix => exact hdigit
  have hplain : IsFaces faces suffix := hfaces.of_append
  simp only [diceOfLiteral?, splitDice_append hu hletter hplain, Option.bind_eq_bind,
    Option.bind_eq_some_iff] at hn
  obtain ⟨count, hcount, d, hd, ms, hms, hn⟩ := hn
  cases hn
  have hok : Modifier.ofSuffix (.ofDenomination d) suffix = .ok ms := by
    cases hresult : Modifier.ofSuffix (.ofDenomination d) suffix with
    | error e =>
      rw [hresult] at hms
      cases hms
    | ok ms' =>
      rw [hresult] at hms
      cases hms
      rfl
  have htext := Modifier.modifiersText_of_ofSuffix hok
  have hcountChars : ∀ c ∈ natChars count, c.isDigit = true :=
    fun c hc => isDigit_of_mem_natChars hc
  refine ⟨count, d, ms, rfl, ?_, fun r' hlike => ?_⟩
  · obtain ⟨hread, hisFaces⟩ := @faces_rewritten faces suffix suffix d hplain hd id
    rw [diceChars, htext]
    simp only [diceOfLiteral?, splitDice_append hcountChars (show isDiceLetter 'd' = true from rfl)
      hisFaces, Option.bind_eq_bind, diceCount?_natChars hcount, Option.bind_some, hread, hms]
    rfl
  · obtain ⟨-, hisFaces⟩ := faces_rewritten hfaces hd (hbegins r' hlike)
    rw [diceChars, htext]
    have hlocal : suffixLength .between (suffix ++ r') = suffixLength .between (suffix ++ r) :=
      suffixLength_local hlike (by omega)
    refine longest_dice hcountChars (natChars_ne_nil count) ?_ ?_
    · rw [List.append_assoc, hisFaces.facesLength]
      exact fun hzero => hisFaces.ne_nil (List.length_eq_zero_iff.mp hzero)
    · rw [List.append_assoc, hisFaces.facesLength, List.drop_left, hlocal, hsuffix,
        List.length_append]

end DiceNotation.Formula
