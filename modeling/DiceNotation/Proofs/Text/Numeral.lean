/-
  DiceNotation.Proofs.Text.Numeral

  Numerals that are written are read back.

  The digits of a number within the range of a numeral are read as that number
  (`nat32?_natChars`, `nat64?_natChars`, `int64?_natChars`).
-/

import DiceNotation.Text.Numeral

namespace DiceNotation.Text

/-! ## Digits -/

theorem isDigit_of_mem_natChars {n : Nat} {c : Char} (h : c ∈ natChars n) : c.isDigit = true :=
  Nat.isDigit_of_mem_toDigits (by decide) (by decide) h

theorem natChars_ne_nil (n : Nat) : natChars n ≠ [] := Nat.toDigits_ne_nil

/-- The digits of a number begin with one. -/
theorem natChars_eq_cons (n : Nat) :
    ∃ c rest, natChars n = c :: rest ∧ c.isDigit = true := by
  cases h : natChars n with
  | nil => exact absurd h (natChars_ne_nil n)
  | cons c rest =>
    refine ⟨c, rest, rfl, isDigit_of_mem_natChars (n := n) ?_⟩
    rw [h]
    exact List.mem_cons_self

theorem le_ofDigitChars (cs : List Char) (acc : Nat) : acc ≤ Nat.ofDigitChars 10 cs acc := by
  induction cs generalizing acc with
  | nil => simp
  | cons c rest ih =>
    rw [Nat.ofDigitChars_cons]
    have h := ih (10 * acc + (c.toNat - '0'.toNat))
    omega

/-- Digits are read as their number when it is within the limit. -/
theorem readDigits_eq_ok {limit : Nat} {beyond : NumeralError} {acc : Nat} {cs : List Char}
    (hdigits : ∀ c ∈ cs, c.isDigit = true) (hle : Nat.ofDigitChars 10 cs acc ≤ limit) :
    readDigits limit beyond acc cs = .ok (Nat.ofDigitChars 10 cs acc) := by
  induction cs generalizing acc with
  | nil => simp [readDigits]
  | cons c rest ih =>
    rw [Nat.ofDigitChars_cons] at hle ⊢
    have hc : digitValue? c = some (c.toNat - '0'.toNat) := by
      rw [digitValue?, if_pos (hdigits c List.mem_cons_self)]
    have hnow : 10 * acc + (c.toNat - '0'.toNat) ≤ limit :=
      Nat.le_trans (le_ofDigitChars rest _) hle
    rw [readDigits, hc]
    simp only [hnow, if_true]
    exact ih (fun d hd => hdigits d (List.mem_cons_of_mem _ hd)) hle

/-! ## Numerals -/

theorem readMagnitude_natChars {limit : Nat} (beyond : NumeralError) {n : Nat} (h : n ≤ limit) :
    readMagnitude limit beyond (natChars n) = .ok n := by
  have hvalue : Nat.ofDigitChars 10 (natChars n) 0 = n := Nat.ofDigitChars_ten_toDigits
  obtain ⟨c, rest, hcs, -⟩ := natChars_eq_cons n
  have hread := @readDigits_eq_ok limit beyond 0 _
    (fun c hc => isDigit_of_mem_natChars (n := n) hc) (by rw [hvalue]; exact h)
  rw [hvalue] at hread
  rw [hcs] at hread ⊢
  exact hread

theorem readMagnitude_le {limit : Nat} {beyond : NumeralError} {cs : List Char} {n : Nat}
    (h : readMagnitude limit beyond cs = .ok n) : n ≤ limit := by
  cases cs with
  | nil => cases h
  | cons c rest => exact readDigits_le (Nat.zero_le limit) h

theorem readNat_natChars {limit n : Nat} (h : n ≤ limit) : readNat limit (natChars n) = .ok n := by
  obtain ⟨c, rest, hcs, hc⟩ := natChars_eq_cons n
  rw [← readMagnitude_natChars .tooLarge h, hcs, readNat]
  · exact nofun
  · rintro rest' heq
    cases heq
    exact absurd hc (by decide)

theorem readNat_le {limit : Nat} {cs : List Char} {n : Nat} (h : readNat limit cs = .ok n) :
    n ≤ limit := by
  unfold readNat at h
  split at h
  · cases h
  · exact readMagnitude_le h
  · exact readMagnitude_le h

theorem nat32?_natChars {n : Nat} (h : n ≤ maxNat32) : nat32? (natChars n) = some n := by
  rw [nat32?, readNat_natChars h]
  rfl

theorem nat64?_natChars {n : Nat} (h : n ≤ maxNat64) : nat64? (natChars n) = some n := by
  rw [nat64?, readNat_natChars h]
  rfl

theorem nat32?_le {cs : List Char} {n : Nat} (h : nat32? cs = some n) : n ≤ maxNat32 := by
  unfold nat32? at h
  cases hread : readNat maxNat32 cs with
  | error e =>
    rw [hread] at h
    cases h
  | ok m =>
    rw [hread] at h
    cases h
    exact readNat_le hread

theorem nat64?_le {cs : List Char} {n : Nat} (h : nat64? cs = some n) : n ≤ maxNat64 := by
  unfold nat64? at h
  cases hread : readNat maxNat64 cs with
  | error e =>
    rw [hread] at h
    cases h
  | ok m =>
    rw [hread] at h
    cases h
    exact readNat_le hread

/-- A text that begins with a digit is read as a natural number, if at all. -/
theorem readInt64_of_isDigit {c : Char} {rest : List Char} (hc : c.isDigit = true) :
    readInt64 (c :: rest) =
      Int.ofNat <$> readMagnitude (Nat.pow 2 63 - 1) .tooLarge (c :: rest) := by
  rw [readInt64]
  · exact nofun
  · rintro rest' heq
    cases heq
    exact absurd hc (by decide)
  · rintro rest' heq
    cases heq
    exact absurd hc (by decide)

theorem int64?_natChars {n : Nat} (h : n ≤ Nat.pow 2 63 - 1) :
    int64? (natChars n) = some (Int.ofNat n) := by
  obtain ⟨c, rest, hcs, hc⟩ := natChars_eq_cons n
  rw [int64?, hcs, readInt64_of_isDigit hc, ← hcs, readMagnitude_natChars .tooLarge h]
  rfl

/-- Digits are read as a natural number that fits. -/
theorem int64?_of_isDigit {c : Char} {rest : List Char} {m : Int} (hc : c.isDigit = true)
    (h : int64? (c :: rest) = some m) : ∃ n, m = Int.ofNat n ∧ n ≤ Nat.pow 2 63 - 1 := by
  rw [int64?, readInt64_of_isDigit hc] at h
  cases hread : readMagnitude (Nat.pow 2 63 - 1) .tooLarge (c :: rest) with
  | error e =>
    rw [hread] at h
    cases h
  | ok n =>
    rw [hread] at h
    cases h
    exact ⟨n, rfl, readMagnitude_le hread⟩

/-! ## Digits -/

theorem toOption_eq_some {ε α : Type} {x : Except ε α} {a : α} :
    x.toOption = some a ↔ x = .ok a := by
  cases x with
  | error e => exact ⟨nofun, nofun⟩
  | ok b => exact ⟨fun h => by cases h; rfl, fun h => by cases h; rfl⟩

section

variable {cs : List Char} (hne : cs ≠ []) (hdigits : ∀ c ∈ cs, c.isDigit = true)

include hdigits

theorem ofDigitChars_of_readDigits {limit acc n : Nat} {beyond : NumeralError}
    (h : readDigits limit beyond acc cs = .ok n) : n = Nat.ofDigitChars 10 cs acc := by
  induction cs generalizing acc with
  | nil =>
    cases h
    rfl
  | cons c rest ih =>
    obtain ⟨hc, hrest⟩ := List.forall_mem_cons.mp hdigits
    rw [readDigits, digitValue?, if_pos hc] at h
    simp only at h
    split at h
    · rw [Nat.ofDigitChars_cons]
      exact ih hrest h
    · cases h

include hne

/-- Digits are read as their number, if it is within the limit. -/
theorem readMagnitude_iff {limit n : Nat} {beyond : NumeralError} :
    readMagnitude limit beyond cs = .ok n ↔ n = Nat.ofDigitChars 10 cs 0 ∧ n ≤ limit := by
  have heq : readMagnitude limit beyond cs = readDigits limit beyond 0 cs := by
    cases cs with
    | nil => exact absurd rfl hne
    | cons c rest => rfl
  rw [heq]
  constructor
  · exact fun h => ⟨ofDigitChars_of_readDigits hdigits h, readDigits_le (Nat.zero_le limit) h⟩
  · rintro ⟨rfl, hle⟩
    exact readDigits_eq_ok hdigits hle

theorem readNat_iff {limit n : Nat} :
    readNat limit cs = .ok n ↔ n = Nat.ofDigitChars 10 cs 0 ∧ n ≤ limit := by
  have hread : readNat limit cs = readMagnitude limit .tooLarge cs := by
    obtain ⟨c, rest, rfl⟩ := List.exists_cons_of_ne_nil hne
    rw [readNat]
    · exact nofun
    · rintro rest' heq
      cases heq
      exact absurd (hdigits '+' List.mem_cons_self) (by decide)
  rw [hread, readMagnitude_iff hne hdigits]

theorem nat32?_iff {n : Nat} :
    nat32? cs = some n ↔ n = Nat.ofDigitChars 10 cs 0 ∧ n ≤ maxNat32 :=
  toOption_eq_some.trans (readNat_iff hne hdigits)

theorem nat64?_iff {n : Nat} :
    nat64? cs = some n ↔ n = Nat.ofDigitChars 10 cs 0 ∧ n ≤ maxNat64 :=
  toOption_eq_some.trans (readNat_iff hne hdigits)

theorem int64?_iff {m : Int} :
    int64? cs = some m ↔
      m = .ofNat (Nat.ofDigitChars 10 cs 0) ∧ Nat.ofDigitChars 10 cs 0 ≤ Nat.pow 2 63 - 1 := by
  have hread : int64? cs =
      ((readMagnitude (Nat.pow 2 63 - 1) .tooLarge cs).map Int.ofNat).toOption := by
    obtain ⟨c, rest, rfl⟩ := List.exists_cons_of_ne_nil hne
    rw [int64?, readInt64_of_isDigit (hdigits c List.mem_cons_self)]
    rfl
  rw [hread, toOption_eq_some]
  cases hmagnitude : readMagnitude (Nat.pow 2 63 - 1) .tooLarge cs with
  | error e =>
    refine ⟨nofun, fun ⟨_, hle⟩ => ?_⟩
    rw [(readMagnitude_iff hne hdigits).mpr ⟨rfl, hle⟩] at hmagnitude
    cases hmagnitude
  | ok n =>
    obtain ⟨rfl, hle⟩ := (readMagnitude_iff hne hdigits).mp hmagnitude
    exact ⟨fun h => ⟨by cases h; rfl, hle⟩, fun ⟨h, _⟩ => h ▸ rfl⟩

end

end DiceNotation.Text
