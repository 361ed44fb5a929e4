/-
  DiceNotation.Proofs.Evaluation.Fair

  Plans that are told values in the range of their dice.

  A roller that picks faces of the dice it is asked for tells a plan fairly, and so do
  options that fix the dice and a coordinator that checks what is submitted. `Plan.Fairly`
  says what a plan comes to as long as it is told fairly, at once
  (`Plan.Fairly.runNow`) or step by step (`Plan.Fairly.advance`), and
  `Evaluation.Ensures` the same of the successful outcomes of an evaluation.
-/

import DiceNotation.Proofs.Evaluation.Advance
import DiceNotation.Proofs.Evaluation.Yield

namespace DiceNotation

variable {σ α β : Type} [Roller σ]

/-! ## Fair answers -/

/-- A value that a die is told to show is one that it can show, as long as it has faces. -/
def Denomination.Fair (d : Denomination) (answer : Except RollError Int) : Prop :=
  ∀ v, answer = .ok v → 0 < d.faces → d.canShow v = true

theorem Denomination.fair_error (d : Denomination) (e : RollError) : d.Fair (.error e) := nofun

/-- A roller that picks one of the faces that it is asked for. -/
def Roller.Fair (σ : Type) [Roller σ] : Prop :=
  ∀ (sides : Nat) (r : σ), 1 ≤ sides →
    1 ≤ (Roller.roll sides r).1 ∧ (Roller.roll sides r).1 ≤ sides

/-- A fair roller tells dice fairly. -/
theorem Roller.Fair.rollDie (h : Roller.Fair σ) (d : Denomination) (c : Context σ) :
    d.Fair (.ok (c.rollDie d).1) := by
  rintro _ ⟨⟩ hfaces
  obtain ⟨hlow, hhigh⟩ := h d.faces c.roller hfaces
  exact Denomination.canShow_valueOf hlow hhigh

/-- A die is fixed to its least or its greatest value. -/
theorem EvaluationOptions.fair_pinnedValue? {o : EvaluationOptions} {d : Denomination} {v : Int}
    (h : o.pinnedValue? d = some v) : d.Fair (.ok v) := by
  rintro _ ⟨⟩ hfaces
  unfold pinnedValue? at h
  split at h
  · cases h
    exact Denomination.canShow_valueOf (Nat.le_refl 1) hfaces
  · split at h
    · cases h
      exact Denomination.canShow_valueOf hfaces (Nat.le_refl _)
    · cases h

/-! ## Plans -/

namespace Plan

/-- A plan comes to an outcome that meets `P` as long as it is told fairly of its dice. -/
def Fairly (P : α → Prop) : Plan α → Prop
  | done a => P a
  | enter _ next => ∀ answer, (next answer).Fairly P
  | draw d _ next => ∀ answer, d.Fair answer → (next answer).Fairly P
  | leave _ next => next.Fairly P

variable {P : α → Prop} {Q : β → Prop}

theorem Fairly.bind {p : Plan α} {f : α → Plan β} (h : p.Fairly P)
    (hf : ∀ a, P a → (f a).Fairly Q) : (p.bind f).Fairly Q := by
  induction p with
  | done a => exact hf a h
  | enter dice next ih => exact fun answer => ih answer (h answer)
  | draw d t next ih => exact fun answer hanswer => ih answer (h answer hanswer)
  | leave t next ih => exact ih h

/-- What holds whatever a plan is told holds when it is told fairly. -/
theorem Told.fairly {R : List (Denomination × Except RollError Int) → α → Prop} {p : Plan α}
    (h : p.Told R) (hR : ∀ log a, (∀ x ∈ log, x.1.Fair x.2) → R log a → P a) : p.Fairly P := by
  induction p generalizing R with
  | done a => exact hR [] a nofun h
  | enter dice next ih => exact fun answer => ih answer (h answer) hR
  | draw d t next ih =>
    intro answer hanswer
    exact ih answer (h answer) fun log a hlog =>
      hR (_ :: log) a (List.forall_mem_cons.mpr ⟨hanswer, hlog⟩)
  | leave t next ih => exact ih h hR

/-- A fair roller tells a plan fairly. -/
theorem Fairly.runNow (hroller : Roller.Fair σ) {p : Plan α} (h : p.Fairly P)
    (o : EvaluationOptions) (c : Context σ) : P (p.runNow o c).1 := by
  induction p generalizing c with
  | done a => exact h
  | enter dice next ih => exact ih _ (h _) c
  | leave t next ih => exact ih h c
  | draw d t next ih =>
    simp only [Plan.runNow]
    split
    · exact ih _ (h _ (d.fair_error _)) _
    · refine ih _ (h _ ?_) _
      unfold drawNow
      split
      · exact EvaluationOptions.fair_pinnedValue? ‹_›
      · exact hroller.rollDie d _

end Plan

/-- A suspended plan has come or will come to an outcome that meets `P` as long as it is told
    fairly. -/
def Suspended.Fairly (P : α → Prop) : Suspended α → Prop
  | finished a => P a
  | waiting _ d next => ∀ answer, d.Fair answer → (next answer).Fairly P

/-- A plan is told fairly until it waits. -/
theorem Plan.Fairly.advance (hroller : Roller.Fair σ) {P : α → Prop} {p : Plan α}
    (h : p.Fairly P) {o : EvaluationOptions} {c c' : Context σ} {k k' : Coordinator}
    {log : List Draw} {s : Suspended α} (ha : Advances o p c k log s c' k') : s.Fairly P := by
  induction ha with
  | done a => exact h
  | untracked _ ih => exact ih (h _)
  | tracked _ _ _ _ ih => exact ih (h _)
  | leave _ ih => exact ih h
  | @tooMany d _ _ _ _ _ _ _ _ _ _ ih => exact ih (h _ (d.fair_error _))
  | pinned v hmany hpin _ ih => exact ih (h _ (EvaluationOptions.fair_pinnedValue? hpin))
  | rolled hmany hpin _ ih => exact ih (h _ (hroller.rollDie _ _))
  | @refused d _ _ _ _ _ _ _ _ _ _ _ _ ih => exact ih (h _ (d.fair_error _))
  | requested => exact h

/-! ## Evaluations -/

namespace Evaluation

/-- As long as an evaluation is told fairly of its dice, if it succeeds with `a`, then `P a`
    holds. -/
def Ensures (e : Evaluation α) (P : α → Prop) : Prop :=
  e.run.Fairly fun outcome => ∀ a, outcome = .ok a → P a

variable {P : α → Prop} {e : Evaluation α}

/-- What an evaluation yields with dice that all show possible values. -/
theorem Yields.ensures {R : List (Denomination × Int) → α → Prop} (h : Yields e R)
    (hR : ∀ drawn a, (∀ x ∈ drawn, 0 < x.1.faces → x.1.canShow x.2 = true) → R drawn a → P a) :
    Ensures e P := by
  refine Plan.Told.fairly h fun log outcome hlog houtcome a ha => ?_
  obtain ⟨drawn, rfl, hdrawn⟩ := houtcome a ha
  refine hR drawn a (fun x hx => ?_) hdrawn
  exact hlog (told x) (List.mem_map_of_mem hx) x.2 rfl

theorem ensures_pure {a : α} (h : P a) : Ensures (pure a) P := by
  rintro _ ⟨⟩
  exact h

theorem ensures_throw (e : RollError) : Ensures (throw e) P := nofun

theorem ensures_liftExcept (x : Except RollError α) :
    Ensures (rollWith.liftExcept x) fun _ => True := fun _ _ => trivial

theorem Ensures.bind {R : β → Prop} {f : α → Evaluation β} (h : Ensures e P)
    (hf : ∀ a, P a → Ensures (f a) R) : Ensures (e >>= f) R := by
  refine Plan.Fairly.bind h fun outcome houtcome => ?_
  cases outcome with
  | ok a => exact hf a (houtcome a rfl)
  | error e => exact nofun

end Evaluation

end DiceNotation
