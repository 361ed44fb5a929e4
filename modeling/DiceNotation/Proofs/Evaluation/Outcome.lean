/-
  DiceNotation.Proofs.Evaluation.Outcome

  What holds of the outcome of a plan, whatever it is answered.

  `Plan.Always` relates the outcomes of a plan to the number of dice that it asked
  for, with every answer allowed; so it holds of a plan that is carried out at once
  (`Plan.Always.runNow`) and of one that is carried on step by step
  (`Plan.Always.advance`). `Evaluation.Spends` is the same for the successful
  outcomes of an evaluation, with one rule for each way to build one.
-/

import DiceNotation.Proofs.Evaluation.Advance
import DiceNotation.Proofs.Evaluation.Composed

namespace DiceNotation

variable {σ α β : Type} [Roller σ]

/-! ## Plans -/

namespace Plan

/-- Whatever a plan is answered, it ends after `n` dice with an outcome `a` that meets
    `P n a`. -/
def Always : (Nat → α → Prop) → Plan α → Prop
  | P, done a => P 0 a
  | P, enter _ next => ∀ answer, (next answer).Always P
  | P, draw _ _ next => ∀ answer, (next answer).Always fun n => P (n + 1)
  | P, leave _ next => next.Always P

theorem always_true (p : Plan α) : p.Always fun _ _ => True := by
  induction p with
  | done a => trivial
  | enter dice next ih => exact ih
  | draw d t next ih => exact ih
  | leave t next ih => exact ih

theorem Always.mono {p : Plan α} {P Q : Nat → α → Prop} (h : p.Always P)
    (hPQ : ∀ n a, P n a → Q n a) : p.Always Q := by
  induction p generalizing P Q with
  | done a => exact hPQ 0 a h
  | enter dice next ih => exact fun answer => ih answer (h answer) hPQ
  | draw d t next ih => exact fun answer => ih answer (h answer) fun n => hPQ (n + 1)
  | leave t next ih => exact ih h hPQ

/-- The dice of a plan and of the one that follows are added. -/
theorem always_bind (P : Nat → β → Prop) (p : Plan α) (f : α → Plan β) :
    (p.bind f).Always P ↔ p.Always fun n a => (f a).Always fun m => P (n + m) := by
  induction p generalizing P with
  | done a => simp only [bind, Always, Nat.zero_add]
  | enter dice next ih => exact forall_congr' fun answer => ih answer P
  | draw d t next ih =>
    refine forall_congr' fun answer => (ih answer _).trans ?_
    simp only [Nat.add_right_comm]
  | leave t next ih => exact ih P

/-- At once, the dice that a plan asks for are those that the context counts. -/
theorem Always.runNow {P : Nat → α → Prop} {p : Plan α} (h : p.Always P)
    (o : EvaluationOptions) (c : Context σ) :
    ∃ n, (p.runNow o c).2.rolls = c.rolls + n ∧ P n (p.runNow o c).1 := by
  induction p generalizing P c with
  | done a => exact ⟨0, rfl, h⟩
  | enter dice next ih => exact ih _ (h _) c
  | leave t next ih => exact ih h c
  | draw d t next ih =>
    have hnext : ∀ answer (c₁ : Context σ), c₁.rolls = c.rolls + 1 →
        ∃ n, ((next answer).runNow o c₁).2.rolls = c.rolls + n ∧
          P n ((next answer).runNow o c₁).1 := by
      intro answer c₁ hc
      obtain ⟨n, hrolls, hn⟩ := ih answer (h answer) c₁
      exact ⟨n + 1, by omega, hn⟩
    simp only [Plan.runNow]
    split
    · exact hnext _ _ rfl
    · refine hnext _ _ ?_
      unfold drawNow
      split <;> rfl

/-- A plan keeps its configuration and its functions. -/
theorem runNow_context (p : Plan α) (o : EvaluationOptions) (c : Context σ) :
    (p.runNow o c).2.config = c.config ∧ (p.runNow o c).2.functions = c.functions := by
  induction p generalizing c with
  | done a => exact ⟨rfl, rfl⟩
  | enter dice next ih => exact ih _ c
  | leave t next ih => exact ih c
  | draw d t next ih =>
    simp only [Plan.runNow, drawNow]
    split
    · exact ih _ _
    · split <;> exact ih _ _

end Plan

/-- What holds of every outcome that a suspended plan has or may come to. -/
def Suspended.Always (P : α → Prop) : Suspended α → Prop
  | finished a => P a
  | waiting _ _ next => ∀ answer, (next answer).Always fun _ => P

/-- A plan that is carried on comes to no other outcomes. -/
theorem Plan.Always.advance {P : α → Prop} {p : Plan α} (h : p.Always fun _ => P)
    {o : EvaluationOptions} {c c' : Context σ} {k k' : Coordinator} {log : List Draw}
    {s : Suspended α} (ha : Advances o p c k log s c' k') : s.Always P := by
  induction ha with
  | done a => exact h
  | untracked _ ih => exact ih (h _)
  | tracked _ _ _ _ ih => exact ih (h _)
  | leave _ ih => exact ih h
  | tooMany _ _ ih => exact ih (h _)
  | pinned _ _ _ _ ih => exact ih (h _)
  | rolled _ _ _ ih => exact ih (h _)
  | refused _ _ _ _ ih => exact ih (h _)
  | requested => exact h

/-- A suspended plan that is polled comes to no other outcomes. -/
theorem Suspended.Always.poll {P : α → Prop} {s : Suspended α} (h : s.Always P)
    (o : EvaluationOptions) (c : Context σ) (k : Coordinator) : (s.poll o c k).1.Always P := by
  cases s with
  | finished a => exact h
  | waiting id d next =>
    simp only [Suspended.poll]
    split
    · exact h
    · exact (h _).advance (Plan.advances o _ c _)
    · exact (h _).advance (Plan.advances o _ c _)

/-! ## Evaluations -/

namespace Evaluation

/-- Whatever an evaluation is answered, if it succeeds after `n` dice with `a`, then `P n a`
    holds. -/
def Spends (e : Evaluation α) (P : Nat → α → Prop) : Prop :=
  e.run.Always fun n outcome => ∀ a, outcome = .ok a → P n a

variable {P Q : Nat → α → Prop} {e : Evaluation α}

theorem Spends.mono (h : Spends e P) (hPQ : ∀ n a, P n a → Q n a) : Spends e Q :=
  Plan.Always.mono h fun n _ hn a ha => hPQ n a (hn a ha)

/-- Nothing is said of an evaluation. -/
theorem spends_true (e : Evaluation α) : Spends e fun _ _ => True :=
  Plan.Always.mono (Plan.always_true e.run) fun _ _ _ _ _ => trivial

theorem spends_pure {a : α} (h : P 0 a) : Spends (pure a) P := by
  rintro _ ⟨⟩
  exact h

theorem spends_throw (e : RollError) : Spends (throw e) P := nofun

theorem spends_liftExcept {x : Except RollError α} (h : ∀ a, x = .ok a → P 0 a) :
    Spends (rollWith.liftExcept x) P := h

theorem Spends.bind {R : Nat → β → Prop} {f : α → Evaluation β} (h : Spends e P)
    (hf : ∀ n a, P n a → Spends (f a) fun m => R (n + m)) : Spends (e >>= f) R := by
  refine (Plan.always_bind _ _ _).mpr (Plan.Always.mono h fun n outcome hn => ?_)
  cases outcome with
  | ok a => exact hf n a (hn a rfl)
  | error e => exact nofun

theorem spends_enter (d : Dice) : Spends (enter d) fun n _ => n = 0 := fun _ _ _ => rfl

theorem spends_draw (d : Denomination) (ticket : Option Ticket) :
    Spends (draw d ticket) fun n _ => n = 1 := fun _ _ _ => rfl

/-- Giving a ticket back asks for no dice. -/
theorem Spends.returning (h : Spends e P) (ticket : Option Ticket) :
    Spends (returning ticket e) P := by
  cases ticket with
  | none => exact h
  | some t => exact (Plan.always_bind _ _ _).mpr h

end Evaluation

/-! ## Rolls at once -/

theorem Roll.evaluateNow_of_refuseNow {r : Roll} {o : EvaluationOptions}
    (h : r.refuseNow o = .ok ()) (c : Context σ) :
    r.evaluateNow o c =
      (Evaluation.roll ⟨o, c.functions, true⟩ r).run.runNow o c.restart := by
  rw [Roll.evaluateNow, h]

theorem Roll.refuseNow_of_evaluateNow {r : Roll} {o : EvaluationOptions} {c c' : Context σ}
    {x : Roll × Number} (h : r.evaluateNow o c = (.ok x, c')) : r.refuseNow o = .ok () := by
  unfold Roll.evaluateNow at h
  split at h
  · cases h
  · assumption

end DiceNotation
