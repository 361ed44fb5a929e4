/-
  DiceNotation.Proofs.Evaluation.Composed

  What evaluations are made of.

  An evaluation asks for dice only through the evaluation of single dice terms
  (`Composed`), and a dice term only through the one way in which it draws a die
  (`Drawing`). What holds of results and failures, holds of dice and is kept when
  one evaluation follows another so holds of the evaluation of every roll
  (`composed_roll`).
-/

import DiceNotation.Evaluation.Roll

namespace DiceNotation.Evaluation

variable {α β : Type}

/-! ## Dice -/

/-- A computation on the results of a dice term, which reaches its surroundings through
    the drawing of one die only. -/
inductive Drawing : {α : Type} → (Evaluation Int → Evaluation α) → Prop where
  | pure {α : Type} (a : α) : Drawing fun _ => Pure.pure a
  /-- A pass that would inspect too many results fails. -/
  | tooMany {α : Type} : Drawing fun _ => (throw .tooManyRolls : Evaluation α)
  | one : Drawing fun one => one
  | bind {α β : Type} {e : Evaluation Int → Evaluation α} {f : α → Evaluation Int → Evaluation β}
      (he : Drawing e) (hf : ∀ a, Drawing (f a)) : Drawing fun one => e one >>= fun a => f a one

/-- Dice in a row are drawn one by one. -/
theorem drawing_drawMany (n : Nat) (drawn : List DieResult) :
    Drawing fun one => drawMany one n drawn := by
  induction n generalizing drawn with
  | zero => exact .pure drawn.reverse
  | succ n ih => exact .bind .one fun value => ih (.fresh value :: drawn)

/-- A pass draws dice one by one. -/
theorem drawing_through (p : Pass) (limit left : Nat) (behind ahead : List DieResult) :
    Drawing fun one => p.through one limit left behind ahead := by
  induction limit generalizing left behind ahead with
  | zero =>
    cases ahead with
    | nil => simpa only [Pass.through] using Drawing.pure behind.reverse
    | cons r ahead =>
      by_cases hhit : p.hits r = true <;> by_cases hlast : (!p.recursive && left ≤ 1) = true
      all_goals simp only [Pass.through, hhit, hlast, if_true, if_false, Bool.false_eq_true]
      · exact .bind .one fun value => .bind (.pure _) fun ahead => .pure _
      · exact .bind .one fun value => .bind (.pure _) fun ahead => .tooMany
      · exact .bind (.pure _) fun ahead => .pure _
      · exact .bind (.pure _) fun ahead => .tooMany
  | succ limit ih =>
    cases ahead with
    | nil => simpa only [Pass.through] using Drawing.pure behind.reverse
    | cons r ahead =>
      by_cases hhit : p.hits r = true <;> by_cases hlast : (!p.recursive && left ≤ 1) = true
      all_goals simp only [Pass.through, hhit, hlast, if_true, if_false, Bool.false_eq_true]
      · exact .bind .one fun value => .bind (.pure _) fun ahead => .pure _
      · exact .bind .one fun value => .bind (.pure _) fun ahead => ih _ _ _
      · exact .bind (.pure _) fun ahead => .pure _
      · exact .bind (.pure _) fun ahead => ih _ _ _

/-- A modifier draws dice one by one. -/
theorem drawing_effect (pinned : Bool) (d : Denomination) (e : Modifier.Effect)
    (rs : List DieResult) : Drawing fun one => effect pinned d one e rs := by
  cases hp : pass? d e with
  | none => simpa only [effect, hp] using Drawing.pure _
  | some p =>
    cases pinned with
    | true => simpa only [effect, hp, if_true] using Drawing.pure rs
    | false =>
      simp only [effect, hp, Bool.false_eq_true, if_false, Pass.run]
      exact drawing_through p _ _ _ _

/-- Modifiers draw dice one by one. -/
theorem drawing_modify (pinned : Bool) (d : Denomination) (ms : List Modifier)
    (rs : List DieResult) : Drawing fun one => modify pinned d one ms rs := by
  induction ms generalizing rs with
  | nil => exact .pure rs
  | cons m rest ih => exact .bind (drawing_effect pinned d m.effect rs) ih

/-- A dice term draws its dice one by one. -/
theorem drawing_results (pinned : Bool) (d : Dice) :
    ∃ e, Drawing e ∧ ∀ ticket, results pinned ticket d = e (draw d.denomination ticket) :=
  ⟨_, .bind (drawing_drawMany (d.number - d.results.length) []) fun drawn =>
    drawing_modify pinned d.denomination d.modifiers (d.results ++ drawn), fun _ => rfl⟩

/-- The evaluation of dice step by step. -/
theorem dice_eq (pinned : Bool) (d : Dice) :
    dice pinned d =
      if d.evaluated then throw .alreadyEvaluated
      else enter d >>= fun ticket => returning ticket (results pinned ticket d) >>= fun results =>
        pure { d with results, evaluated := true } := by
  unfold dice
  split <;> rfl

/-! ## Rolls -/

/-- A computation that reaches its surroundings through the evaluation of dice terms
    only. -/
inductive Composed (pinned : Bool) : {α : Type} → Evaluation α → Prop where
  | pure {α : Type} (a : α) : Composed pinned (Pure.pure a : Evaluation α)
  | throw {α : Type} (e : RollError) : Composed pinned (MonadExcept.throw e : Evaluation α)
  | dice (d : Dice) : Composed pinned (dice pinned d)
  | bind {α β : Type} {e : Evaluation α} {f : α → Evaluation β}
      (he : Composed pinned e) (hf : ∀ a, Composed pinned (f a)) : Composed pinned (e >>= f)

variable {s : Setting} {nested : Nested}

/-- The items of a pool are evaluated one by one. -/
theorem composed_items {pinned : Bool} (hnested : ∀ r, Composed pinned (nested r))
    (rs : List Roll) : Composed pinned (items nested rs) := by
  induction rs with
  | nil => exact .pure []
  | cons r rest ih =>
    refine .bind (hnested r) fun evaluated => ?_
    obtain ⟨r, total⟩ := evaluated
    cases hw : total.whole? with
    | none => simpa only [hw, fail] using Composed.throw _
    | some value => simpa only [hw] using Composed.bind ih fun more => .pure _

/-- The arguments of a function are evaluated one by one. -/
theorem composed_arguments {pinned : Bool} (hnested : ∀ r, Composed pinned (nested r))
    (rs : List Roll) : Composed pinned (arguments nested rs) := by
  induction rs with
  | nil => exact .pure []
  | cons r rest ih => exact .bind (hnested r) fun _ => .bind ih fun _ => .pure _

/-- A term is evaluated through dice terms. -/
theorem composed_term (hnested : ∀ r, Composed s.options.isPinned (nested r)) (t : Term) :
    Composed s.options.isPinned (term s nested t) := by
  cases t with
  | numeric n a => exact .pure _
  | operator op a => exact .pure _
  | dice d => exact .bind (.dice d) fun d => .pure _
  | pool p rolls =>
    simp only [term]
    split
    · exact .bind (.throw _) fun _ => .bind (composed_items hnested rolls) fun _ => .pure _
    · exact .bind (composed_items hnested rolls) fun _ => .pure _
  | function name texts rolls result a =>
    simp only [term]
    split
    · refine .bind (.throw _) fun _ => .bind (composed_arguments hnested rolls) fun evaluated => ?_
      split
      · exact .pure _
      · exact .throw _
    · refine .bind (composed_arguments hnested rolls) fun evaluated => ?_
      split
      · exact .pure _
      · exact .throw _
  | parenthetical text roll a => exact .bind (hnested roll) fun _ => .pure _
  | text content a evaluated =>
    simp only [term]
    split
    · exact .pure _
    · exact .throw _

/-- A term that was evaluated is not evaluated again. -/
theorem composed_pendingTerm (hnested : ∀ r, Composed s.options.isPinned (nested r)) (t : Term) :
    Composed s.options.isPinned (pendingTerm s nested t) := by
  unfold pendingTerm
  split
  · exact .pure t
  · exact composed_term hnested t

/-- The terms of a row are evaluated one by one. -/
theorem composed_terms (hnested : ∀ r, Composed s.options.isPinned (nested r))
    (ts : List Term) : Composed s.options.isPinned (terms s nested ts) := by
  induction ts with
  | nil => exact .pure []
  | cons t rest ih =>
    exact .bind (composed_pendingTerm hnested t) fun _ => .bind ih fun _ => .pure _

/-- Function calls and parentheses are evaluated one by one. -/
theorem composed_collapse (hnested : ∀ r, Composed s.options.isPinned (nested r))
    (ts : List Term) : Composed s.options.isPinned (collapse s nested ts) := by
  induction ts with
  | nil => exact .pure _
  | cons t rest ih =>
    simp only [collapse]
    split
    · refine .bind (composed_pendingTerm hnested t) fun t => ?_
      split
      · exact .throw _
      · exact .bind ih fun _ => .pure _
    · exact .bind ih fun _ => .pure _

/-- An outcome reaches nothing. -/
theorem composed_liftExcept {pinned : Bool} (x : Except RollError α) :
    Composed pinned (rollWith.liftExcept x) := by
  cases x with
  | ok a => exact .pure a
  | error e => exact .throw e

/-- What is done with the row of a roll once it was simplified. -/
def concludeRow (s : Setting) (nested : Nested) (r : Roll) (row : List Term)
    (collapsed : List Dice) : Evaluation (Roll × Number) :=
  terms s nested row >>= fun row =>
    rollWith.liftExcept (Term.totalOf r.formula row) >>= fun total =>
      pure ({ r with
        terms := row
        total := some total
        evaluated := true
        collapsed := r.collapsed ++ collapsed }, total)

/-- The evaluation of a roll step by step. -/
theorem rollWith_eq (s : Setting) (nested : Nested) (r : Roll) :
    rollWith s nested r =
      if r.evaluated then throw .alreadyEvaluated
      else collapse s nested r.terms >>= fun c =>
        if s.synchronous then
          rollWith.liftExcept (refuseChance s.options (Term.simplify c.1)) >>= fun _ =>
            concludeRow s nested r (Term.simplify c.1) c.2
        else concludeRow s nested r (Term.simplify c.1) c.2 := by
  unfold rollWith
  split <;> rfl

/-- A roll is evaluated through dice terms if the rolls inside it are. -/
theorem composed_rollWith (hnested : ∀ r, Composed s.options.isPinned (nested r)) (r : Roll) :
    Composed s.options.isPinned (rollWith s nested r) := by
  have hconclude : ∀ row collapsed,
      Composed s.options.isPinned (concludeRow s nested r row collapsed) := fun row collapsed =>
    .bind (composed_terms hnested row) fun row => .bind (composed_liftExcept _) fun _ => .pure _
  rw [rollWith_eq]
  split
  · exact .throw _
  · refine .bind (composed_collapse hnested r.terms) fun c => ?_
    split
    · exact .bind (composed_liftExcept _) fun _ => hconclude _ _
    · exact hconclude _ _

/-- A roll is evaluated through dice terms, those inside it included. -/
theorem composed_rollWithin (s : Setting) (depth : Nat) (r : Roll) :
    Composed s.options.isPinned (rollWithin s depth r) := by
  induction depth generalizing r with
  | zero => exact .throw _
  | succ depth ih => exact composed_rollWith ih r

/-- The evaluation of a roll is made of evaluations of dice terms. -/
theorem composed_roll (s : Setting) (r : Roll) : Composed s.options.isPinned (roll s r) :=
  composed_rollWithin s r.depth r

end DiceNotation.Evaluation
