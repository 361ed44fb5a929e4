/-
  DiceNotation.Proofs.Evaluation.Alike

  What tickets and failing answers do to an evaluation.

  An evaluation goes on in the same way whatever tickets it is given: plans are
  `Alike` when they differ in tickets alone, and the evaluation of a roll is alike
  to itself (`Evaluation.alike_roll`). It is `Strict`, too: an answer that fails is
  the outcome, and nothing more is asked for (`Evaluation.strict_roll`).
-/

import DiceNotation.Proofs.Evaluation.Composed

namespace DiceNotation.Plan

variable {α β : Type}

/-! ## Plans that differ in tickets -/

/-- Plans that do the same up to the tickets that they are given and give back. -/
inductive Alike : Plan α → Plan α → Prop where
  | done (a : α) : Alike (done a) (done a)
  | enter (dice : Dice) {next next' : Except RollError (Option Ticket) → Plan α}
      (h : ∀ t t', Alike (next (.ok t)) (next' (.ok t'))) :
      Alike (enter dice next) (enter dice next')
  | draw (d : Denomination) (t t' : Option Ticket) {next next' : Except RollError Int → Plan α}
      (h : ∀ answer, Alike (next answer) (next' answer)) :
      Alike (draw d t next) (draw d t' next')
  | leaveLeft (t : Ticket) {p q : Plan α} (h : Alike p q) : Alike (leave t p) q
  | leaveRight (t : Ticket) {p q : Plan α} (h : Alike p q) : Alike p (leave t q)

/-- Plans that are alike and go on alike are alike. -/
theorem Alike.bind {p q : Plan α} {f g : α → Plan β} (h : Alike p q)
    (hf : ∀ a, Alike (f a) (g a)) : Alike (p.bind f) (q.bind g) := by
  induction h with
  | done a => exact hf a
  | enter dice _ ih => exact .enter dice ih
  | draw d t t' _ ih => exact .draw d t t' ih
  | leaveLeft t _ ih => exact .leaveLeft t ih
  | leaveRight t _ ih => exact .leaveRight t ih

/-! ## Plans that fail with an answer -/

/-- A plan that asks for nothing more and fails. -/
def Fails (e : RollError) : Plan (Except RollError α) → Prop
  | done outcome => outcome = .error e
  | leave _ next => Fails e next
  | _ => False

/-- A plan that fails with every answer that fails. -/
def Strict : Plan (Except RollError α) → Prop
  | done _ => True
  | enter _ next => (∀ e, (next (.error e)).Fails e) ∧ ∀ t, (next (.ok t)).Strict
  | draw _ _ next => (∀ e, (next (.error e)).Fails e) ∧ ∀ v, (next (.ok v)).Strict
  | leave _ next => next.Strict

/-- A plan that fails still fails when another follows that passes failures on. -/
theorem Fails.bind {p : Plan (Except RollError α)} {e : RollError}
    {f : Except RollError α → Plan (Except RollError β)} (h : p.Fails e)
    (hf : ∀ e, (f (.error e)).Fails e) : (p.bind f).Fails e := by
  induction p with
  | done outcome =>
    rw [show outcome = .error e from h]
    exact hf e
  | leave t next ih => exact ih h
  | enter | draw => exact h.elim

/-- A strict plan stays strict when another follows that passes failures on. -/
theorem Strict.bind {p : Plan (Except RollError α)}
    {f : Except RollError α → Plan (Except RollError β)} (h : p.Strict)
    (hfail : ∀ e, (f (.error e)).Fails e) (hf : ∀ outcome, (f outcome).Strict) :
    (p.bind f).Strict := by
  induction p with
  | done outcome => exact hf outcome
  | leave t next ih => exact ih h
  | enter dice next ih => exact ⟨fun e => (h.1 e).bind hfail, fun t => ih _ (h.2 t)⟩
  | draw d t next ih => exact ⟨fun e => (h.1 e).bind hfail, fun v => ih _ (h.2 v)⟩

end DiceNotation.Plan

namespace DiceNotation.Evaluation

variable {α β : Type} {pinned : Bool}

/-! ## Evaluations that differ in tickets -/

/-- Evaluations that are alike and go on alike are alike. -/
theorem alike_bind {e e' : Evaluation α} {f f' : α → Evaluation β}
    (h : e.run.Alike e'.run) (hf : ∀ a, (f a).run.Alike (f' a).run) :
    (e >>= f).run.Alike (e' >>= f').run := by
  refine Plan.Alike.bind h fun outcome => ?_
  cases outcome with
  | ok a => exact hf a
  | error e => exact .done (Except.error e)

/-- A computation that draws dice one by one does so alike. -/
theorem Drawing.alike {e : Evaluation Int → Evaluation α} (h : Drawing e)
    {one one' : Evaluation Int} (hone : one.run.Alike one'.run) :
    (e one).run.Alike (e one').run := by
  induction h with
  | pure a => exact .done (Except.ok a)
  | tooMany => exact .done (Except.error RollError.tooManyRolls)
  | one => exact hone
  | bind _ _ ihe ihf => exact alike_bind ihe ihf

/-- The results of a dice term do not depend on its ticket. -/
theorem alike_results (d : Dice) (ticket ticket' : Option Ticket) :
    (results pinned ticket d).run.Alike (results pinned ticket' d).run := by
  obtain ⟨e, he, heq⟩ := drawing_results pinned d
  rw [heq, heq]
  exact he.alike (.draw d.denomination ticket ticket' fun answer => .done answer)

/-- Evaluations are alike whether or not tickets are given back. -/
theorem alike_returning {e e' : Evaluation α} (h : e.run.Alike e'.run)
    (ticket ticket' : Option Ticket) :
    (returning ticket e).run.Alike (returning ticket' e').run := by
  have hleft : ∀ t {p : Plan (Except RollError α)}, e.run.Alike p →
      (returning (some t) e).run.Alike p := by
    intro t p hp
    have := hp.bind (f := fun outcome => .leave t (.done outcome)) (g := .done)
      fun outcome => .leaveLeft t (.done outcome)
    rwa [Plan.bind_done] at this
  have hright : ∀ t {p : Plan (Except RollError α)}, p.Alike e'.run →
      p.Alike (returning (some t) e').run := by
    intro t p hp
    have := hp.bind (f := .done) (g := fun outcome => .leave t (.done outcome))
      fun outcome => .leaveRight t (.done outcome)
    rwa [Plan.bind_done] at this
  cases ticket with
  | none =>
    cases ticket' with
    | none => exact h
    | some t' => exact hright t' h
  | some t =>
    cases ticket' with
    | none => exact hleft t h
    | some t' => exact hleft t (hright t' h)

/-- An evaluation that is made of evaluations of dice terms does the same whatever tickets
    it is given. -/
theorem Composed.alike {e : Evaluation α} (h : Composed pinned e) : e.run.Alike e.run := by
  induction h with
  | pure a => exact .done (Except.ok a)
  | throw e => exact .done (Except.error e)
  | bind _ _ ihe ihf => exact alike_bind ihe ihf
  | dice d =>
    rw [dice_eq]
    split
    · exact .done (Except.error RollError.alreadyEvaluated)
    · refine .enter d fun ticket ticket' => ?_
      exact alike_bind (alike_returning (alike_results d ticket ticket') ticket ticket')
        fun rs => .done _

/-- The evaluation of a roll does the same whatever tickets it is given. -/
theorem alike_roll (s : Setting) (r : Roll) : (roll s r).run.Alike (roll s r).run :=
  (composed_roll s r).alike

/-! ## Evaluations that fail with an answer -/

/-- An evaluation that strict ones make up is strict. -/
theorem strict_bind {e : Evaluation α} {f : α → Evaluation β} (h : e.run.Strict)
    (hf : ∀ a, (f a).run.Strict) : (e >>= f).run.Strict := by
  refine Plan.Strict.bind h (fun e => rfl) fun outcome => ?_
  cases outcome with
  | ok a => exact hf a
  | error e => exact trivial

/-- A computation that draws dice one by one is strict. -/
theorem Drawing.strict {e : Evaluation Int → Evaluation α} (h : Drawing e)
    {one : Evaluation Int} (hone : one.run.Strict) : (e one).run.Strict := by
  induction h with
  | pure a => exact trivial
  | tooMany => exact trivial
  | one => exact hone
  | bind _ _ ihe ihf => exact strict_bind ihe ihf

/-- The results of a dice term fail with an answer that fails. -/
theorem strict_results (ticket : Option Ticket) (d : Dice) :
    (results pinned ticket d).run.Strict := by
  obtain ⟨e, he, heq⟩ := drawing_results pinned d
  rw [heq]
  exact he.strict ⟨fun e => rfl, fun v => trivial⟩

/-- Giving a ticket back passes failures on. -/
theorem strict_returning (ticket : Option Ticket) {e : Evaluation α} (h : e.run.Strict) :
    (returning ticket e).run.Strict := by
  cases ticket with
  | none => exact h
  | some t => exact Plan.Strict.bind h (fun e => rfl) fun outcome => trivial

/-- An evaluation that is made of evaluations of dice terms is strict. -/
theorem Composed.strict {e : Evaluation α} (h : Composed pinned e) : e.run.Strict := by
  induction h with
  | pure a => exact trivial
  | throw e => exact trivial
  | bind _ _ ihe ihf => exact strict_bind ihe ihf
  | dice d =>
    rw [dice_eq]
    split
    · exact trivial
    · refine ⟨fun e => rfl, fun ticket => ?_⟩
      exact strict_bind (strict_returning ticket (strict_results ticket d)) fun rs => trivial

/-- The evaluation of a roll is strict. -/
theorem strict_roll (s : Setting) (r : Roll) : (roll s r).run.Strict := (composed_roll s r).strict

end DiceNotation.Evaluation
