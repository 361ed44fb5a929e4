/-
  DiceNotation.Evaluation.Plan

  Evaluations as plans.

  A plan is a computation that asks its surroundings for everything it does not
  decide by itself: leave to draw the dice of a term, the value of each die, and
  word that the dice of a term are drawn. What answers is not part of the plan;
  so the same plan runs at once on a roller or waits for results from outside.
-/

import DiceNotation.Error
import DiceNotation.Roll.Basic

namespace DiceNotation

/-- The leave to draw the dice of a term. -/
structure Ticket where
  /-- The number of the ticket at the coordinator. -/
  number : Nat
  /-- The method that gives the results, if they come from outside. -/
  method : Option String
  deriving DecidableEq, Repr

/-- A computation that asks for dice. -/
inductive Plan (α : Type) where
  | done (value : α)
  /-- Asks for leave to draw the dice of a term. Dice that nobody coordinates get no
      ticket. -/
  | enter (dice : Dice) (next : Except RollError (Option Ticket) → Plan α)
  /-- Asks for the value of a die. -/
  | draw (denomination : Denomination) (ticket : Option Ticket)
      (next : Except RollError Int → Plan α)
  /-- Tells that the dice of a ticket are drawn. -/
  | leave (ticket : Ticket) (next : Plan α)

namespace Plan

variable {α β γ : Type}

/-- Goes on with a plan that depends on the outcome of another. -/
def bind : Plan α → (α → Plan β) → Plan β
  | done a, f => f a
  | enter dice next, f => enter dice fun r => (next r).bind f
  | draw d ticket next, f => draw d ticket fun r => (next r).bind f
  | leave ticket next, f => leave ticket (next.bind f)

instance : Monad Plan where
  pure := done
  bind := bind

/-- A plan that goes on with nothing is the same plan. -/
theorem bind_done (p : Plan α) : p.bind done = p := by
  induction p with
  | done a => rfl
  | enter dice next ih => simp [bind, ih]
  | draw d ticket next ih => simp [bind, ih]
  | leave ticket next ih => simp [bind, ih]

/-- Three plans in a row may be grouped either way. -/
theorem bind_assoc (p : Plan α) (f : α → Plan β) (g : β → Plan γ) :
    (p.bind f).bind g = p.bind fun a => (f a).bind g := by
  induction p with
  | done a => rfl
  | enter dice next ih => simp [bind, ih]
  | draw d ticket next ih => simp [bind, ih]
  | leave ticket next ih => simp [bind, ih]

instance : LawfulMonad Plan :=
  LawfulMonad.mk' Plan bind_done (fun _ _ => rfl) bind_assoc

end Plan

-- ============================================================================
-- Evaluations
-- ============================================================================

/-- A plan that may fail. -/
abbrev Evaluation : Type → Type := ExceptT RollError Plan

namespace Evaluation

/-- Asks for leave to draw the dice of a term. -/
def enter (d : Dice) : Evaluation (Option Ticket) := ExceptT.mk (.enter d .done)

/-- Asks for the value of a die. -/
def draw (d : Denomination) (ticket : Option Ticket) : Evaluation Int :=
  ExceptT.mk (.draw d ticket .done)

/-- Carries out an evaluation and then gives back the ticket, also after a failure. -/
def returning {α : Type} (ticket : Option Ticket) (e : Evaluation α) : Evaluation α :=
  match ticket with
  | none => e
  | some t => ExceptT.mk (e.run.bind fun outcome => .leave t (.done outcome))

end Evaluation

end DiceNotation
