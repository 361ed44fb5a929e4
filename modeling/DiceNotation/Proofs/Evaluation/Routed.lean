/-
  DiceNotation.Proofs.Evaluation.Routed

  Dice that are drawn under a ticket.

  The method of a ticket is that of the dice it was given for, and only these dice
  are drawn under it. So whoever draws a die with a method from outside draws one
  that is routed to this method (`Plan.Routed`).
-/

import DiceNotation.Config
import DiceNotation.Proofs.Evaluation.Composed

namespace DiceNotation

variable {α β : Type} {routing : Routing}

/-! ## Plans -/

/-- Whether a ticket may be given for dice of a denomination: if it has a method, then
    that of the denomination. -/
def Ticket.suits (routing : Routing) (d : Denomination) (t : Ticket) : Prop :=
  ∀ method, t.method = some method → routing.externalMethod? d = some method

/-- A plan that draws dice only under tickets that suit them, as long as it is given such
    tickets. -/
def Plan.Routed (routing : Routing) : Plan α → Prop
  | done _ => True
  | enter dice next =>
    (∀ e, (next (.error e)).Routed routing) ∧ (next (.ok none)).Routed routing ∧
      ∀ t : Ticket, t.suits routing dice.denomination → (next (.ok (some t))).Routed routing
  | draw d ticket next =>
    (∀ t, ticket = some t → t.suits routing d) ∧ ∀ answer, (next answer).Routed routing
  | leave _ next => next.Routed routing

/-- Plans that follow one another draw dice under suitable tickets if each does. -/
theorem Plan.Routed.bind {p : Plan α} {f : α → Plan β} (h : p.Routed routing)
    (hf : ∀ a, (f a).Routed routing) : (p.bind f).Routed routing := by
  induction p with
  | done a => exact hf a
  | leave t next ih => exact ih h
  | draw d ticket next ih => exact ⟨h.1, fun answer => ih answer (h.2 answer)⟩
  | enter dice next ih =>
    exact ⟨fun e => ih _ (h.1 e), ih _ h.2.1, fun t ht => ih _ (h.2.2 t ht)⟩

namespace Evaluation

/-! ## Evaluations -/

/-- Evaluations that follow one another draw dice under suitable tickets if each does. -/
theorem routed_bind {e : Evaluation α} {f : α → Evaluation β} (h : e.run.Routed routing)
    (hf : ∀ a, (f a).run.Routed routing) : (e >>= f).run.Routed routing := by
  refine Plan.Routed.bind h fun outcome => ?_
  cases outcome with
  | ok a => exact hf a
  | error e => exact trivial

/-- A computation draws dice under suitable tickets if it draws one die so. -/
theorem Drawing.routed {e : Evaluation Int → Evaluation α} (h : Drawing e)
    {one : Evaluation Int} (hone : one.run.Routed routing) : (e one).run.Routed routing := by
  induction h with
  | pure a => exact trivial
  | tooMany => exact trivial
  | one => exact hone
  | bind _ _ ihe ihf => exact routed_bind ihe ihf

/-- The results of a dice term are drawn under its ticket. -/
theorem routed_results {pinned : Bool} {ticket : Option Ticket} (d : Dice)
    (ht : ∀ t, ticket = some t → t.suits routing d.denomination) :
    (results pinned ticket d).run.Routed routing := by
  obtain ⟨e, he, heq⟩ := drawing_results pinned d
  rw [heq]
  exact he.routed ⟨ht, fun answer => trivial⟩

/-- An evaluation that is made of evaluations of dice terms draws dice under suitable
    tickets. -/
theorem Composed.routed {pinned : Bool} {e : Evaluation α} (h : Composed pinned e) :
    e.run.Routed routing := by
  induction h with
  | pure a => exact trivial
  | throw e => exact trivial
  | bind _ _ ihe ihf => exact routed_bind ihe ihf
  | dice d =>
    rw [dice_eq]
    split
    · exact trivial
    · refine ⟨fun e => trivial, ?_, fun t ht => ?_⟩
      · exact routed_bind (routed_results d (by simp)) fun rs => trivial
      · have hresults : (results pinned (some t) d).run.Routed routing :=
          routed_results d fun t' heq => by
            cases heq
            exact ht
        exact routed_bind (Plan.Routed.bind hresults fun outcome => trivial) fun rs => trivial

/-- The evaluation of a roll draws dice under suitable tickets. -/
theorem routed_roll (s : Setting) (r : Roll) : (roll s r).run.Routed routing :=
  (composed_roll s r).routed

end Evaluation

end DiceNotation
