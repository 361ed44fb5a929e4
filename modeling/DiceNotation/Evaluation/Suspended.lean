/-
  DiceNotation.Evaluation.Suspended

  Plans that wait for results from outside.

  Such a plan works with the coordinator of its roll. It goes on until a die is to
  come from outside, leaves a request for it and is suspended; once the request
  has its answer, the plan goes on. A suspended plan that is given up takes its
  request along, while its ticket stays as it is.
-/

import DiceNotation.Evaluation.Immediate
import DiceNotation.Fulfillment.Coordinator

namespace DiceNotation

/-- A plan that has its outcome or waits for the answer of a request, which is the value
    of a die. -/
inductive Suspended (α : Type) where
  | finished (value : α)
  | waiting (id : Nat) (denomination : Denomination) (next : Except RollError Int → Plan α)

namespace Plan

variable {σ α : Type} [Roller σ]

/-- Gives leave to draw dice. Dice of a method from outside get a ticket, even if
    their results are not to come from outside. -/
def grantTicket (o : EvaluationOptions) (dice : Dice) (c : Context σ) (k : Coordinator) :
    Option Ticket × Coordinator :=
  match c.config.routing.externalMethod? dice.denomination with
  | none => (none, k)
  | some _ =>
    let method := c.interactiveMethod? o dice
    let (number, k) := k.track method.isSome
    (some ⟨number, method⟩, k)

/-- Carries a plan on until it has its outcome or waits. -/
def advance (o : EvaluationOptions) :
    Plan α → Context σ → Coordinator → Suspended α × Context σ × Coordinator
  | done a, c, k => (.finished a, c, k)
  | enter dice next, c, k =>
    let (ticket, k) := grantTicket o dice c k
    (next (.ok ticket)).advance o c k
  | draw d ticket next, c, k =>
    let (tooMany, c) := c.count
    if tooMany then (next (.error .tooManyRolls)).advance o c k
    else match o.pinnedValue? d, ticket with
      | none, some ⟨number, some method⟩ =>
        match k.request method d number with
        | (none, k) => (next (.error (.evaluation .cancelled))).advance o c k
        | (some id, k) => (.waiting id d next, c, k)
      | _, _ =>
        let (value, c) := drawNow o d c
        (next (.ok value)).advance o c k
  | leave ticket next, c, k => next.advance o c (k.finish ticket.number)

end Plan

namespace Suspended

variable {σ α : Type} [Roller σ]

/-- Polls a suspended plan. -/
def poll (o : EvaluationOptions) (s : Suspended α) (c : Context σ) (k : Coordinator) :
    Suspended α × Context σ × Coordinator :=
  match s with
  | finished a => (finished a, c, k)
  | waiting id d next =>
    match k.collect id with
    | (.pending, k) => (waiting id d next, c, k)
    | (.answered value, k) => (next (.ok value)).advance o c k
    | (.cancelled, k) => (next (.error (.evaluation .cancelled))).advance o c k

/-- Gives up a suspended plan. -/
def giveUp (s : Suspended α) (k : Coordinator) : Coordinator :=
  match s with
  | finished _ => k
  | waiting id _ _ => k.withdraw id

end Suspended

end DiceNotation
