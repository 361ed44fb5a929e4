/-
  DiceNotation.Proofs.Evaluation.Turns

  Dice terms take turns.

  A dice term has its turn from when it gets leave to draw until its ticket is given
  back; meanwhile its dice are drawn under its ticket, and no other term gets leave.
  `Plan.Bracketed` says this of whatever a plan may be answered, failures included,
  and the evaluation of every roll is so (`Evaluation.bracketed_roll`).
  `Plan.turns` are the turns that begin while a plan is carried on.
-/

import DiceNotation.Evaluation.Session
import DiceNotation.Proofs.Evaluation.Routed

namespace DiceNotation

variable {σ α β : Type} [Roller σ]

/-! ## Turns -/

/-- The turn of a dice term, with the leave that it got. -/
structure Turn where
  dice : Dice
  ticket? : Option Ticket

namespace Turn

/-- The ticket of the term that has its turn, if there is one. -/
def ticketOf (held : Option Turn) : Option Ticket := held.bind (·.ticket?)

/-- The number of the ticket of the term that has its turn. -/
def numberOf (held : Option Turn) : Option Nat := (ticketOf held).map (·.number)

/-- The numbers of the tickets of turns, in order. -/
def numbers (turns : List Turn) : List Nat := turns.filterMap fun turn => turn.ticket?.map (·.number)

theorem numbers_append (turns more : List Turn) :
    numbers (turns ++ more) = numbers turns ++ numbers more :=
  List.filterMap_append

theorem mem_numbers {turns : List Turn} {turn : Turn} (h : turn ∈ turns) {ticket : Ticket}
    (hticket : turn.ticket? = some ticket) : ticket.number ∈ numbers turns :=
  List.mem_filterMap.mpr ⟨turn, h, by rw [hticket, Option.map_some]⟩

theorem numberOf_of_ticketOf_eq_none {held : Option Turn} (h : ticketOf held = none) :
    numberOf held = none := by
  rw [numberOf, h, Option.map_none]

end Turn

/-- The turns that begin while a plan is carried on. -/
def Plan.turns (o : EvaluationOptions) : Plan α → Context σ → Coordinator → List Turn
  | done _, _, _ => []
  | enter dice next, c, k =>
    let (ticket, k) := grantTicket o dice c k
    ⟨dice, ticket⟩ :: (next (.ok ticket)).turns o c k
  | draw d ticket next, c, k =>
    let (tooMany, c) := c.count
    if tooMany then (next (.error .tooManyRolls)).turns o c k
    else match o.pinnedValue? d, ticket with
      | none, some ⟨number, some method⟩ =>
        match k.request method d number with
        | (none, k) => (next (.error (.evaluation .cancelled))).turns o c k
        | (some _, _) => []
      | _, _ =>
        let (value, c) := drawNow o d c
        (next (.ok value)).turns o c k
  | leave ticket next, c, k => next.turns o c (k.finish ticket.number)

/-- The turns that begin while a suspended plan is polled. -/
def Suspended.turns (o : EvaluationOptions) (s : Suspended α) (c : Context σ)
    (k : Coordinator) : List Turn :=
  match s with
  | finished _ => []
  | waiting id _ next =>
    match k.collect id with
    | (.pending, _) => []
    | (.answered value, k) => (next (.ok value)).turns o c k
    | (.cancelled, k) => (next (.error (.evaluation .cancelled))).turns o c k

/-! ## Brackets -/

namespace Plan

/-- A plan where dice terms take turns, and in which `held` has its turn at first. No ticket is
    kept when another term gets leave, or in the end. -/
def Bracketed : Plan α → Option Turn → Prop
  | done _, held => Turn.ticketOf held = none
  | enter dice next, held =>
    Turn.ticketOf held = none ∧ (∀ e, (next (.error e)).Bracketed none) ∧
      ∀ ticket, (next (.ok ticket)).Bracketed (some ⟨dice, ticket⟩)
  | draw d ticket next, held =>
    (∃ dice, held = some ⟨dice, ticket⟩ ∧ dice.denomination = d) ∧
      ∀ answer, (next answer).Bracketed held
  | leave ticket next, held => Turn.ticketOf held = some ticket ∧ next.Bracketed none

/-- A plan may follow a turn without a ticket. -/
theorem Bracketed.of_none {p : Plan α} (h : p.Bracketed none) {held : Option Turn}
    (hheld : Turn.ticketOf held = none) : p.Bracketed held := by
  cases p with
  | done a => exact hheld
  | enter dice next => exact ⟨hheld, h.2⟩
  | draw d ticket next =>
    obtain ⟨⟨dice, hdice, -⟩, -⟩ := h
    cases hdice
  | leave ticket next => cases h.1

/-- Plans that follow one another take turns if each does. -/
theorem Bracketed.bind {p : Plan α} {f : α → Plan β} {held : Option Turn} (h : p.Bracketed held)
    (hf : ∀ a, (f a).Bracketed none) : (p.bind f).Bracketed held := by
  induction p generalizing held with
  | done a => exact (hf a).of_none h
  | enter dice next ih =>
    obtain ⟨hheld, herror, hok⟩ := h
    exact ⟨hheld, fun e => ih _ (herror e), fun ticket => ih _ (hok ticket)⟩
  | draw d ticket next ih => exact ⟨h.1, fun answer => ih _ (h.2 answer)⟩
  | leave ticket next ih => exact ⟨h.1, ih h.2⟩

end Plan

namespace Evaluation

theorem bracketed_bind {e : Evaluation α} {f : α → Evaluation β} (h : e.run.Bracketed none)
    (hf : ∀ a, (f a).run.Bracketed none) : (e >>= f).run.Bracketed none := by
  refine Plan.Bracketed.bind h fun outcome => ?_
  cases outcome with
  | ok a => exact hf a
  | error e => exact rfl

/-- Whatever follows the drawing of dice, the term keeps its turn until then. -/
theorem Drawing.bracketed {e : Evaluation Int → Evaluation α} (h : Drawing e) (d : Dice)
    (ticket : Option Ticket) {f : Except RollError α → Plan β}
    (hf : ∀ outcome, (f outcome).Bracketed (some ⟨d, ticket⟩)) :
    ((e (draw d.denomination ticket)).run.bind f).Bracketed (some ⟨d, ticket⟩) := by
  induction h with
  | pure a => exact hf (.ok a)
  | tooMany => exact hf (.error .tooManyRolls)
  | one => exact ⟨⟨d, rfl, rfl⟩, hf⟩
  | bind _ _ ihe ihf =>
    rw [ExceptT.run_bind]
    show (Plan.bind (Plan.bind _ _) f).Bracketed _
    rw [Plan.bind_assoc]
    refine ihe fun outcome => ?_
    cases outcome with
    | ok a => exact ihf a hf
    | error e => exact hf (.error e)

/-- A dice term gives back its ticket, whether its dice are drawn or not. -/
theorem bracketed_returning (pinned : Bool) (d : Dice) (ticket : Option Ticket) :
    (returning ticket (results pinned ticket d)).run.Bracketed (some ⟨d, ticket⟩) := by
  obtain ⟨e, he, heq⟩ := drawing_results pinned d
  rw [heq]
  cases ticket with
  | none =>
    rw [returning, ← Plan.bind_done (ExceptT.run _)]
    exact he.bracketed d none fun outcome => rfl
  | some ticket => exact he.bracketed d (some ticket) fun outcome => ⟨rfl, rfl⟩

/-- The evaluation of a dice term is its turn. -/
theorem bracketed_dice (pinned : Bool) (d : Dice) : (dice pinned d).run.Bracketed none := by
  rw [dice_eq]
  split
  · exact rfl
  · refine ⟨rfl, fun e => rfl, fun ticket => ?_⟩
    refine (bracketed_returning pinned d ticket).bind fun outcome => ?_
    cases outcome with
    | ok rs => exact rfl
    | error e => exact rfl

/-- What is made of dice terms has them take turns. -/
theorem Composed.bracketed {pinned : Bool} {e : Evaluation α} (h : Composed pinned e) :
    e.run.Bracketed none := by
  induction h with
  | pure a => exact rfl
  | throw e => exact rfl
  | dice d => exact bracketed_dice pinned d
  | bind _ _ ihe ihf => exact bracketed_bind ihe ihf

/-- In the evaluation of a roll the dice terms take turns, those of rolls inside it
    included. -/
theorem bracketed_roll (s : Setting) (r : Roll) : (roll s r).run.Bracketed none :=
  (composed_roll s r).bracketed

end Evaluation

end DiceNotation
