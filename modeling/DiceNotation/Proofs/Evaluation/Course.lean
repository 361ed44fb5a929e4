/-
  DiceNotation.Proofs.Evaluation.Course

  The course of an evaluation step by step.

  While an evaluation waits for results, anybody else may use the coordinator of
  its roll: leave requests, submit results, cancel, come and go. A `Course` is such
  an evaluation with the others and with a log of the dice that it drew.
  `Course.Agrees` compares it with an evaluation at once, on a roller that shows
  the values that were obtained.
-/

import DiceNotation.Evaluation.Session
import DiceNotation.Proofs.Fulfillment.Desk

namespace DiceNotation

variable {σ τ α : Type} [Roller σ] [Roller τ]

/-! ## Draws -/

/-- What became of a die that was drawn. -/
inductive Draw where
  /-- Its value was fixed by the options. -/
  | pinned (denomination : Denomination)
  | rolled (denomination : Denomination) (value : Int)
  /-- A request was left for it. -/
  | requested (denomination : Denomination)
  /-- The request was answered. -/
  | answered (denomination : Denomination) (value : Int)
  deriving DecidableEq, Repr

namespace Draw

/-- The denomination of a die that was drawn. -/
def denomination : Draw → Denomination
  | pinned d | rolled d _ | requested d | answered d _ => d

/-- The value that was obtained from a roller or from outside. -/
def obtained? : Draw → Option (Denomination × Int)
  | rolled d v | answered d v => some (d, v)
  | pinned _ | requested _ => none

end Draw

/-- The dice that a plan draws while it is carried on. -/
def Plan.draws (o : EvaluationOptions) : Plan α → Context σ → Coordinator → List Draw
  | done _, _, _ => []
  | enter dice next, c, k =>
    let (ticket, k) := grantTicket o dice c k
    (next (.ok ticket)).draws o c k
  | draw d ticket next, c, k =>
    let (tooMany, c) := c.count
    if tooMany then (next (.error .tooManyRolls)).draws o c k
    else match o.pinnedValue? d, ticket with
      | none, some ⟨number, some method⟩ =>
        match k.request method d number with
        | (none, k) => .requested d :: (next (.error (.evaluation .cancelled))).draws o c k
        | (some _, _) => [.requested d]
      | some value, _ => .pinned d :: (next (.ok value)).draws o c k
      | none, _ =>
        let (value, c) := c.rollDie d
        .rolled d value :: (next (.ok value)).draws o c k
  | leave ticket next, c, k => next.draws o c (k.finish ticket.number)

/-- The dice that a suspended plan draws when it is polled. -/
def Suspended.draws (o : EvaluationOptions) (s : Suspended α) (c : Context σ)
    (k : Coordinator) : List Draw :=
  match s with
  | finished _ => []
  | waiting id d next =>
    match k.collect id with
    | (.pending, _) => []
    | (.answered value, k) => .answered d value :: (next (.ok value)).draws o c k
    | (.cancelled, k) => (next (.error (.evaluation .cancelled))).draws o c k

/-! ## Courses -/

/-- An evaluation step by step, with the others who wait at the coordinator of its roll. -/
structure Course (σ : Type) where
  attempt : LiveRoll.Attempt
  live : LiveRoll
  context : Context σ
  waiters : List Waiter
  /-- The dice that were drawn, in order. -/
  log : List Draw

namespace Course

/-- What may happen next. -/
inductive Move where
  | poll
  /-- Something else happens at the coordinator. -/
  | other (event : Desk.Event)
  deriving DecidableEq, Repr

/-- The coordinator and those who wait there besides the evaluation. -/
def desk (s : Course σ) : Desk := ⟨s.live.coordinator, s.waiters⟩

/-- An evaluation begins. -/
def start (o : EvaluationOptions) (l : LiveRoll) (c : Context σ) (waiters : List Waiter) :
    Course σ :=
  let (attempt, live, context) := l.begin o c
  { attempt, live, context, waiters
    log :=
      if l.roll.evaluated then []
      else (Evaluation.roll ⟨o, c.functions, false⟩ l.roll).run.draws o c.restart l.coordinator }

/-- A course after a move. -/
def step (m : Move) (s : Course σ) : Course σ :=
  match m with
  | .poll =>
    let (attempt, live, context) := s.live.poll s.attempt s.context
    { s with
      attempt, live, context
      log := s.log ++
        s.attempt.state.draws s.attempt.options s.context s.live.coordinator }
  | .other e =>
    let d := s.desk.step e
    { s with live := s.live.withCoordinator d.coordinator, waiters := d.waiters }

/-- A course after moves in a row. -/
def run : List Move → Course σ → Course σ
  | [], s => s
  | m :: rest, s => run rest (s.step m)

/-- The values that were obtained from the roller or from outside, in order. -/
def obtained (s : Course σ) : List (Denomination × Int) := s.log.filterMap Draw.obtained?

end Course

/-! ## Rollers that show values -/

/-- A roller shows values for dice in a row. -/
def Roller.Shows : List (Denomination × Int) → τ → Prop
  | [], _ => True
  | (d, value) :: rest, r =>
    d.valueOf (Roller.roll d.faces r).1 = value ∧ Roller.Shows rest (Roller.roll d.faces r).2

/-- A roller after dice in a row. -/
def Roller.after : List (Denomination × Int) → τ → τ
  | [], r => r
  | (d, _) :: rest, r => Roller.after rest (Roller.roll d.faces r).2

/-- A roller that goes through a list of faces. -/
structure ScriptedRoller where
  faces : List Nat

instance : Roller ScriptedRoller where
  roll _ r := (r.faces.headD 1, ⟨r.faces.tail⟩)

/-- A context with another roller. -/
def Context.withRoller (c : Context σ) (r : τ) : Context τ :=
  ⟨c.config, c.rolls, r, c.functions⟩

/-! ## What is compared -/

/-- The options of an evaluation at once that rolls whatever is not fixed. -/
def EvaluationOptions.atOnce (o : EvaluationOptions) : EvaluationOptions :=
  { o with allowInteractive := false, strict := false }

/-- A course that is over agrees with an evaluation at once: there are faces for the values
    that it obtained, and on every roller that shows these values the evaluation at once
    has the same outcome, leaves the same roll and draws the same number of dice. -/
structure Course.Agrees (o : EvaluationOptions) (l : LiveRoll) (c : Context σ)
    (outcome : Except RollError Number) (s : Course σ) : Prop where
  shown : ∃ faces, Roller.Shows s.obtained (ScriptedRoller.mk faces)
  same : ∀ {τ : Type} [Roller τ] (r : τ), Roller.Shows s.obtained r →
    ∃ l' c', l.evaluateNow o.atOnce (c.withRoller r) = (outcome, l', c') ∧
      l'.roll = s.live.roll ∧ c'.rolls = s.context.rolls

end DiceNotation
