/-
  DiceNotation.Evaluation.Session

  Rolls in use.

  A `LiveRoll` is a roll with its coordinator. It is evaluated at once, or step by
  step while results come from outside. Either way it takes on the outcome only
  when the evaluation succeeds; then it stays as it is. A copy of a roll starts
  without a coordinator, so that requests belong to one roll.
-/

import DiceNotation.Evaluation.Roll
import DiceNotation.Evaluation.Suspended
import DiceNotation.Roll.Alter
import DiceNotation.Roll.Build

namespace DiceNotation

variable {σ : Type} [Roller σ]

-- ============================================================================
-- At once
-- ============================================================================

namespace Roll

/-- Refuses an evaluation at once: of a roll that was evaluated, or of one that is left
    to chance when the options are strict. -/
def refuseNow (o : EvaluationOptions) (r : Roll) : Except RollError Unit :=
  if r.evaluated then .error .alreadyEvaluated
  else Evaluation.refuseChance o r.terms

/-- Evaluates a roll at once. -/
def evaluateNow (o : EvaluationOptions) (r : Roll) (c : Context σ) :
    Except RollError (Roll × Number) × Context σ :=
  match r.refuseNow o with
  | .error e => (.error e, c)
  | .ok () =>
    (Evaluation.roll ⟨o, c.functions, true⟩ r).run.runNow o c.restart

/-- A roll of the same formula, evaluated at once. -/
def rerollNow (o : EvaluationOptions) (r : Roll) (c : Context σ) :
    Except RollError (Roll × Number) × Context σ :=
  match r.cloneUnevaluated with
  | .error e => (.error (.malformedFormula e), c)
  | .ok fresh => fresh.evaluateNow o c

/-- The totals of several evaluations of a roll, up to the first failure. -/
def totals (r : Roll) : Nat → Context σ → Except RollError (List Number) × Context σ
  | 0, c => (.ok [], c)
  | n + 1, c =>
    match r.rerollNow .rolled c with
    | (.error e, c) => (.error e, c)
    | (.ok (_, total), c) =>
      let (rest, c) := r.totals n c
      (rest.map (total :: ·), c)

/-- The totals of several evaluations of a formula, with all dice rolled. -/
def simulate (formula : String) (n : Nat) (c : Context σ) :
    Except RollError (List Number) × Context σ :=
  match Roll.new formula with
  | .error e => (.error (.malformedFormula e), c)
  | .ok r => r.totals n c

/-- Rolls a formula at once, with all dice rolled. -/
def rollFormula (formula : String) (c : Context σ) : Except RollError Roll × Context σ :=
  match Roll.new formula with
  | .error e => (.error (.malformedFormula e), c)
  | .ok r =>
    let (outcome, c) := r.evaluateNow .rolled c
    (outcome.map Prod.fst, c)

/-- The dice of a roll whose results must come from outside. -/
def fulfillableDice (routing : Routing) (r : Roll) : List Dice :=
  (Term.diceOfAll r.terms).filter fun d => (routing.externalMethod? d.denomination).isSome

end Roll

-- ============================================================================
-- Live rolls
-- ============================================================================

/-- A roll with its coordinator, which is made when it is first needed. -/
structure LiveRoll where
  roll : Roll
  coordinator? : Option Coordinator := none

namespace LiveRoll

/-- The coordinator of a roll. -/
def coordinator (l : LiveRoll) : Coordinator := l.coordinator?.getD {}

/-- A roll with a coordinator of its own. -/
def withCoordinator (k : Coordinator) (l : LiveRoll) : LiveRoll := { l with coordinator? := some k }

/-- Gives up a roll: whoever waits for its dice fails. -/
def abandon (l : LiveRoll) : LiveRoll := { l with coordinator? := l.coordinator?.map (·.cancel) }

/-- Scales a roll. -/
def alter (s : Scaling) (l : LiveRoll) : Option RollError × LiveRoll :=
  let (roll, refusal) := l.roll.alter s
  (refusal, { l with roll })

/-- Evaluates a roll at once. -/
def evaluateNow (o : EvaluationOptions) (l : LiveRoll) (c : Context σ) :
    Except RollError Number × LiveRoll × Context σ :=
  match l.roll.evaluateNow o c with
  | (.ok (roll, total), c) => (.ok total, { l with roll }, c)
  | (.error e, c) => (.error e, l, c)

-- ============================================================================
-- Step by step
-- ============================================================================

/-- An evaluation that goes on step by step. -/
structure Attempt where
  options : EvaluationOptions
  state : Suspended (Except RollError (Roll × Number))

/-- The outcome of an evaluation, once it has one. -/
def Attempt.outcome? (a : Attempt) : Option (Except RollError Number) :=
  match a.state with
  | .finished outcome => some (outcome.map Prod.snd)
  | .waiting _ _ _ => none

/-- A roll after a step of an evaluation. -/
def settle (l : LiveRoll) (a : Attempt) (k : Coordinator) : LiveRoll :=
  match a.state with
  | .finished (.ok (roll, _)) => ⟨roll, some k⟩
  | _ => l.withCoordinator k

/-- Begins an evaluation and carries it on as far as it goes. -/
def begin (o : EvaluationOptions) (l : LiveRoll) (c : Context σ) :
    Attempt × LiveRoll × Context σ :=
  if l.roll.evaluated then (⟨o, .finished (.error .alreadyEvaluated)⟩, l, c)
  else
    let plan := (Evaluation.roll ⟨o, c.functions, false⟩ l.roll).run
    let (state, c, k) := plan.advance o c.restart l.coordinator
    let a : Attempt := ⟨o, state⟩
    (a, l.settle a k, c)

/-- Polls an evaluation. One that has its outcome stays as it is. -/
def poll (a : Attempt) (l : LiveRoll) (c : Context σ) : Attempt × LiveRoll × Context σ :=
  match a.state with
  | .finished _ => (a, l, c)
  | .waiting _ _ _ =>
    let (state, c, k) := a.state.poll a.options c l.coordinator
    let a : Attempt := { a with state }
    (a, l.settle a k, c)

/-- Gives up an evaluation. -/
def giveUp (a : Attempt) (l : LiveRoll) : LiveRoll :=
  match a.state with
  | .finished _ => l
  | .waiting _ _ _ => l.withCoordinator (a.state.giveUp l.coordinator)

end LiveRoll

end DiceNotation
