/-
  DiceNotation.Evaluation.Dice

  Evaluating dice.

  The dice that are missing are drawn first; then the modifiers take effect from
  left to right. Rerolls and explosions go through the results in a pass, and the
  dice that they bring are put at the end. A single pass stops after the results
  that were there when it began, a recursive one goes on with those it brought,
  and a pass that would inspect too many results fails.
-/

import DiceNotation.Evaluation.Plan
import DiceNotation.Modifier.Apply

namespace DiceNotation.Evaluation

open Modifier

-- ============================================================================
-- Drawing
-- ============================================================================

/-- Draws dice in a row; those that were drawn are held newest first. -/
def drawMany (one : Evaluation Int) : Nat → List DieResult → Evaluation (List DieResult)
  | 0, drawn => return drawn.reverse
  | n + 1, drawn => do
    let value ← one
    drawMany one n (.fresh value :: drawn)

-- ============================================================================
-- Passes
-- ============================================================================

/-- How many results a pass may inspect, the last of them excepted. -/
def passLimit : Nat := 1000

/-- How a pass goes through results. -/
structure Pass where
  condition : Condition
  /-- What becomes of a result that meets the condition. -/
  mark : DieResult → DieResult
  /-- Whether the dice that the pass brings are inspected, too. -/
  recursive : Bool

/-- Whether a pass hits a result. -/
def Pass.hits (p : Pass) (r : DieResult) : Bool := r.active && p.condition.holds r.result

/-- Goes on with a pass. The results behind are held newest first; `left` of those ahead
    were there when the pass began, and `limit` more than the next one may be
    inspected. -/
def Pass.through (p : Pass) (one : Evaluation Int) :
    (limit left : Nat) → (behind ahead : List DieResult) → Evaluation (List DieResult)
  | _, _, behind, [] => return behind.reverse
  | limit, left, behind, r :: ahead => do
    let ahead ← if p.hits r then do
        let value ← one
        pure (ahead ++ [.fresh value])
      else pure ahead
    let behind := (if p.hits r then p.mark r else r) :: behind
    if !p.recursive && left ≤ 1 then return behind.reverse ++ ahead
    else match limit with
      | 0 => throw .tooManyRolls
      | limit + 1 => p.through one limit (left - 1) behind ahead

/-- A pass through results. -/
def Pass.run (p : Pass) (one : Evaluation Int) (rs : List DieResult) :
    Evaluation (List DieResult) :=
  p.through one passLimit rs.length [] rs

-- ============================================================================
-- Modifiers
-- ============================================================================

/-- The pass that an effect makes through the results of a denomination. -/
def pass? (d : Denomination) : Effect → Option Pass
  | .reroll recursive condition =>
    some ⟨condition.getD ⟨.equal, d.least⟩, DieResult.reroll, recursive⟩
  | .explode recursive condition =>
    some ⟨condition.getD ⟨.equal, d.greatest⟩, DieResult.explode, recursive⟩
  | _ => none

/-- Carries out an effect on the results of a denomination. Dice whose values are fixed
    are neither rerolled nor exploded. -/
def effect (pinned : Bool) (d : Denomination) (one : Evaluation Int) (e : Effect)
    (rs : List DieResult) : Evaluation (List DieResult) :=
  match pass? d e with
  | some p => if pinned then pure rs else p.run one rs
  | none => pure (e.apply d.least d.greatest rs)

/-- Carries out modifiers from left to right. -/
def modify (pinned : Bool) (d : Denomination) (one : Evaluation Int) :
    List Modifier → List DieResult → Evaluation (List DieResult)
  | [], rs => return rs
  | m :: rest, rs => do
    let rs ← effect pinned d one m.effect rs
    modify pinned d one rest rs

-- ============================================================================
-- Dice
-- ============================================================================

/-- The results of dice. -/
def results (pinned : Bool) (ticket : Option Ticket) (d : Dice) :
    Evaluation (List DieResult) := do
  let one := draw d.denomination ticket
  let drawn ← drawMany one (d.number - d.results.length) []
  modify pinned d.denomination one d.modifiers (d.results ++ drawn)

/-- Evaluates dice. -/
def dice (pinned : Bool) (d : Dice) : Evaluation Dice := do
  if d.evaluated then throw .alreadyEvaluated
  let ticket ← enter d
  let results ← returning ticket (results pinned ticket d)
  return { d with results, evaluated := true }

end DiceNotation.Evaluation
