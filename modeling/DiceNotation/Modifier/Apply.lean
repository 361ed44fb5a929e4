/-
  DiceNotation.Modifier.Apply

  The effect of modifiers on results.

  `Effect.apply` carries out the effects that bring no new results. Results keep
  their places; the effects change only what became of them. The range of a
  single result gives the target of a count without a condition.
-/

import DiceNotation.DieResult
import DiceNotation.Modifier.Basic

namespace DiceNotation.Modifier

open DieResult

-- ============================================================================
-- Keeping and dropping
-- ============================================================================

/-- Whether a result ranks no later than another: by its value, and of equal values
    the one rolled earlier. Each result stands beside its index. -/
def ranksBefore (highest : Bool) (a b : DieResult × Nat) : Bool :=
  (if highest then b.1.result < a.1.result else a.1.result < b.1.result) ||
    (a.1.result == b.1.result && a.2 ≤ b.2)

/-- The active results with their indices, by rank. -/
def ranked (highest : Bool) (rs : List DieResult) : List (DieResult × Nat) :=
  (rs.zipIdx.filter fun (r, _) => r.active).mergeSort (ranksBefore highest)

/-- The indices of the first `number` active results by rank. -/
def selected (highest : Bool) (number : Nat) (rs : List DieResult) : List Nat :=
  ((ranked highest rs).take number).map Prod.snd

/-- Discards the active results that are not selected when keeping, and the selected
    ones when dropping. -/
def keepOrDrop (keep highest : Bool) (number : Nat) (rs : List DieResult) : List DieResult :=
  let chosen := selected highest number rs
  rs.zipIdx.map fun (r, i) =>
    if r.active && chosen.contains i != keep then r.discard else r

-- ============================================================================
-- Counting
-- ============================================================================

/-- Changes the active results. -/
def onActive (f : DieResult → DieResult) (rs : List DieResult) : List DieResult :=
  rs.map fun r => if r.active then f r else r

/-- One for a hit and zero for a miss. -/
def hitCount (hit : Bool) : Int := if hit then 1 else 0

/-- Counts a hit as a success. -/
def markSuccess (hit : Bool) (r : DieResult) : DieResult :=
  { r with success := some hit, failure := if hit then none else r.failure, count := hitCount hit }

/-- Counts a hit as a failure. -/
def markFailure (hit : Bool) (r : DieResult) : DieResult :=
  { r with failure := some hit, success := if hit then none else r.success, count := hitCount hit }

/-- Counts a hit and leaves an earlier failure as it is. -/
def markHit (hit : Bool) (r : DieResult) : DieResult :=
  { r with success := some hit, count := hitCount hit }

/-- A number kept within 64 bits. -/
def saturated (n : Int) : Int := max Text.minInt64 (min Text.maxInt64 n)

/-- Makes a result that fails take from the total: one, or its value when `byValue` is
    set. Without a condition the results that were counted as misses fail. -/
def deduct (condition : Option Condition) (byValue : Bool) (r : DieResult) : DieResult :=
  let failed := match condition with
    | some c => c.holds r.result
    | none => r.success == some false
  if failed then
    { r with failure := some true, success := none
             count := some (if byValue then saturated (-r.result) else -1) }
  else r

/-- Counts a result for how far it is above its target, or below it when the comparison
    is with smaller values. -/
def margin (c : Condition) (r : DieResult) : DieResult :=
  let distance := match c.comparison with
    | .less | .atMost => c.target - r.value
    | _ => r.value - c.target
  { r with count := some (saturated distance) }

-- ============================================================================
-- Effects
-- ============================================================================

/-- Carries out an effect where `least` and `greatest` are the range of one result. New
    results are not drawn here, so that rerolls and explosions do nothing. -/
def Effect.apply (least greatest : Int) : Effect → List DieResult → List DieResult
  | .reroll _ _, rs | .explode _ _, rs => rs
  | .keepDrop keep highest number, rs => keepOrDrop keep highest number rs
  | .minimum value, rs => rs.map fun r => { r with result := max r.result value }
  | .maximum value, rs => rs.map fun r => { r with result := min r.result value }
  | .countSuccess condition, rs =>
    let c := condition.getD ⟨.atLeast, greatest⟩
    onActive (fun r => markSuccess (c.holds r.result) r) rs
  | .countFailures condition, rs =>
    let c := condition.getD ⟨.equal, least⟩
    onActive (fun r => markFailure (c.holds r.result) r) rs
  | .deductFailures condition, rs => onActive (deduct condition false) rs
  | .subtractFailures condition, rs => onActive (deduct condition true) rs
  | .marginSuccess c, rs => onActive (margin c) rs
  | .countEven, rs => onActive (fun r => markHit (r.result % 2 == 0) r) rs
  | .countOdd, rs => onActive (fun r => markHit (r.result % 2 != 0) r) rs
  | .call value, rs => onActive (fun r => markHit (r.result == value) r) rs

/-- Changing active results keeps their number. -/
theorem length_onActive (f : DieResult → DieResult) (rs : List DieResult) :
    (onActive f rs).length = rs.length := by
  simp [onActive]

/-- No effect adds or removes a result. -/
theorem Effect.length_apply (least greatest : Int) (e : Effect) (rs : List DieResult) :
    (e.apply least greatest rs).length = rs.length := by
  cases e <;> simp [Effect.apply, keepOrDrop, length_onActive]

end DiceNotation.Modifier
