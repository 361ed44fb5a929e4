/-
  DiceNotation.Roller

  Sources of faces.

  A roller picks a face of a die and changes its own state. The two rollers here
  are predictable: one counts upward, the other repeats a list.
-/

namespace DiceNotation

/-- Sources of faces. A roller is asked for one of the faces from one up to a number of
    sides; a die has one side at least. -/
class Roller (σ : Type) where
  /-- Picks a face and gives the roller for the next one. -/
  roll : (sides : Nat) → σ → Nat × σ

-- ============================================================================
-- Counting
-- ============================================================================

/-- A roller that counts upward and starts again at one beyond the last face. Its count has
    32 bits and wraps around. -/
structure StepRoller where
  current : UInt32
  step : UInt32

namespace StepRoller

/-- A roller that starts at a face, the first one if none is given. -/
def start (initial step : Nat) : StepRoller := ⟨max (.ofNat initial) 1, .ofNat step⟩

instance : Roller StepRoller where
  roll sides r :=
    ((r.current - 1).toNat % max sides 1 + 1, { r with current := r.current + r.step })

end StepRoller

-- ============================================================================
-- Repeating
-- ============================================================================

/-- A roller that repeats a list of faces; a face that the die does not have gives way to
    the nearest one. -/
structure SequenceRoller where
  faces : List Nat
  /-- How many faces were picked. Each adds one, so that a counter of 64 bits would not run
      out. -/
  picked : Nat := 0

namespace SequenceRoller

instance : Roller SequenceRoller where
  roll sides r :=
    match r.faces[r.picked % r.faces.length]? with
    | none => (1, r)
    | some face => (max 1 (min face (max sides 1)), { r with picked := r.picked + 1 })

end SequenceRoller

-- ============================================================================
-- Random faces
-- ============================================================================

/-- A pseudo-random source. -/
instance : Roller StdGen where
  roll sides g := randNat g 1 (max sides 1)

-- ============================================================================
-- Faces
-- ============================================================================

/-- Several faces of a roller, one for each die. -/
def Roller.rollAll {σ : Type} [Roller σ] : List Nat → σ → List Nat × σ
  | [], r => ([], r)
  | sides :: rest, r =>
    let (face, r) := Roller.roll sides r
    let (faces, r) := Roller.rollAll rest r
    (face :: faces, r)

/-- A counting roller picks a face that the die has. -/
theorem StepRoller.roll_mem (r : StepRoller) (sides : Nat) (h : 1 ≤ sides) :
    1 ≤ (Roller.roll sides r).1 ∧ (Roller.roll sides r).1 ≤ sides := by
  have := Nat.mod_lt (r.current - 1).toNat (show 0 < max sides 1 by omega)
  simp only [Roller.roll]
  omega

end DiceNotation
