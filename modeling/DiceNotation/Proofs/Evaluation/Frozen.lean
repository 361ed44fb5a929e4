/-
  DiceNotation.Proofs.Evaluation.Frozen

  Results that have left play.

  A result that was dropped or rerolled stays among the results, and what is done to them
  later passes it by. The two modifiers that bound values are the exception: they change
  the value of an inactive result as they change that of an active one
  (`Evaluation.frozen_but_clamped`).
-/

import DiceNotation.Proofs.Evaluation.Treatment

namespace DiceNotation

open Modifier List

/-- What modifiers do to the value of any result. -/
def DieResult.clampAll (ms : List Modifier) (r : DieResult) : DieResult :=
  ms.foldl (fun r m => m.effect.clamp r) r

/-- Results that have left play stay where they are, and nothing but `change` is done to
    them. -/
def DieResult.FrozenBut (change : DieResult → DieResult) (rs rs' : List DieResult) : Prop :=
  ∀ (i : Nat) (r : DieResult), rs[i]? = some r → r.active = false → rs'[i]? = some (change r)

theorem Modifier.Effect.active_clamp (e : Effect) (r : DieResult) :
    (e.clamp r).active = r.active := by
  cases e <;> rfl

/-- An effect treats a result that has left play in one way only. -/
theorem Modifier.Effect.Treats.clamped {least greatest : Int} {e : Effect} {r r' : DieResult}
    (h : e.Treats least greatest r r') (hr : r.active = false) : r' = e.clamp r :=
  h.cases.resolve_right fun ⟨hactive, _⟩ => Bool.false_ne_true (hr.symm.trans hactive)

/-- So do modifiers in a row. -/
theorem DieResult.Undergoes.clamped {d : Denomination} {ms : List Modifier} {r r' : DieResult}
    (h : Undergoes d ms r r') (hr : r.active = false) : r' = r.clampAll ms := by
  induction h with
  | nil r => rfl
  | @cons m ms r r₁ r' htreats hrest ih =>
    obtain rfl := htreats.clamped hr
    exact ih ((m.effect.active_clamp r).trans hr)

theorem DieResult.frozenBut_of_forall₂ {R : DieResult → DieResult → Prop}
    {change : DieResult → DieResult} (hR : ∀ r r', R r r' → r.active = false → r' = change r)
    {rs rs' : List DieResult} (h : Forall₂ R rs rs') : FrozenBut change rs rs' := by
  induction h with
  | nil => exact nofun
  | cons hr _ ih =>
    intro i r hi hinactive
    cases i with
    | zero =>
      cases hi
      exact congrArg some (hR _ _ hr hinactive)
    | succ i => exact ih i r hi hinactive

theorem DieResult.FrozenBut.append {change : DieResult → DieResult} {rs rs' : List DieResult}
    (h : FrozenBut change rs rs') (more : List DieResult) : FrozenBut change rs (rs' ++ more) := by
  intro i r hi hinactive
  have hi' := h i r hi hinactive
  rw [List.getElem?_append_left (List.getElem?_eq_some_iff.mp hi').1, hi']

/-- Nothing but the modifiers that bound values changes a result that has left play: neither an
    effect on results of any range nor modifiers in a row, with all rerolls and explosions
    among them. -/
theorem Evaluation.frozen_but_clamped (least greatest : Int) (e : Effect) (pinned : Bool)
    (d : Denomination) (ticket : Option Ticket) (ms : List Modifier) (rs : List DieResult) :
    DieResult.FrozenBut e.clamp rs (e.apply least greatest rs) ∧
      Yields (modify pinned d (draw d ticket) ms rs) fun _ rs' =>
        DieResult.FrozenBut (DieResult.clampAll ms) rs rs' := by
  refine ⟨DieResult.frozenBut_of_forall₂ (fun _ _ h => h.clamped) (e.treats_apply _ _ rs), ?_⟩
  refine (yields_modify pinned d ticket ms rs).mono fun drawn rs' hmodify => ?_
  obtain ⟨values, old, new, -, rfl, hold, -⟩ := hmodify
  exact (DieResult.frozenBut_of_forall₂ (fun _ _ h => h.clamped) hold).append new

/-- A dropped 2 is a 4 after all when results are raised to 4 later. -/
theorem Modifier.Effect.apply_minimum_discarded :
    ¬ ∀ (least greatest : Int) (e : Effect) (rs : List DieResult) (i : Nat) (r : DieResult),
      rs[i]? = some r → r.active = false → (e.apply least greatest rs)[i]? = some r := by
  intro h
  have hframe := h 1 6 (.minimum 4) [.fresh 5, (DieResult.fresh 2).discard] 1 _ rfl rfl
  exact absurd hframe (by decide)

end DiceNotation
