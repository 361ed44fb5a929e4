/-
  DiceNotation.Proofs.Evaluation.Yield

  What an evaluation yields, and with which dice.

  `Plan.Told` relates the outcomes of a plan to what it was told of each die that it
  asked for, with every answer allowed. An evaluation that is told of a failure fails
  itself; so its successful outcomes are related to the values of all of its dice
  (`Evaluation.Yields`), with one rule for each way to build an evaluation.
-/

import DiceNotation.Evaluation.Roll

namespace DiceNotation

variable {α β : Type}

/-! ## Plans -/

namespace Plan

/-- Whatever a plan is answered, if `log` lists the dice that it asked for with the answers,
    and `a` is its outcome, then `P log a` holds. -/
def Told : (List (Denomination × Except RollError Int) → α → Prop) → Plan α → Prop
  | P, done a => P [] a
  | P, enter _ next => ∀ answer, (next answer).Told P
  | P, draw d _ next => ∀ answer, (next answer).Told fun log => P ((d, answer) :: log)
  | P, leave _ next => next.Told P

theorem Told.mono {p : Plan α} {P Q : List (Denomination × Except RollError Int) → α → Prop}
    (h : p.Told P) (hPQ : ∀ log a, P log a → Q log a) : p.Told Q := by
  induction p generalizing P Q with
  | done a => exact hPQ [] a h
  | enter dice next ih => exact fun answer => ih answer (h answer) hPQ
  | draw d t next ih => exact fun answer => ih answer (h answer) fun log => hPQ (_ :: log)
  | leave t next ih => exact ih h hPQ

/-- A plan and the one that follows are told in a row. -/
theorem told_bind (P : List (Denomination × Except RollError Int) → β → Prop) (p : Plan α)
    (f : α → Plan β) :
    (p.bind f).Told P ↔ p.Told fun log a => (f a).Told fun more => P (log ++ more) := by
  induction p generalizing P with
  | done a => rfl
  | enter dice next ih => exact forall_congr' fun answer => ih answer P
  | draw d t next ih => exact forall_congr' fun answer => ih answer _
  | leave t next ih => exact ih P

end Plan

/-! ## Evaluations -/

namespace Evaluation

/-- A die with its value, as an answer. -/
def told (x : Denomination × Int) : Denomination × Except RollError Int := (x.1, .ok x.2)

/-- Whatever an evaluation is answered, if it succeeds with `a`, then it was given a value
    for every die that it asked for, and `P drawn a` holds of these dice and values. -/
def Yields (e : Evaluation α) (P : List (Denomination × Int) → α → Prop) : Prop :=
  e.run.Told fun log outcome => ∀ a, outcome = .ok a → ∃ drawn, log = drawn.map told ∧ P drawn a

variable {P Q : List (Denomination × Int) → α → Prop} {e : Evaluation α}

theorem Yields.mono (h : Yields e P) (hPQ : ∀ drawn a, P drawn a → Q drawn a) : Yields e Q :=
  Plan.Told.mono h fun _ _ hlog a ha =>
    (hlog a ha).imp fun _ hdrawn => ⟨hdrawn.1, hPQ _ _ hdrawn.2⟩

theorem yields_pure {a : α} (h : P [] a) : Yields (pure a) P := by
  rintro _ ⟨⟩
  exact ⟨[], rfl, h⟩

theorem yields_throw (e : RollError) : Yields (throw e) P := nofun

/-- The dice of an evaluation and of the one that follows are drawn in a row. -/
theorem Yields.bind {R : List (Denomination × Int) → β → Prop} {f : α → Evaluation β}
    (h : Yields e P) (hf : ∀ drawn a, P drawn a → Yields (f a) fun more => R (drawn ++ more)) :
    Yields (e >>= f) R := by
  refine (Plan.told_bind _ _ _).mpr (Plan.Told.mono h fun log outcome hlog => ?_)
  cases outcome with
  | error e => exact nofun
  | ok a =>
    obtain ⟨drawn, rfl, hP⟩ := hlog a rfl
    refine Plan.Told.mono (hf drawn a hP) fun more outcome hmore b hb => ?_
    obtain ⟨drawn', rfl, hR⟩ := hmore b hb
    exact ⟨drawn ++ drawn', (List.map_append ..).symm, hR⟩

theorem Yields.of_map {R : List (Denomination × Int) → β → Prop} {f : α → β}
    (h : Yields (f <$> e) R) : Yields e fun drawn a => R drawn (f a) := by
  rw [map_eq_pure_bind] at h
  refine Plan.Told.mono ((Plan.told_bind _ _ _).mp h) fun log outcome hlog => ?_
  rintro a rfl
  obtain ⟨drawn, hdrawn, hR⟩ := hlog (f a) rfl
  exact ⟨drawn, (List.append_nil log).symm.trans hdrawn, hR⟩

theorem yields_enter (d : Dice) : Yields (enter d) fun drawn _ => drawn = [] :=
  fun _ _ _ => ⟨[], rfl, rfl⟩

theorem yields_draw (d : Denomination) (ticket : Option Ticket) :
    Yields (draw d ticket) fun drawn v => drawn = [(d, v)] := by
  rintro _ v rfl
  exact ⟨[(d, v)], rfl, rfl⟩

/-- Giving a ticket back asks for no dice. -/
theorem Yields.returning (h : Yields e P) (ticket : Option Ticket) :
    Yields (returning ticket e) P := by
  cases ticket with
  | none => exact h
  | some t =>
    refine (Plan.told_bind _ _ _).mpr (Plan.Told.mono h fun log outcome hlog => ?_)
    simpa only [Plan.Told, List.append_nil] using hlog

end Evaluation

end DiceNotation
