/-
  DiceNotation.Proofs.Evaluation.Replay

  Step by step and at once.

  A plan that was carried on step by step is replayed at once on any roller that
  shows the values obtained so far: `Replays` says so of a plan that is over and of
  one that waits. It holds after a plan was carried on (`Plan.Advances.replays`) and
  is kept when a plan that waits goes on with its answer (`Replays.resume`).
-/

import DiceNotation.Proofs.Evaluation.Advance
import DiceNotation.Proofs.Evaluation.Alike

namespace DiceNotation

variable {σ τ α : Type} [Roller σ] [Roller τ]

/-! ## Rollers that show values -/

namespace Roller

/-- Values are shown in a row when they are shown one part after the other. -/
theorem shows_append (t u : List (Denomination × Int)) (r : τ) :
    Shows (t ++ u) r ↔ Shows t r ∧ Shows u (after t r) := by
  induction t generalizing r with
  | nil => simp [Shows, after]
  | cons e rest ih => simp [Shows, after, ih, and_assoc]

/-- A roller after dice in a row is one after the first part and then the other. -/
theorem after_append (t u : List (Denomination × Int)) (r : τ) :
    after (t ++ u) r = after u (after t r) := by
  induction t generalizing r with
  | nil => rfl
  | cons e rest ih => exact ih _

/-- Values of faces are shown by a list of faces. -/
theorem exists_script (t : List (Denomination × Int))
    (h : ∀ e ∈ t, ∃ face, e.1.valueOf face = e.2) :
    ∃ faces, Shows t (ScriptedRoller.mk faces) := by
  induction t with
  | nil => exact ⟨[], trivial⟩
  | cons e rest ih =>
    obtain ⟨face, hface⟩ := h e List.mem_cons_self
    obtain ⟨faces, hfaces⟩ := ih fun e he => h e (List.mem_cons_of_mem _ he)
    exact ⟨face :: faces, hface, hfaces⟩

end Roller

/-- A value that can come up is that of a face. -/
theorem Denomination.exists_face {d : Denomination} {v : Int} (h : d.canShow v = true) :
    ∃ face, d.valueOf face = v := by
  obtain ⟨hlow, -⟩ : d.least ≤ v ∧ v ≤ d.greatest := by simpa [canShow] using h
  cases d with
  | die n => exact ⟨v.toNat, by simp only [least, valueOf] at hlow ⊢; omega⟩
  | coin => exact ⟨(v + 1).toNat, by simp only [least, valueOf] at hlow ⊢; omega⟩
  | fate => exact ⟨(v + 2).toNat, by simp only [least, valueOf] at hlow ⊢; omega⟩

/-! ## At once -/

/-- At once and without interaction, leave to draw dice is given without a ticket. -/
theorem Plan.runNow_enter (o : EvaluationOptions) (dice : Dice)
    (next : Except RollError (Option Ticket) → Plan α) (c : Context τ) :
    (Plan.enter dice next).runNow o.atOnce c = (next (.ok none)).runNow o.atOnce c := by
  simp [runNow, Context.interactiveMethod?, EvaluationOptions.atOnce]

/-- A failing plan is strict. -/
theorem Plan.Fails.strict {p : Plan (Except RollError α)} {e : RollError} (h : p.Fails e) :
    p.Strict := by
  induction p with
  | done => exact trivial
  | leave _ _ ih => exact ih h
  | enter | draw => exact h.elim

/-- A failing plan asks for nothing more. -/
theorem Plan.Fails.eq_finished {p : Plan (Except RollError α)} {e : RollError} (h : p.Fails e)
    {o : EvaluationOptions} {c c' : Context σ} {k k' : Coordinator} {log : List Draw}
    {s : Suspended (Except RollError α)} (ha : Plan.Advances o p c k log s c' k') :
    s = .finished (.error e) := by
  induction ha with
  | done a =>
    rw [show a = .error e from h]
  | leave _ ih => exact ih h
  | untracked | tracked | tooMany | pinned | rolled | refused | requested => exact h.elim

/-! ## Replaying -/

/-- A plan is replayed at once on every roller that shows the values obtained so far: up to
    its outcome if it is over, and if it waits, up to the value that is waited for. -/
def Replays (o : EvaluationOptions) (q : Plan (Except RollError α)) (c : Context σ)
    (t : List (Denomination × Int)) (rolls : Nat) : Suspended (Except RollError α) → Prop
  | .finished outcome => ∀ {τ : Type} [Roller τ] (r : τ), Roller.Shows t r →
    q.runNow o.atOnce (c.withRoller r) = (outcome, ⟨c.config, rolls, Roller.after t r, c.functions⟩)
  | .waiting _ d next =>
    (∀ e, (next (.error e)).Fails e) ∧ (∀ v, (next (.ok v)).Strict) ∧
      ∃ next' : Int → Plan (Except RollError α), (∀ v, (next (.ok v)).Alike (next' v)) ∧
        ∀ {τ : Type} [Roller τ] (v : Int) (r : τ), Roller.Shows (t ++ [(d, v)]) r →
          q.runNow o.atOnce (c.withRoller r) = (next' v).runNow o.atOnce
            ⟨c.config, rolls, Roller.after (t ++ [(d, v)]) r, c.functions⟩

variable {o : EvaluationOptions} {q q' : Plan (Except RollError α)} {c c₁ : Context σ}
  {t u : List (Denomination × Int)} {rolls : Nat} {s : Suspended (Except RollError α)}

omit [Roller σ] in
/-- What is replayed from a later point is replayed from an earlier one. -/
theorem Replays.prepend (h : Replays o q' c₁ t rolls s)
    (hc : c₁.config = c.config ∧ c₁.functions = c.functions)
    (hq : ∀ {τ : Type} [Roller τ] (r : τ), Roller.Shows u r →
      q.runNow o.atOnce (c.withRoller r) =
        q'.runNow o.atOnce (c₁.withRoller (Roller.after u r))) :
    Replays o q c (u ++ t) rolls s := by
  cases s with
  | finished outcome =>
    intro τ _ r hr
    obtain ⟨hu, ht⟩ := (Roller.shows_append u t r).mp hr
    rw [hq r hu, h _ ht, Roller.after_append, hc.1, hc.2]
  | waiting id d next =>
    obtain ⟨hfails, hstrict, next', halike, hnext⟩ := h
    refine ⟨hfails, hstrict, next', halike, ?_⟩
    intro τ _ v r hr
    rw [List.append_assoc] at hr ⊢
    obtain ⟨hu, ht⟩ := (Roller.shows_append u (t ++ [(d, v)]) r).mp hr
    rw [hq r hu, hnext v _ ht, Roller.after_append u, hc.1, hc.2]

/-- A plan that was carried on is replayed by every plan that is alike, unless it was
    cancelled. -/
theorem Plan.Advances.replays {p : Plan (Except RollError α)} (halike : p.Alike q)
    (hstrict : p.Strict) {c c' : Context σ} {k k' : Coordinator} {log : List Draw}
    (h : Advances o p c k log s c' k') :
    Replays o q c (log.filterMap Draw.obtained?) c'.rolls s ∨
      k'.cancelled = true ∧ s = .finished (.error (.evaluation .cancelled)) := by
  induction halike generalizing c k log with
  | done a =>
    cases h
    exact .inl fun r _ => rfl
  | leaveLeft t _ ih =>
    cases h with
    | leave h => exact ih hstrict h
  | leaveRight t _ ih =>
    refine (ih hstrict h).imp_left fun hr => ?_
    exact hr.prepend (u := []) ⟨rfl, rfl⟩ fun r _ => rfl
  | enter dice halike ih =>
    have hreplay : ∀ t {k : Coordinator}, Advances o _ c k log s c' k' → _ := fun t k h =>
      (ih t none (hstrict.2 t) h).imp_left fun hr =>
        hr.prepend (u := []) ⟨rfl, rfl⟩ fun r _ => runNow_enter o dice _ _
    cases h with
    | untracked h => exact hreplay none h
    | tracked external t hmethod h => exact hreplay (some t) h
  | @draw d t t' next next' halike ih =>
    have hcount : ∀ {τ : Type} [Roller τ] (r : τ), (c.withRoller r).count.1 = c.count.1 :=
      fun r => rfl
    cases h with
    | tooMany hmany h =>
      refine (ih _ (hstrict.1 _).strict h).imp_left fun hr => ?_
      refine hr.prepend (u := []) ⟨rfl, rfl⟩ fun r _ => ?_
      simp only [runNow, hcount, hmany, if_true]
      rfl
    | pinned v hmany hpin h =>
      refine (ih _ (hstrict.2 v) h).imp_left fun hr => ?_
      refine hr.prepend (u := []) ⟨rfl, rfl⟩ fun r _ => ?_
      have hpin' : o.atOnce.pinnedValue? d = some v := hpin
      simp only [runNow, hcount, hmany, Bool.false_eq_true, if_false, drawNow, hpin']
      rfl
    | @rolled _ _ _ _ _ _ _ log s hmany hpin h =>
      refine (ih _ (hstrict.2 _) h).imp_left fun hr => ?_
      refine hr.prepend (u := [(d, (c.count.2.rollDie d).1)]) ⟨rfl, rfl⟩ fun r hshows => ?_
      have hpin' : o.atOnce.pinnedValue? d = none := hpin
      simp only [runNow, hcount, hmany, Bool.false_eq_true, if_false, drawNow, hpin']
      rw [← hshows.1]
      rfl
    | refused hmany hpin hc h => exact .inr ⟨h.cancelled.trans hc, (hstrict.1 _).eq_finished h⟩
    | requested ticket method hmany hpin hc =>
      refine .inl ⟨hstrict.1, hstrict.2, fun v => next' (.ok v), fun v => halike (.ok v), ?_⟩
      intro τ _ v r hshows
      have hpin' : o.atOnce.pinnedValue? d = none := hpin
      simp only [runNow, hcount, hmany, Bool.false_eq_true, if_false, drawNow, hpin']
      rw [← hshows.1]
      rfl

/-- A plan that waits is replayed further when it goes on with its answer, unless it was
    cancelled. -/
theorem Replays.resume {id : Nat} {d : Denomination}
    {next : Except RollError Int → Plan (Except RollError α)}
    (h : Replays o q c t c₁.rolls (.waiting id d next)) (v : Int)
    (hc : c₁.config = c.config ∧ c₁.functions = c.functions) {c' : Context σ}
    {k k' : Coordinator} {log : List Draw} (ha : Plan.Advances o (next (.ok v)) c₁ k log s c' k') :
    Replays o q c (t ++ (d, v) :: log.filterMap Draw.obtained?) c'.rolls s ∨
      k'.cancelled = true ∧ s = .finished (.error (.evaluation .cancelled)) := by
  obtain ⟨-, hstrict, next', halike, hnext⟩ := h
  refine (ha.replays (halike v) (hstrict v)).imp_left fun hr => ?_
  have := hr.prepend (u := t ++ [(d, v)]) (c := c) hc fun r hshows => by
    rw [hnext v r hshows, Context.withRoller, hc.1, hc.2]
  rwa [List.append_assoc] at this

end DiceNotation
