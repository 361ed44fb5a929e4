/-
  DiceNotation.Proofs.Evaluation.Whole

  The dice of an evaluated roll are intact.

  Whatever calls are made for the roll of a formula, and whatever others do at its
  coordinator, the roll is blank until a call succeeds and settled from then on
  (`Lifetime.Whole`). A call that waits has a seat among all others who wait, which the
  coordinator serves; so the value that it gets is one that its die can show, as is every
  value of a fair roller and every fixed one (`Lifetime.intact_run`).
-/

import DiceNotation.Proofs.Evaluation.Agreement
import DiceNotation.Proofs.Evaluation.Intact
import DiceNotation.Proofs.Roll.Copy

namespace DiceNotation

open Formula

variable {σ : Type} [Roller σ]

/-! ## Outcomes -/

/-- An outcome that is a failure or a settled roll. -/
def Settles (outcome : Except RollError (Roll × Number)) : Prop :=
  ∀ x, outcome = .ok x → x.1.Settled

theorem Evaluation.fairly_settles_roll (s : Setting) {r : Roll} (hr : r.Blank) :
    (roll s r).run.Fairly Settles := keepsIntact_roll s r hr

/-- A blank roll that is evaluated at once is settled if the call succeeds. -/
theorem Roll.Blank.evaluateNow (hroller : Roller.Fair σ) {r : Roll} (hr : r.Blank)
    (o : EvaluationOptions) (c : Context σ) : Settles (r.evaluateNow o c).1 := by
  intro x hx
  rcases hnow : r.evaluateNow o c with ⟨outcome, c'⟩
  rw [hnow] at hx
  obtain rfl : outcome = .ok x := hx
  rw [Roll.evaluateNow_of_refuseNow (Roll.refuseNow_of_evaluateNow hnow)] at hnow
  have hsettles := (Evaluation.fairly_settles_roll ⟨o, c.functions, true⟩ hr).runNow hroller o
    c.restart
  rw [hnow] at hsettles
  exact hsettles x rfl

namespace Lifetime

/-! ## What holds at any time -/

/-- The seat of the call that is under way, among those who wait at the coordinator. -/
def seat (s : Lifetime σ) : Waiter :=
  match s.attempt? with
  | none => .gone
  | some a => a.state.seat

/-- All who wait at the coordinator of the roll. -/
def desk (s : Lifetime σ) : Desk := (Desk.mk s.live.coordinator s.waiters).behind s.seat

/-- A roll that is blank until it is evaluated, and settled from then on. -/
structure Tended (r : Roll) : Prop where
  blank : r.evaluated = false → r.Blank
  intact : r.evaluated = true → r.Intact

/-- What holds of the roll of a formula at any time. -/
structure Whole (s : Lifetime σ) : Prop where
  roll : Tended s.live.roll
  desk : s.desk.Consistent
  attempt : ∀ a, s.attempt? = some a → a.state.Fairly Settles
  serves : ∀ a id d next, s.attempt? = some a → a.state = .waiting id d next →
    s.live.coordinator.Serves id d

variable {s : Lifetime σ}

omit [Roller σ] in
/-- What holds where no call is under way. -/
theorem whole_of_idle (hroll : Tended s.live.roll) (hidle : s.attempt? = none)
    (hdesk : ((Desk.mk s.live.coordinator s.waiters).behind .gone).Consistent) : s.Whole := by
  refine ⟨hroll, ?_, fun a ha => ?_, fun a id d next ha => ?_⟩
  · simpa only [Lifetime.desk, seat, hidle] using hdesk
  · cases hidle.symm.trans ha
  · cases hidle.symm.trans ha

omit [Roller σ] in
/-- Where no call is under way, nobody has its seat. -/
theorem Whole.gone (h : s.Whole) (hidle : s.attempt? = none) :
    ((Desk.mk s.live.coordinator s.waiters).behind .gone).Consistent := by
  simpa only [Lifetime.desk, seat, hidle] using h.desk

omit [Roller σ] in
theorem Tended.settle {live : LiveRoll} (h : Tended live.roll) {a : LiveRoll.Attempt}
    (ha : a.state.Fairly Settles) (k : Coordinator) : Tended (live.settle a k).roll := by
  obtain ⟨o, state⟩ := a
  cases state with
  | waiting id d next => exact h
  | finished outcome =>
    cases outcome with
    | error e => exact h
    | ok x =>
      have hx := ha x rfl
      refine ⟨fun hpending => ?_, fun _ => hx.intact⟩
      cases hpending.symm.trans hx.evaluated

omit [Roller σ] in
/-- A call that was carried on is over with a settled roll or a failure, or has a seat. -/
theorem whole_goOn {live : LiveRoll} (hroll : Tended live.roll) {a : LiveRoll.Attempt}
    (ha : a.state.Fairly Settles) {waiters : List Waiter}
    (hdesk : ((Desk.mk live.coordinator waiters).behind a.state.seat).Consistent)
    (hserves : ∀ id d next, a.state = .waiting id d next → live.coordinator.Serves id d)
    (context : Context σ) (before? : Option LiveRoll.Attempt) :
    (goOn a ⟨live, context, before?, waiters⟩).2.Whole := by
  obtain ⟨o, state⟩ := a
  cases state with
  | finished outcome => exact whole_of_idle hroll rfl hdesk
  | waiting id d next =>
    refine ⟨hroll, hdesk, ?_, ?_⟩
    · rintro _ ⟨⟩
      exact ha
    · rintro _ id d next ⟨⟩ heq
      exact hserves id d next heq

/-- A call goes on with a plan that comes to a settled roll. -/
theorem whole_advance (hroller : Roller.Fair σ) {live : LiveRoll} (h : Tended live.roll)
    {p : Plan (Except RollError (Roll × Number))} (hp : p.Fairly Settles) (o : EvaluationOptions)
    (c : Context σ) {k : Coordinator} {waiters : List Waiter}
    (hk : ((Desk.mk k waiters).behind .gone).Consistent) (before? : Option LiveRoll.Attempt) :
    let (state, c, k) := p.advance o c k
    (goOn ⟨o, state⟩ ⟨live.settle ⟨o, state⟩ k, c, before?, waiters⟩).2.Whole := by
  have hadvances := Plan.advances o p c k
  have hstate := hp.advance hroller hadvances
  have hseated := hadvances.seated hk
  have hcoordinator := live.coordinator_settle ⟨o, (p.advance o c k).1⟩ (p.advance o c k).2.2
  refine whole_goOn (h.settle hstate _) hstate ?_ ?_ _ before?
  · rw [hcoordinator]
    exact hseated.1
  · rw [hcoordinator]
    exact hseated.2

/-! ## Moves -/

omit [Roller σ] in
theorem desk_of_attempt {a : LiveRoll.Attempt} (hattempt : s.attempt? = some a) :
    s.desk = (Desk.mk s.live.coordinator s.waiters).behind a.state.seat := by
  simp only [Lifetime.desk, seat, hattempt]

omit [Roller σ] in
/-- A call that waits is the first of those who wait. -/
theorem waiter_desk {a : LiveRoll.Attempt} (hattempt : s.attempt? = some a) {id : Nat}
    {d : Denomination} {next : Except RollError Int → Plan (Except RollError (Roll × Number))}
    (hstate : a.state = .waiting id d next) : s.desk.waiter 0 = .waiting id := by
  rw [desk_of_attempt hattempt, hstate]
  rfl

theorem Whole.evaluateNow (hroller : Roller.Fair σ) (h : s.Whole) (hidle : s.attempt? = none)
    (o : EvaluationOptions) : (s.step (.evaluateNow o)).2.Whole := by
  simp only [Lifetime.step, hidle, LiveRoll.evaluateNow]
  split
  · rename_i r total c hnow
    have hpending : s.live.roll.evaluated = false := by
      have hrefuse := Roll.refuseNow_of_evaluateNow hnow
      cases hevaluated : s.live.roll.evaluated with
      | false => rfl
      | true => simp [Roll.refuseNow, hevaluated] at hrefuse
    have hsettles := (h.roll.blank hpending).evaluateNow hroller o s.context
    rw [hnow] at hsettles
    have hsettled := hsettles (r, total) rfl
    refine whole_of_idle ⟨fun hpending => ?_, fun _ => hsettled.intact⟩ rfl (h.gone hidle)
    cases hpending.symm.trans hsettled.evaluated
  · exact whole_of_idle h.roll rfl (h.gone hidle)

/-- A call that waits goes on once it has its answer. -/
theorem Whole.poll (hroller : Roller.Fair σ) (h : s.Whole) {a : LiveRoll.Attempt}
    (hattempt : s.attempt? = some a) : (s.step .poll).2.Whole := by
  obtain ⟨o, state⟩ := a
  have hfairly := h.attempt _ hattempt
  have hdesk := h.desk
  rw [desk_of_attempt hattempt] at hdesk
  cases state with
  | finished outcome =>
    simp only [Lifetime.step, hattempt, LiveRoll.poll]
    exact whole_goOn h.roll hfairly hdesk (fun _ _ _ heq => by cases heq) _ _
  | waiting id d next =>
    have hserves := h.serves _ id d next hattempt rfl
    have hfirst := waiter_desk hattempt rfl
    have hreleased : ((Desk.mk (s.live.coordinator.withdraw id) s.waiters).behind .gone).Consistent :=
      h.desk.release hfirst
    simp only [Lifetime.step, hattempt, LiveRoll.poll, Suspended.poll, Coordinator.collect]
    cases hreply : s.live.coordinator.reply id with
    | pending =>
      exact whole_goOn (h.roll.settle hfairly s.live.coordinator) hfairly hdesk
        (fun id d next heq => h.serves _ id d next hattempt heq) _ _
    | answered v =>
      have hfair : d.Fair (.ok v) := by
        rintro _ ⟨⟩ -
        exact hserves.answer v (Coordinator.lookup_of_reply hreply)
      exact whole_advance hroller h.roll (hfairly _ hfair) o _ hreleased _
    | cancelled =>
      exact whole_advance hroller h.roll (hfairly _ (d.fair_error _)) o _ hreleased _

theorem Whole.giveUp (h : s.Whole) {a : LiveRoll.Attempt} (hattempt : s.attempt? = some a) :
    (s.step .giveUp).2.Whole := by
  obtain ⟨o, state⟩ := a
  have hdesk := h.desk
  rw [desk_of_attempt hattempt] at hdesk
  cases state with
  | finished outcome =>
    simp only [Lifetime.step, hattempt]
    exact whole_of_idle h.roll rfl hdesk
  | waiting id d next =>
    simp only [Lifetime.step, hattempt]
    exact whole_of_idle h.roll rfl (h.desk.release (waiter_desk hattempt rfl))

/-- What others do leaves the call that waits its seat. -/
theorem Whole.other (h : s.Whole) (e : Desk.Event) : (s.step (.other e)).2.Whole := by
  have hshift := Desk.step_shift (d := ⟨s.live.coordinator, s.waiters⟩) s.seat e
  refine ⟨h.roll, ?_, h.attempt, fun a id d next hattempt hstate => ?_⟩
  · have hdesk := h.desk.step e.shift
    rw [Lifetime.desk, hshift] at hdesk
    exact hdesk
  · have hserves := Desk.serves_step h.desk (waiter_desk hattempt hstate)
      (h.serves a id d next hattempt hstate) (Desk.shift_ne e).1 (Desk.shift_ne e).2
    rw [Lifetime.desk, hshift] at hserves
    exact hserves

/-- Every move leaves things whole. -/
theorem Whole.step (hroller : Roller.Fair σ) (h : s.Whole) (m : Move σ) : (s.step m).2.Whole := by
  cases hattempt : s.attempt? with
  | none =>
    have hgone := h.gone hattempt
    cases m with
    | evaluateNow o => exact h.evaluateNow hroller hattempt o
    | begin o =>
      simp only [Lifetime.step, hattempt, LiveRoll.begin]
      split
      · exact whole_of_idle h.roll rfl hgone
      · rename_i hpending
        have hblank := h.roll.blank (Bool.eq_false_iff.mpr hpending)
        exact whole_advance hroller h.roll (Evaluation.fairly_settles_roll _ hblank) o _ hgone _
    | other e => exact h.other e
    | equip context =>
      simp only [Lifetime.step, hattempt]
      exact whole_of_idle h.roll rfl hgone
    | poll | giveUp =>
      simp only [Lifetime.step, hattempt]
      exact h
  | some a =>
    cases m with
    | poll => exact h.poll hroller hattempt
    | giveUp => exact h.giveUp hattempt
    | other e => exact h.other e
    | evaluateNow o | begin o | equip context =>
      simp only [Lifetime.step, hattempt]
      exact h

theorem Whole.run (hroller : Roller.Fair σ) (h : s.Whole) (moves : List (Move σ)) :
    (run moves s).Whole := by
  induction moves generalizing s with
  | nil => exact h
  | cons m rest ih => exact ih (h.step hroller m)

/-! ## What is promised -/

/-- With a roller that picks faces of the dice it is asked for, all dice of the roll of a
    formula are intact after a call for it succeeded, at once or step by step, whatever options
    it had and whatever anybody did at the coordinator of the roll. -/
theorem intact_run (hroller : Roller.Fair σ) {formula : String} {data : Json} {r : Roll}
    (h : Roll.withData formula data = .ok r) (c : Context σ) (moves : List (Move σ))
    (hevaluated : (run moves (start ⟨r, none⟩ c [])).live.roll.evaluated = true) :
    ∀ d ∈ (run moves (start ⟨r, none⟩ c [])).live.roll.dice, d.Intact := by
  have hblank := Roll.blank_of_withData h
  have hroll : Tended r := by
    refine ⟨fun _ => hblank, fun hevaluated => ?_⟩
    cases hblank.new
    cases hevaluated
  have hstart : (start ⟨r, none⟩ c []).Whole :=
    whole_of_idle hroll rfl Desk.Consistent.empty.behind_gone
  exact (hstart.run hroller moves).roll.intact hevaluated

/-- Two dice of a table, one of which shows a one and is thrown again: a value that the dice do
    not have is refused, and the third result is the one that was submitted last. -/
theorem intact_run_table :
    ∃ r, Roll.withData "2d6r1" .null = .ok r ∧
      let c : Context StepRoller :=
        { config := { routing := Routing.standard.assign (.die 6) "table" true }
          roller := .start 1 1 }
      let moves : List (Move StepRoller) := [.begin {}, .other (.submit "table" "d6" 7),
        .other (.submit "table" "d6" 1), .poll, .other (.submit "table" "d6" 4), .poll,
        .other (.submit "table" "d6" 5), .poll]
      let roll := (run moves (start ⟨r, none⟩ c [])).live.roll
      roll.evaluated = true ∧ roll.dice.map (·.results.map (·.result)) = [[1, 4, 5]] ∧
        ∀ d ∈ roll.dice, d.Intact := by
  have hparse : parse "2d6r1" =
      .ok [.dice 2 (.die 6) [⟨"r1", .reroll false (some ⟨.equal, 1⟩)⟩]] :=
    @parse_of_token _ ⟨.dice, ['2', 'd', '6', 'r', '1'], ⟨0, 5⟩⟩ _ rfl rfl
  have hroll : Roll.withData "2d6r1" .null = .ok (Roll.ofTerms
      [.dice ⟨2, .die 6, [⟨"r1", .reroll false (some ⟨.equal, 1⟩)⟩], [], {}, false⟩]) :=
    Roll.new_eq_ok.mpr ⟨_, _, hparse, rfl, rfl⟩
  have hroller : Roller.Fair StepRoller := fun sides r => r.roll_mem sides
  refine ⟨_, hroll, by decide +kernel, by decide +kernel, ?_⟩
  exact intact_run hroller hroll _ _ (by decide +kernel)

end Lifetime

end DiceNotation
