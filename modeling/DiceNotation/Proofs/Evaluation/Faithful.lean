/-
  DiceNotation.Proofs.Evaluation.Faithful

  Dice whose results come from outside are never rolled.

  Step by step, the values of interactive dice are those that were accepted for
  them, in order and each once; at once, an evaluation fails where it would need one
  (`LiveRoll.faithful`).
-/

import DiceNotation.Proofs.Evaluation.Budget
import DiceNotation.Proofs.Evaluation.Entrusted

namespace DiceNotation

variable {σ α : Type} [Roller σ]

/-! ## At once -/

namespace Plan

/-- The dice terms that ask for leave while a plan is carried out at once. -/
def reachedNow (o : EvaluationOptions) : Plan α → Context σ → List Dice
  | done _, _ => []
  | enter dice next, c =>
    let leave := match c.interactiveMethod? o dice with
      | some _ => .error (.synchronous dice.formula)
      | none => .ok none
    dice :: (next leave).reachedNow o c
  | draw d _ next, c =>
    let (tooMany, c) := c.count
    if tooMany then (next (.error .tooManyRolls)).reachedNow o c
    else
      let (value, c) := drawNow o d c
      (next (.ok value)).reachedNow o c
  | leave _ next, c => next.reachedNow o c

/-- The dice that are drawn while a plan is carried out at once, with their values. -/
def drawnNow (o : EvaluationOptions) : Plan α → Context σ → List (Denomination × Int)
  | done _, _ => []
  | enter dice next, c =>
    let leave := match c.interactiveMethod? o dice with
      | some _ => .error (.synchronous dice.formula)
      | none => .ok none
    (next leave).drawnNow o c
  | draw d _ next, c =>
    let (tooMany, c) := c.count
    if tooMany then (next (.error .tooManyRolls)).drawnNow o c
    else
      let (value, c) := drawNow o d c
      (d, value) :: (next (.ok value)).drawnNow o c
  | leave _ next, c => next.drawnNow o c

variable {o : EvaluationOptions}

/-- Dice that nothing fixes are rolled. -/
theorem drawNow_of_not_isPinned (hpin : o.isPinned = false) (d : Denomination) (c : Context σ) :
    drawNow o d c = c.rollDie d := by
  simp only [drawNow, EvaluationOptions.pinnedValue?_eq_none hpin d]

/-- At once the roller is asked for the dice that are drawn, and for nothing else. -/
theorem roller_runNow (hpin : o.isPinned = false) (p : Plan α) (c : Context σ) :
    (p.runNow o c).2.roller = Roller.after (p.drawnNow o c) c.roller := by
  induction p generalizing c with
  | done a => rfl
  | enter dice next ih => exact ih _ c
  | leave ticket next ih => exact ih c
  | draw d ticket next ih =>
    simp only [Plan.runNow, drawnNow, drawNow_of_not_isPinned hpin]
    split
    · exact ih _ c.count.2
    · exact ih _ (c.count.2.rollDie d).2

/-- Leave that is given at once: without a ticket, and to dice that need none. -/
def GrantsNow (routing : Routing) (dice : Dice) (ticket : Option Ticket) : Prop :=
  ticket = none ∧
    (dice.isDeterministic = false → routing.externalMethod? dice.denomination = none)

/-- At once no interactive dice are drawn. -/
theorem externalMethod?_of_mem_drawnNow (hopen : o.allowInteractive = true)
    (hpin : o.isPinned = false) {p : Plan α} {c : Context σ}
    (hp : p.Under (GrantsNow c.config.routing)
      fun d _ => c.config.routing.externalMethod? d = none) :
    ∀ e ∈ p.drawnNow o c, c.config.routing.externalMethod? e.1 = none := by
  induction p generalizing c with
  | done a => simp [drawnNow]
  | leave ticket next ih => exact ih hp
  | enter dice next ih =>
    simp only [drawnNow]
    split
    · exact ih _ (hp.1 _)
    · next hnone =>
      refine ih _ (hp.2 none ⟨rfl, fun hdet => ?_⟩)
      simpa [Context.interactiveMethod?, hopen, hpin, hdet] using hnone
  | draw d ticket next ih =>
    simp only [drawnNow, drawNow_of_not_isPinned hpin]
    split
    · exact ih _ (c := c.count.2) (hp.2 _)
    · intro e he
      rcases List.mem_cons.mp he with rfl | he
      · exact hp.1
      · exact ih _ (c := (c.count.2.rollDie d).2) (hp.2 _) e he

/-- A failing plan asks for no more leave. -/
theorem Fails.reachedNow {p : Plan (Except RollError α)} {e : RollError} (h : p.Fails e)
    (o : EvaluationOptions) (c : Context σ) : p.reachedNow o c = [] := by
  induction p generalizing c with
  | done outcome => rfl
  | leave ticket next ih => exact ih h c
  | enter | draw => exact h.elim

/-- At once, a plan that comes to dice whose results would have to come from outside fails
    for them. -/
theorem runNow_of_mem_reachedNow {p : Plan (Except RollError α)} (hstrict : p.Strict)
    {c : Context σ} {dice : Dice} (hmem : dice ∈ p.reachedNow o c)
    (hdice : (c.interactiveMethod? o dice).isSome = true) :
    (p.runNow o c).1 = .error (.synchronous dice.formula) := by
  induction p generalizing c with
  | done outcome => cases hmem
  | leave ticket next ih => exact ih hstrict hmem hdice
  | enter dice' next ih =>
    simp only [Plan.runNow]
    cases hmethod : c.interactiveMethod? o dice' with
    | some method =>
      -- the refusal is the outcome, so that nothing else is reached
      have hfails := hstrict.1 (.synchronous dice'.formula)
      simp only [reachedNow, hmethod, hfails.reachedNow, List.mem_singleton] at hmem
      subst hmem
      exact hfails.runNow o c
    | none =>
      simp only [reachedNow, hmethod, List.mem_cons] at hmem
      rcases hmem with rfl | hmem
      · rw [hmethod] at hdice
        cases hdice
      · exact ih _ (hstrict.2 none) hmem hdice
  | draw d ticket next ih =>
    simp only [reachedNow] at hmem
    simp only [Plan.runNow]
    split at hmem
    · next hmany =>
      rw [if_pos hmany]
      exact ih _ (hstrict.1 .tooManyRolls).strict hmem hdice
    · next hmany =>
      rw [if_neg hmany]
      have hsame : (drawNow o d c.count.2).2.interactiveMethod? o dice =
          c.interactiveMethod? o dice := by
        unfold drawNow
        split <;> rfl
      exact ih _ (hstrict.2 _) hmem (hsame ▸ hdice)

end Plan

/-! ## Interactive dice -/

/-- The dice terms that ask for leave while a roll is evaluated at once. -/
def Roll.reachedNow (o : EvaluationOptions) (r : Roll) (c : Context σ) : List Dice :=
  match r.refuseNow o with
  | .error _ => []
  | .ok () => (Evaluation.roll ⟨o, c.functions, true⟩ r).run.reachedNow o c.restart

/-- The dice that are drawn while a roll is evaluated at once, with their values. -/
def Roll.drawnNow (o : EvaluationOptions) (r : Roll) (c : Context σ) :
    List (Denomination × Int) :=
  match r.refuseNow o with
  | .error _ => []
  | .ok () => (Evaluation.roll ⟨o, c.functions, true⟩ r).run.drawnNow o c.restart

/-- An evaluation step by step makes up no result of interactive dice, where `results` were
    accepted so far. -/
structure Course.Faithful (c : Context σ) (results : List (String × Denomination × Int))
    (s : Course σ) : Prop where
  /-- Only dice whose method is not interactive are rolled. -/
  rolled : ∀ d v, .rolled d v ∈ s.log → c.config.routing.externalMethod? d = none
  /-- The roller was asked for these dice, in order, and for nothing else. -/
  roller : s.context.roller = Roller.after (s.log.filterMap Draw.rolled?) c.roller
  /-- A value of an interactive die was accepted for its method and denomination. -/
  accepted : ∀ d v method, (d, v) ∈ s.obtained →
    c.config.routing.externalMethod? d = some method → (method, d, v) ∈ results
  /-- Values are drawn in the order in which they were accepted. -/
  inOrder : c.config.routing.handed s.obtained <+: results
  /-- Once the evaluation is over, each of them was drawn once. -/
  complete : ∀ outcome, s.attempt.outcome? = some outcome →
    c.config.routing.handed s.obtained = results

/-- An evaluation at once draws no interactive dice and fails for the first of them that it
    comes to, unless nothing is left to chance there. -/
structure Roll.FaithfulNow (o : EvaluationOptions) (r : Roll) (c : Context σ) : Prop where
  drawn : ∀ d v, (d, v) ∈ r.drawnNow o c → c.config.routing.externalMethod? d = none
  /-- The roller was asked for the dice that were drawn, in order, and for nothing else. -/
  roller : (r.evaluateNow o c).2.roller = Roller.after (r.drawnNow o c) c.roller
  refused : ∀ dice ∈ r.reachedNow o c, dice.isDeterministic = false →
    (c.config.routing.externalMethod? dice.denomination).isSome = true →
      (r.evaluateNow o c).1 = .error (.synchronous dice.formula)

/-- What holds of an entrusted evaluation at any time is what it promises. -/
theorem Course.Entrusted.keeps_faith {o : EvaluationOptions} {c : Context σ}
    {results : List (String × Denomination × Int)} {s : Course σ} (h : Entrusted o c results s) :
    Faithful c results s := by
  obtain ⟨came, hattended, hresults⟩ := h.attended
  refine ⟨h.rolled, h.roller, fun d v method hmem hmethod => ?_, ?_, fun outcome hover => ?_⟩
  · rw [hresults]
    exact List.mem_append_left _ (Routing.mem_handed hmethod hmem)
  · rw [hresults]
    exact List.prefix_append _ _
  · cases hs : s.attempt.state with
    | waiting id d next => simp [LiveRoll.Attempt.outcome?, hs] at hover
    | finished outcome =>
      rw [hs] at hattended
      rw [hresults, hattended.2, List.append_nil]

/-- At once no interactive dice are drawn. -/
theorem Roll.faithfulNow {o : EvaluationOptions} (hopen : o.allowInteractive = true)
    (hpin : o.isPinned = false) (r : Roll) (c : Context σ) : r.FaithfulNow o c := by
  cases hrefuse : r.refuseNow o with
  | error e =>
    have hnow : r.evaluateNow o c = (.error e, c) := by
      rw [Roll.evaluateNow, hrefuse]
    constructor <;> simp [drawnNow, reachedNow, hrefuse, hnow, Roller.after]
  | ok u =>
    have hnow := Roll.evaluateNow_of_refuseNow hrefuse c
    have hunder : (Evaluation.roll ⟨o, c.functions, true⟩ r).run.Under
        (Plan.GrantsNow c.config.routing) fun d _ => c.config.routing.externalMethod? d = none :=
      (Evaluation.composed_roll _ r).under fun d t ht => ht.2
    refine ⟨fun d v hmem => ?_, ?_, fun dice hmem hdet hdice => ?_⟩
    · simp only [drawnNow, hrefuse] at hmem
      exact Plan.externalMethod?_of_mem_drawnNow hopen hpin (c := c.restart) hunder _ hmem
    · simp only [drawnNow, hrefuse, hnow]
      exact Plan.roller_runNow hpin _ c.restart
    · simp only [reachedNow, hrefuse] at hmem
      rw [hnow]
      refine Plan.runNow_of_mem_reachedNow (Evaluation.strict_roll _ r) hmem ?_
      simpa [Context.interactiveMethod?, Context.restart, hopen, hpin, hdet] using hdice

/-- Interactive dice are never rolled. Where results may come from outside and nothing is
    fixed, an evaluation step by step takes the values of interactive dice from those that
    were accepted for them, in order and each of them once, whatever an actor submits and
    whether or not it cancels; and an evaluation at once fails where it would need one. -/
theorem LiveRoll.faithful (o : EvaluationOptions) (l : LiveRoll) (c : Context σ)
    (hopen : o.allowInteractive = true) (hpin : o.isPinned = false)
    (hidle : l.coordinator.Idle) :
    (∀ waiters moves, (∀ m ∈ moves, m.IsActing) →
      Course.Faithful c (Course.accepted moves (Course.start o l c waiters))
        (Course.run moves (Course.start o l c waiters))) ∧
    l.roll.FaithfulNow o c := by
  refine ⟨fun waiters moves hmoves => ?_, Roll.faithfulNow hopen hpin l.roll c⟩
  have hstart : Course.Entrusted o c [] (Course.start o l c waiters) :=
    Course.entrusted_start hopen hpin hidle
  have hrun := hstart.run hopen hpin hmoves
  rw [List.nil_append] at hrun
  exact hrun.keeps_faith

/-- A die of a table and a rolled one: a value for another denomination is refused, and the
    accepted one is drawn. At once the die of the table is the first that is come to, and it is
    refused. -/
theorem LiveRoll.faithful_table :
    let die : Dice := ⟨1, .die 6, [], [], {}, false⟩
    let l : LiveRoll := ⟨Roll.ofTerms [.dice die, .operator .add {},
      .dice ⟨1, .die 8, [], [], {}, false⟩], none⟩
    let c : Context ScriptedRoller :=
      { config := { routing := Routing.standard.assign (.die 6) "table" true }, roller := ⟨[7]⟩ }
    let o : EvaluationOptions := { strict := false }
    let moves : List Course.Move :=
      [.other (.submit "table" "d8" 5), .other (.submit "table" "d6" 4), .poll]
    let s := Course.start o l c []
    Course.accepted moves s = [("table", .die 6, 4)] ∧
      (Course.run moves s).attempt.outcome? = some (.ok (.int 11)) ∧
      Course.Faithful c (Course.accepted moves s) (Course.run moves s) ∧
      l.roll.reachedNow o c = [die] ∧
      (l.roll.evaluateNow o c).1 = .error (.synchronous die.formula) ∧ l.roll.FaithfulNow o c := by
  intro die l c o moves s
  have hfaithful := faithful o l c rfl rfl ⟨rfl, rfl, rfl⟩
  have hover : (Course.run moves s).attempt.outcome? = some (.ok (.int 11)) := by
    simp only [s, moves, l, c, o, die]
    rfl
  have hreached : l.roll.reachedNow o c = [die] := rfl
  have hmem : die ∈ l.roll.reachedNow o c := by
    rw [hreached]
    exact List.mem_singleton_self die
  have hdice : (c.config.routing.externalMethod? die.denomination).isSome = true := by
    decide +kernel
  exact ⟨by decide +kernel, hover, hfaithful.1 [] _ (by simp [moves, Course.Move.IsActing]),
    hreached, hfaithful.2.refused die hmem rfl hdice, hfaithful.2⟩

end DiceNotation
