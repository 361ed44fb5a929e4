/-
  DiceNotation.Proofs.Evaluation.Lifetime

  A roll is evaluated once or not at all.

  A `Lifetime` is a roll in use: calls evaluate it at once or step by step, a call
  that waits is polled or given up, and others use its coordinator meanwhile.
  Whatever happens, in whatever order, the roll is as it was until a call succeeds,
  and from then on it is as that call left it (`Lifetime.once_run`). The invariant
  is that a call under way has a roll that was not evaluated, and comes to nothing
  but a failure or an evaluated roll (`Lifetime.Sound`).
-/

import DiceNotation.Evaluation.Session
import DiceNotation.Proofs.Evaluation.Depth

namespace DiceNotation

variable {σ : Type} [Roller σ]

/-! ## Successful evaluations -/

/-- A successful evaluation leaves a roll that was evaluated and holds its total. -/
def Evaluated (outcome : Except RollError (Roll × Number)) : Prop :=
  ∀ r total, outcome = .ok (r, total) → r.evaluated = true ∧ r.total = some total

namespace Evaluation

theorem spends_evaluated_concludeRow (s : Setting) (nested : Nested) (r : Roll) (row : List Term)
    (collapsed : List Dice) :
    Spends (concludeRow s nested r row collapsed) fun _ x =>
      x.1.evaluated = true ∧ x.1.total = some x.2 :=
  (spends_true _).bind fun _ _ _ => (spends_true _).bind fun _ _ _ => spends_pure ⟨rfl, rfl⟩

theorem spends_evaluated_rollWith (s : Setting) (nested : Nested) (r : Roll) :
    Spends (rollWith s nested r) fun _ x => x.1.evaluated = true ∧ x.1.total = some x.2 := by
  rw [rollWith_eq]
  split
  · exact spends_throw _
  · refine (spends_true _).bind fun _ c _ => ?_
    split
    · exact (spends_true _).bind fun _ _ _ => spends_evaluated_concludeRow s nested r _ _
    · exact spends_evaluated_concludeRow s nested r _ _

theorem spends_evaluated_roll (s : Setting) (r : Roll) :
    Spends (roll s r) fun _ x => x.1.evaluated = true ∧ x.1.total = some x.2 := by
  rw [roll_eq]
  exact spends_evaluated_rollWith s _ r

/-- Whatever the evaluation of a roll is answered, it leaves an evaluated roll if it
    succeeds. -/
theorem always_evaluated_roll (s : Setting) (r : Roll) :
    (roll s r).run.Always fun _ => Evaluated :=
  Plan.Always.mono (spends_evaluated_roll s r) fun _ _ houtcome r total heq =>
    houtcome (r, total) heq

end Evaluation

/-- Giving up changes nothing but the coordinator. -/
theorem LiveRoll.roll_giveUp (a : Attempt) (l : LiveRoll) : (l.giveUp a).roll = l.roll := by
  unfold LiveRoll.giveUp
  split <;> rfl

/-! ## Lifetimes -/

/-- A roll in use, with the evaluation that is under way, if any, and with those who wait
    at the coordinator of the roll. -/
structure Lifetime (σ : Type) where
  live : LiveRoll
  context : Context σ
  attempt? : Option LiveRoll.Attempt := none
  waiters : List Waiter := []

namespace Lifetime

/-- What may happen next. -/
inductive Move (σ : Type) where
  /-- A call evaluates the roll at once. -/
  | evaluateNow (options : EvaluationOptions)
  /-- A call evaluates the roll step by step. -/
  | begin (options : EvaluationOptions)
  /-- The call that waits is polled. -/
  | poll
  /-- The call that waits is given up. -/
  | giveUp
  /-- Something happens at the coordinator. -/
  | other (event : Desk.Event)
  /-- The next calls have another context. -/
  | equip (context : Context σ)

/-- An evaluation step by step either gives its outcome and is over, or stays under
    way. -/
def goOn (a : LiveRoll.Attempt) (s : Lifetime σ) :
    Option (Except RollError Number) × Lifetime σ :=
  match a.outcome? with
  | some outcome => (some outcome, { s with attempt? := none })
  | none => (none, { s with attempt? := some a })

/-- A lifetime after a move, with the outcome of the call that ends with the move, if one
    does. Nobody else calls for a roll while a call is under way. -/
def step (m : Move σ) (s : Lifetime σ) : Option (Except RollError Number) × Lifetime σ :=
  match m, s.attempt? with
  | .evaluateNow o, none =>
    let (outcome, live, context) := s.live.evaluateNow o s.context
    (some outcome, { s with live, context })
  | .begin o, none =>
    let (a, live, context) := s.live.begin o s.context
    goOn a { s with live, context }
  | .poll, some a =>
    let (a, live, context) := s.live.poll a s.context
    goOn a { s with live, context }
  | .giveUp, some a => (none, { s with live := s.live.giveUp a, attempt? := none })
  | .other e, _ =>
    let d := (Desk.mk s.live.coordinator s.waiters).step e
    (none, { s with live := s.live.withCoordinator d.coordinator, waiters := d.waiters })
  | .equip context, none => (none, { s with context })
  | .evaluateNow _, some _ | .begin _, some _ | .poll, none | .giveUp, none
  | .equip _, some _ => (none, s)

/-- A lifetime after moves in a row. -/
def run : List (Move σ) → Lifetime σ → Lifetime σ
  | [], s => s
  | m :: rest, s => run rest (s.step m).2

/-- The totals of the calls that succeed in a run, in order. -/
def totals : List (Move σ) → Lifetime σ → List Number
  | [], _ => []
  | m :: rest, s =>
    (match (s.step m).1 with
      | some (.ok total) => [total]
      | _ => []) ++ totals rest (s.step m).2

/-! ## Steps -/

/-- A call that is under way for a roll. -/
structure Underway (r : Roll) (a : LiveRoll.Attempt) : Prop where
  pending : r.evaluated = false
  waits : a.outcome? = none
  outcomes : a.state.Always Evaluated

/-- What holds at any time. -/
def Sound (s : Lifetime σ) : Prop := ∀ a, s.attempt? = some a → Underway s.live.roll a

/-- A move with which no call succeeds, and that leaves the roll as it was. -/
structure Keeps (s : Lifetime σ) (result : Option (Except RollError Number) × Lifetime σ) :
    Prop where
  outcome : ∀ total, result.1 ≠ some (.ok total)
  roll : result.2.live.roll = s.live.roll

/-- A move with which a call succeeds. -/
structure Succeeds (s : Lifetime σ) (total : Number)
    (result : Option (Except RollError Number) × Lifetime σ) : Prop where
  outcome : result.1 = some (.ok total)
  pending : s.live.roll.evaluated = false
  evaluated : result.2.live.roll.evaluated = true
  total : result.2.live.roll.total = some total

variable {s : Lifetime σ}

omit [Roller σ] in
theorem sound_of_idle (h : s.attempt? = none) : s.Sound := by
  intro a ha
  rw [h] at ha
  cases ha

omit [Roller σ] in
/-- A move with which no call ends. -/
theorem Keeps.silent {s' : Lifetime σ} (h : s'.live.roll = s.live.roll) : Keeps s (none, s') :=
  ⟨fun _ hsome => (nomatch hsome), h⟩

omit [Roller σ] in
/-- A move with which a call fails. -/
theorem Keeps.failed {e : RollError} {s' : Lifetime σ} (h : s'.live.roll = s.live.roll) :
    Keeps s (some (.error e), s') := ⟨fun _ hok => (nomatch hok), h⟩

omit [Roller σ] in
/-- An evaluation that was carried on changes the roll only if it succeeds. -/
theorem sound_goOn (hpending : s.live.roll.evaluated = false) {a : LiveRoll.Attempt}
    (ha : a.state.Always Evaluated) (k : Coordinator) (context : Context σ) :
    let result := goOn a { s with live := s.live.settle a k, context }
    result.2.Sound ∧ (Keeps s result ∨ ∃ total, Succeeds s total result) := by
  obtain ⟨o, state⟩ := a
  cases state with
  | waiting id d next =>
    refine ⟨?_, .inl (.silent rfl)⟩
    rintro _ ⟨⟩
    exact ⟨hpending, rfl, ha⟩
  | finished outcome =>
    refine ⟨sound_of_idle rfl, ?_⟩
    cases outcome with
    | error e => exact .inl (.failed rfl)
    | ok x =>
      obtain ⟨hevaluated, htotal⟩ := ha x.1 x.2 rfl
      exact .inr ⟨x.2, rfl, hpending, hevaluated, htotal⟩

/-- An evaluation at once changes the roll only if it succeeds. -/
theorem sound_evaluateNow (hnone : s.attempt? = none) (o : EvaluationOptions) :
    (s.step (.evaluateNow o)).2.Sound ∧
      (Keeps s (s.step (.evaluateNow o)) ∨
        ∃ total, Succeeds s total (s.step (.evaluateNow o))) := by
  simp only [step, hnone, LiveRoll.evaluateNow]
  split
  · rename_i r total c heval
    have hrefuse := Roll.refuseNow_of_evaluateNow heval
    have hpending : s.live.roll.evaluated = false := by
      cases hevaluated : s.live.roll.evaluated with
      | false => rfl
      | true => simp [Roll.refuseNow, hevaluated] at hrefuse
    rw [Roll.evaluateNow_of_refuseNow hrefuse] at heval
    obtain ⟨-, -, houtcome⟩ := (Evaluation.always_evaluated_roll
      ⟨o, s.context.functions, true⟩ s.live.roll).runNow o s.context.restart
    rw [heval] at houtcome
    obtain ⟨hevaluated, htotal⟩ := houtcome r total rfl
    exact ⟨sound_of_idle rfl, .inr ⟨total, rfl, hpending, hevaluated, htotal⟩⟩
  · exact ⟨sound_of_idle rfl, .inl (.failed rfl)⟩

/-- A move keeps the roll, or a call succeeds with it. -/
theorem Sound.step (h : s.Sound) (m : Move σ) :
    (s.step m).2.Sound ∧ (Keeps s (s.step m) ∨ ∃ total, Succeeds s total (s.step m)) := by
  cases hattempt : s.attempt? with
  | none =>
    cases m with
    | evaluateNow o => exact sound_evaluateNow hattempt o
    | begin o =>
      simp only [Lifetime.step, hattempt, LiveRoll.begin]
      split
      · exact ⟨sound_of_idle rfl, .inl (.failed rfl)⟩
      · rename_i hevaluated
        refine sound_goOn (Bool.eq_false_iff.mpr hevaluated) ?_ _ _
        exact (Evaluation.always_evaluated_roll _ _).advance (Plan.advances o _ _ _)
    | other e =>
      exact ⟨sound_of_idle hattempt, .inl (.silent rfl)⟩
    | equip context =>
      simp only [Lifetime.step, hattempt]
      exact ⟨sound_of_idle rfl, .inl (.silent rfl)⟩
    | poll | giveUp =>
      simp only [Lifetime.step, hattempt]
      exact ⟨h, .inl (.silent rfl)⟩
  | some a =>
    obtain ⟨hpending, hwaits, ha⟩ := h a hattempt
    cases m with
    | poll =>
      simp only [Lifetime.step, hattempt, LiveRoll.poll]
      split
      · rename_i outcome hstate
        simp [LiveRoll.Attempt.outcome?, hstate] at hwaits
      · exact sound_goOn hpending (ha.poll _ _ _) _ _
    | giveUp =>
      simp only [Lifetime.step, hattempt]
      exact ⟨sound_of_idle rfl, .inl (.silent (LiveRoll.roll_giveUp a s.live))⟩
    | other e => exact ⟨h, .inl (.silent rfl)⟩
    | evaluateNow o | begin o | equip context =>
      simp only [Lifetime.step, hattempt]
      exact ⟨h, .inl (.silent rfl)⟩

/-! ## Runs -/

theorem Sound.run (h : s.Sound) (moves : List (Move σ)) : (run moves s).Sound := by
  induction moves generalizing s with
  | nil => exact h
  | cons m rest ih => exact ih (h.step m).1

theorem Keeps.totals {m : Move σ} (h : Keeps s (s.step m)) (rest : List (Move σ)) :
    totals (m :: rest) s = totals rest (s.step m).2 := by
  simp only [Lifetime.totals]
  split
  · exact absurd ‹_› (h.outcome _)
  · rfl

theorem Succeeds.totals {m : Move σ} {total : Number} (h : Succeeds s total (s.step m))
    (rest : List (Move σ)) : totals (m :: rest) s = total :: totals rest (s.step m).2 := by
  simp only [Lifetime.totals, h.outcome, List.singleton_append]

/-- No call succeeds with a roll that was evaluated, and nothing changes it. -/
theorem Sound.run_evaluated (h : s.Sound) (hevaluated : s.live.roll.evaluated = true)
    (moves : List (Move σ)) :
    totals moves s = [] ∧ (Lifetime.run moves s).live.roll = s.live.roll := by
  induction moves generalizing s with
  | nil => exact ⟨rfl, rfl⟩
  | cons m rest ih =>
    obtain ⟨hsound, hkeeps | ⟨total, hsucceeds⟩⟩ := h.step m
    · obtain ⟨htotals, hroll⟩ := ih hsound (hkeeps.roll ▸ hevaluated)
      exact ⟨(hkeeps.totals rest).trans htotals, hroll.trans hkeeps.roll⟩
    · rw [hsucceeds.pending] at hevaluated
      cases hevaluated

/-- One call succeeds at most, and until then the roll is as it was. -/
theorem Sound.run_once (h : s.Sound) (moves : List (Move σ)) :
    (totals moves s).length ≤ 1 ∧
      (totals moves s = [] → (Lifetime.run moves s).live.roll = s.live.roll) := by
  induction moves generalizing s with
  | nil => exact ⟨Nat.zero_le 1, fun _ => rfl⟩
  | cons m rest ih =>
    obtain ⟨hsound, hkeeps | ⟨total, hsucceeds⟩⟩ := h.step m
    · obtain ⟨hlength, hroll⟩ := ih hsound
      rw [hkeeps.totals rest]
      exact ⟨hlength, fun hnil => (hroll hnil).trans hkeeps.roll⟩
    · rw [hsucceeds.totals rest, (hsound.run_evaluated hsucceeds.evaluated rest).1]
      exact ⟨Nat.le_refl 1, nofun⟩

omit [Roller σ] in
/-- No call is under way for a roll that was evaluated. -/
theorem Sound.idle (h : s.Sound) (hevaluated : s.live.roll.evaluated = true) :
    s.attempt? = none := by
  cases hattempt : s.attempt? with
  | none => rfl
  | some a =>
    rw [(h a hattempt).pending] at hevaluated
    cases hevaluated

theorem run_append (moves more : List (Move σ)) (s : Lifetime σ) :
    run (moves ++ more) s = run more (run moves s) := by
  induction moves generalizing s with
  | nil => rfl
  | cons m rest ih => exact ih (s.step m).2

/-! ## What is kept of the roll -/

/-- What holds of a roll holds of it still, and of whatever a call under way may make of
    it. -/
structure Holds (P : Roll → Prop) (s : Lifetime σ) : Prop where
  roll : P s.live.roll
  attempt : ∀ a, s.attempt? = some a → a.state.Always fun outcome =>
    ∀ x, outcome = .ok x → P x.1

section

variable {P : Roll → Prop}

omit [Roller σ] in
theorem holds_of_idle (h : P s.live.roll) (hidle : s.attempt? = none) : Holds P s := by
  refine ⟨h, fun a ha => ?_⟩
  cases hidle.symm.trans ha

omit [Roller σ] in
theorem holds_settle {l : LiveRoll} (h : P l.roll) {a : LiveRoll.Attempt}
    (ha : a.state.Always fun outcome => ∀ x, outcome = .ok x → P x.1) (k : Coordinator) :
    P (l.settle a k).roll := by
  obtain ⟨o, state⟩ := a
  cases state with
  | waiting id d next => exact h
  | finished outcome =>
    cases outcome with
    | error e => exact h
    | ok x => exact ha x rfl

omit [Roller σ] in
theorem holds_goOn {live : LiveRoll} (h : P live.roll) {a : LiveRoll.Attempt}
    (ha : a.state.Always fun outcome => ∀ x, outcome = .ok x → P x.1) (context : Context σ) :
    Holds P (goOn a { s with live, context }).2 := by
  obtain ⟨o, state⟩ := a
  cases state with
  | finished outcome => exact holds_of_idle h rfl
  | waiting id d next =>
    refine ⟨h, ?_⟩
    rintro _ ⟨⟩
    exact ha

/-- What every successful evaluation keeps is kept by every move. -/
theorem Holds.step (hP : ∀ s r, P r → Evaluation.Spends (Evaluation.roll s r) fun _ x => P x.1)
    (h : Holds P s) (m : Move σ) : Holds P (s.step m).2 := by
  cases hattempt : s.attempt? with
  | none =>
    cases m with
    | evaluateNow o =>
      simp only [Lifetime.step, hattempt, LiveRoll.evaluateNow]
      split
      · rename_i r total c heval
        have hrefuse := Roll.refuseNow_of_evaluateNow heval
        rw [Roll.evaluateNow_of_refuseNow hrefuse] at heval
        obtain ⟨n, -, houtcome⟩ := (hP ⟨o, s.context.functions, true⟩ _ h.roll).runNow o
          s.context.restart
        rw [heval] at houtcome
        exact holds_of_idle (houtcome (r, total) rfl) rfl
      · exact holds_of_idle h.roll rfl
    | begin o =>
      simp only [Lifetime.step, hattempt, LiveRoll.begin]
      split
      · exact holds_of_idle h.roll rfl
      · have hplan := hP ⟨o, s.context.functions, false⟩ _ h.roll
        have ha := hplan.advance (Plan.advances o _ s.context.restart s.live.coordinator)
        exact holds_goOn (holds_settle h.roll ha _) ha _
    | other e => exact ⟨h.roll, h.attempt⟩
    | equip context =>
      simp only [Lifetime.step, hattempt]
      exact holds_of_idle h.roll rfl
    | poll | giveUp =>
      simp only [Lifetime.step, hattempt]
      exact h
  | some a =>
    have ha := h.attempt a hattempt
    cases m with
    | poll =>
      simp only [Lifetime.step, hattempt, LiveRoll.poll]
      split
      · exact holds_goOn h.roll ha _
      · have hpolled := ha.poll a.options s.context s.live.coordinator
        exact holds_goOn (holds_settle h.roll hpolled _) hpolled _
    | giveUp =>
      simp only [Lifetime.step, hattempt]
      exact holds_of_idle ((LiveRoll.roll_giveUp a s.live).symm ▸ h.roll) rfl
    | other e => exact ⟨h.roll, h.attempt⟩
    | evaluateNow o | begin o | equip context =>
      simp only [Lifetime.step, hattempt]
      exact h

theorem Holds.run (hP : ∀ s r, P r → Evaluation.Spends (Evaluation.roll s r) fun _ x => P x.1)
    (h : Holds P s) (moves : List (Move σ)) : Holds P (run moves s) := by
  induction moves generalizing s with
  | nil => exact h
  | cons m rest ih => exact ih (h.step hP m)

end

/-! ## What is promised -/

/-- Every call for a roll is refused and changes nothing, neither the roll nor the context
    with its count and its roller. -/
structure Refuses (s : Lifetime σ) : Prop where
  idle : s.attempt? = none
  evaluateNow : ∀ o, s.step (.evaluateNow o) = (some (.error .alreadyEvaluated), s)
  begin : ∀ o, s.step (.begin o) = (some (.error .alreadyEvaluated), s)
  alter : ∀ scaling, s.live.alter scaling = (some .alreadyEvaluated, s.live)

omit [Roller σ] in
theorem alter_of_evaluated {l : LiveRoll} (h : l.roll.evaluated = true) (scaling : Scaling) :
    l.alter scaling = (some .alreadyEvaluated, l) := by
  obtain ⟨⟨formula, data, annotations, terms, total, evaluated, collapsed⟩, k⟩ := l
  obtain rfl : evaluated = true := h
  simp only [LiveRoll.alter, Roll.alter, if_true]

theorem Sound.refuses (h : s.Sound) (hevaluated : s.live.roll.evaluated = true) :
    s.Refuses := by
  have hidle := h.idle hevaluated
  obtain ⟨live, context, attempt?, waiters⟩ := s
  obtain rfl : attempt? = none := hidle
  have hevaluated : live.roll.evaluated = true := hevaluated
  refine ⟨rfl, fun o => ?_, fun o => ?_, alter_of_evaluated hevaluated⟩
  · simp only [Lifetime.step, LiveRoll.evaluateNow, Roll.evaluateNow, Roll.refuseNow, hevaluated,
      if_true]
  · simp only [Lifetime.step, LiveRoll.begin, hevaluated, if_true]
    rfl

/-- A roll before its first call. -/
def start (l : LiveRoll) (c : Context σ) (waiters : List Waiter) : Lifetime σ :=
  { live := l, context := c, waiters }

/-- What holds of a roll that was used in some way since a first state, and of what may
    happen next. -/
structure Once (s₀ : Lifetime σ) (history : List (Move σ)) : Prop where
  /-- A move with which no call succeeds leaves the roll as it was, whether a call fails
      with it, is given up or goes on. -/
  keeps : ∀ m, (∀ total, ((run history s₀).step m).1 ≠ some (.ok total)) →
    ((run history s₀).step m).2.live.roll = (run history s₀).live.roll
  /-- A call only succeeds with a roll that was not evaluated, and leaves one that was. -/
  succeeds : ∀ m total, ((run history s₀).step m).1 = some (.ok total) →
    Succeeds (run history s₀) total ((run history s₀).step m)
  /-- One call succeeds at most. -/
  once : (totals history s₀).length ≤ 1
  /-- Until then the roll is as it was at first. -/
  before : totals history s₀ = [] → (run history s₀).live.roll = s₀.live.roll
  /-- From then on the roll is as that call left it, and all other calls are refused. -/
  after : ∀ earlier m later total, history = earlier ++ m :: later →
    ((run earlier s₀).step m).1 = some (.ok total) →
      (run history s₀).live.roll = ((run earlier s₀).step m).2.live.roll ∧
        (run history s₀).Refuses
  /-- All calls are refused for a roll that was evaluated, also if it was so at first. -/
  refuses : (run history s₀).live.roll.evaluated = true → (run history s₀).Refuses

/-- Whatever is done with a roll, it is evaluated once at most, and nothing else changes
    it. -/
theorem once_run (l : LiveRoll) (c : Context σ) (waiters : List Waiter)
    (history : List (Move σ)) : Once (start l c waiters) history := by
  have hstart : (start l c waiters).Sound := sound_of_idle rfl
  have hsound := hstart.run history
  obtain ⟨honce, hbefore⟩ := hstart.run_once history
  refine ⟨fun m hm => ?_, fun m total hm => ?_, honce, hbefore, ?_, hsound.refuses⟩
  · obtain ⟨-, hkeeps | ⟨total, hsucceeds⟩⟩ := hsound.step m
    · exact hkeeps.roll
    · exact absurd hsucceeds.outcome (hm total)
  · obtain ⟨-, hkeeps | ⟨total', hsucceeds⟩⟩ := hsound.step m
    · exact absurd hm (hkeeps.outcome total)
    · have heq := hm.symm.trans hsucceeds.outcome
      cases heq
      exact hsucceeds
  · rintro earlier m later total rfl hm
    obtain ⟨hnext, hkeeps | ⟨total', hsucceeds⟩⟩ := (hstart.run earlier).step m
    · exact absurd hm (hkeeps.outcome total)
    · have hroll : (run (earlier ++ m :: later) (start l c waiters)).live.roll =
          ((run earlier (start l c waiters)).step m).2.live.roll := by
        rw [run_append]
        exact (hnext.run_evaluated hsucceeds.evaluated later).2
      exact ⟨hroll, hsound.refuses (hroll ▸ hsucceeds.evaluated)⟩

end Lifetime

end DiceNotation
