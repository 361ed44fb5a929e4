/-
  DiceNotation.Proofs.Evaluation.Agreement

  Step by step and at once come to the same.

  A course stays `Course.Sound` whatever happens: the coordinator serves the
  evaluation among all others, and what it drew so far is replayed at once on any
  roller that shows the values it obtained. So a course that is over and was not
  cancelled agrees with an evaluation at once (`Course.agrees_run`), and one that
  draws no die of a method from outside is over when it begins.
-/

import DiceNotation.Proofs.Evaluation.Depth
import DiceNotation.Proofs.Evaluation.Replay
import DiceNotation.Proofs.Fulfillment.Service

namespace DiceNotation

variable {σ : Type} [Roller σ]

/-! ## Settings -/

namespace Evaluation

/-- Settings that an evaluation does not tell apart: neither refuses what is left to chance
    where waiting is no option. -/
structure Setting.Same (s s' : Setting) : Prop where
  pinned : s.options.isPinned = s'.options.isPinned
  allowStrings : s.options.allowStrings = s'.options.allowStrings
  functions : s.functions = s'.functions
  lenient : ∀ s₀, s₀ = s ∨ s₀ = s' → s₀.synchronous = true →
    ∀ row, refuseChance s₀.options row = .ok ()

variable {s s' : Setting}

/-- A term is evaluated in the same way. -/
theorem term_congr (h : Setting.Same s s') (nested : Nested) (t : Term) :
    term s nested t = term s' nested t := by
  cases t <;> simp only [term, h.pinned, h.allowStrings, h.functions]

/-- A term that is pending is evaluated in the same way. -/
theorem pendingTerm_congr (h : Setting.Same s s') (nested : Nested) :
    pendingTerm s nested = pendingTerm s' nested := by
  funext t
  simp only [pendingTerm, term_congr h]

/-- A row is evaluated in the same way. -/
theorem terms_congr (h : Setting.Same s s') (nested : Nested) (ts : List Term) :
    terms s nested ts = terms s' nested ts := by
  induction ts with
  | nil => rfl
  | cons t rest ih => simp only [terms, pendingTerm_congr h, ih]

/-- A row collapses in the same way. -/
theorem collapse_congr (h : Setting.Same s s') (nested : Nested) (ts : List Term) :
    collapse s nested ts = collapse s' nested ts := by
  induction ts with
  | nil => rfl
  | cons t rest ih => simp only [collapse, pendingTerm_congr h, ih]

/-- A roll is evaluated in the same way, without a refusal of what is left to chance. -/
theorem rollWith_congr (h : Setting.Same s s') (nested : Nested) (r : Roll) :
    rollWith s nested r = rollWith s' nested r := by
  have hrefuse : ∀ s₀, s₀ = s ∨ s₀ = s' → ∀ row collapsed,
      (if s₀.synchronous then
        rollWith.liftExcept (refuseChance s₀.options row) >>= fun _ =>
          concludeRow s₀ nested r row collapsed
      else concludeRow s₀ nested r row collapsed) = concludeRow s₀ nested r row collapsed := by
    intro s₀ hs₀ row collapsed
    split
    · next hsync =>
      rw [h.lenient s₀ hs₀ hsync]
      rfl
    · rfl
  have hconclude : concludeRow s nested r = concludeRow s' nested r := by
    funext row collapsed
    simp only [concludeRow, terms_congr h]
  rw [rollWith_eq, rollWith_eq, collapse_congr h]
  simp only [hrefuse s (.inl rfl), hrefuse s' (.inr rfl)]
  rw [hconclude]

/-- Rolls are evaluated in the same way, since both ways are the only one. -/
theorem roll_congr (h : Setting.Same s s') : roll s = roll s' :=
  eq_roll_of_eq_rollWith fun r => (roll_eq s r).trans (rollWith_congr h (roll s) r)

/-- Waiting or not, a roll has the same evaluation as long as nothing is refused. -/
theorem roll_atOnce (o : EvaluationOptions) (functions : FunctionRegistry) (r : Roll) :
    roll ⟨o.atOnce, functions, true⟩ r = roll ⟨o, functions, false⟩ r := by
  have hsame : Setting.Same ⟨o.atOnce, functions, true⟩ ⟨o, functions, false⟩ := by
    refine ⟨rfl, rfl, rfl, ?_⟩
    rintro s₀ (rfl | rfl) hsync row
    · rfl
    · cases hsync
  exact congrFun (roll_congr hsame) r

/-- Waiting or not, a roll whose dice are fixed has the same evaluation. -/
theorem roll_of_isPinned {o : EvaluationOptions} (hpin : o.isPinned = true)
    (functions : FunctionRegistry) (r : Roll) :
    roll ⟨o, functions, true⟩ r = roll ⟨o, functions, false⟩ r := by
  have hsame : Setting.Same ⟨o, functions, true⟩ ⟨o, functions, false⟩ := by
    refine ⟨rfl, rfl, rfl, ?_⟩
    rintro s₀ (rfl | rfl) hsync row
    · simp [refuseChance, hpin]
    · cases hsync
  exact congrFun (roll_congr hsame) r

end Evaluation

/-! ## The evaluation among those who wait -/

omit [Roller σ] in
theorem LiveRoll.coordinator_settle (l : LiveRoll) (a : Attempt) (k : Coordinator) :
    (l.settle a k).coordinator = k := by
  simp only [LiveRoll.settle]
  split <;> rfl

/-- A suspended plan as one of those who wait at its coordinator. -/
def Suspended.seat {α : Type} : Suspended α → Waiter
  | finished _ => .gone
  | waiting id _ _ => .waiting id

/-- A plan that is carried on stays in step with the coordinator, and is promised the die
    that it waits for. -/
theorem Plan.Advances.seated {α : Type} {o : EvaluationOptions} {p : Plan α} {c c' : Context σ}
    {k k' : Coordinator} {log : List Draw} {s : Suspended α}
    (h : Advances o p c k log s c' k') {waiters : List Waiter}
    (hd : ((Desk.mk k waiters).behind .gone).Consistent) :
    ((Desk.mk k' waiters).behind s.seat).Consistent ∧
      ∀ id d next, s = .waiting id d next → k'.Serves id d := by
  induction h with
  | done a c k => exact ⟨hd, by simp⟩
  | tracked external t _ _ ih => exact ih (hd.step (.track external))
  | @leave t _ _ _ _ _ _ _ _ ih => exact ih (hd.step (.finish t.number))
  | untracked _ ih | tooMany _ _ ih | pinned _ _ _ _ ih | rolled _ _ _ ih
  | refused _ _ _ _ ih => exact ih hd
  | @requested d next c k ticket method hmany hpin hc =>
    have hasks : ((Desk.mk k waiters).behind (.asking method d ticket)).Consistent :=
      hd.replace (i := 0) (w := .asking method d ticket) (by simp [Desk.waiter, Desk.behind])
        (by simp)
    refine ⟨hasks.receive (i := 0) rfl hc, ?_⟩
    rintro id d' next' heq
    cases heq
    exact Coordinator.serves_request hd.coordinator method d ticket hc

/-! ## Sound courses -/

/-- The roll that a suspended evaluation leaves. -/
def Suspended.rollOr (r : Roll) : Suspended (Except RollError (Roll × Number)) → Roll
  | finished (.ok (roll, _)) => roll
  | _ => r

namespace Course

/-- The plan of an evaluation step by step. -/
def plan (o : EvaluationOptions) (l : LiveRoll) (c : Context σ) :
    Plan (Except RollError (Roll × Number)) :=
  (Evaluation.roll ⟨o, c.functions, false⟩ l.roll).run

/-- The outcome of an evaluation that was cancelled. -/
def cancelledOutcome : Suspended (Except RollError (Roll × Number)) :=
  .finished (.error (.evaluation .cancelled))

/-- What holds of an evaluation with options on a roll and a context at any time. -/
structure Sound (o : EvaluationOptions) (l : LiveRoll) (c : Context σ) (s : Course σ) : Prop where
  options : s.attempt.options = o
  context : s.context.config = c.config ∧ s.context.functions = c.functions
  roll : s.live.roll = s.attempt.state.rollOr l.roll
  desk : (s.desk.behind s.attempt.state.seat).Consistent
  serves : ∀ id d next, s.attempt.state = .waiting id d next → s.live.coordinator.Serves id d
  faces : ∀ e ∈ s.obtained, ∃ face, e.1.valueOf face = e.2
  replays : Replays o (plan o l c) c.restart s.obtained s.context.rolls s.attempt.state ∨
    s.live.coordinator.cancelled = true ∧ s.attempt.state = cancelledOutcome

variable {o : EvaluationOptions} {l : LiveRoll} {c : Context σ} {s : Course σ}
  {waiters : List Waiter}

/-- A course where the plan of an evaluation was carried on. -/
theorem sound_of_advances {p : Plan (Except RollError (Roll × Number))} {c₁ c₂ : Context σ}
    {k k' : Coordinator} {log₀ log : List Draw}
    {state : Suspended (Except RollError (Roll × Number))} {live : LiveRoll}
    (h : Plan.Advances o p c₁ k log state c₂ k')
    (hc : c₁.config = c.config ∧ c₁.functions = c.functions)
    (hd : ((Desk.mk k waiters).behind .gone).Consistent) (hroll : live.roll = l.roll)
    (hfaces : ∀ e ∈ log₀.filterMap Draw.obtained?, ∃ face, e.1.valueOf face = e.2)
    (hreplays : Replays o (plan o l c) c.restart ((log₀ ++ log).filterMap Draw.obtained?) c₂.rolls
        state ∨ k'.cancelled = true ∧ state = cancelledOutcome) :
    Sound o l c ⟨⟨o, state⟩, live.settle ⟨o, state⟩ k', c₂, waiters, log₀ ++ log⟩ := by
  have hcoordinator := live.coordinator_settle ⟨o, state⟩ k'
  have hseated := h.seated hd
  have hcontext := h.context
  refine ⟨rfl, ⟨hcontext.1.trans hc.1, hcontext.2.trans hc.2⟩, ?_, ?_, ?_, ?_, ?_⟩
  · simp only [LiveRoll.settle, Suspended.rollOr]
    split <;> simp_all [LiveRoll.withCoordinator]
  · simp only [Course.desk, hcoordinator]
    exact hseated.1
  · simp only [hcoordinator]
    exact hseated.2
  · intro e he
    rw [obtained, List.filterMap_append] at he
    rcases List.mem_append.mp he with he | he
    · exact hfaces e he
    · exact h.faces e he
  · rw [hcoordinator]
    exact hreplays

/-- A course is sound when it begins. -/
theorem sound_start (hl : l.roll.evaluated = false)
    (hd : (Desk.mk l.coordinator waiters).Consistent) : Sound o l c (start o l c waiters) := by
  have ha := Plan.advances o (plan o l c) c.restart l.coordinator
  have hreplays := ha.replays (Evaluation.alike_roll _ l.roll) (Evaluation.strict_roll _ l.roll)
  have hstart : start o l c waiters =
      ⟨⟨o, ((plan o l c).advance o c.restart l.coordinator).1⟩,
        l.settle ⟨o, ((plan o l c).advance o c.restart l.coordinator).1⟩
          ((plan o l c).advance o c.restart l.coordinator).2.2,
        ((plan o l c).advance o c.restart l.coordinator).2.1, waiters,
        [] ++ (plan o l c).draws o c.restart l.coordinator⟩ := by
    simp [start, LiveRoll.begin, hl, plan]
  rw [hstart]
  exact sound_of_advances ha ⟨rfl, rfl⟩ hd.behind_gone rfl (by simp) hreplays

/-- A course where an evaluation goes on with an answer, after some draws. -/
def resumed (s : Course σ) (plan : Plan (Except RollError (Roll × Number))) (k : Coordinator)
    (draws : List Draw) : Course σ :=
  let o := s.attempt.options
  let (state, context, k') := plan.advance o s.context k
  ⟨⟨o, state⟩, s.live.settle ⟨o, state⟩ k', context, s.waiters,
    s.log ++ draws ++ plan.draws o s.context k⟩

/-- A poll of an evaluation that waits. -/
theorem step_poll_waiting {id : Nat} {d : Denomination}
    {next : Except RollError Int → Plan (Except RollError (Roll × Number))}
    (hs : s.attempt.state = .waiting id d next) :
    s.step .poll = match s.live.coordinator.reply id with
      | .pending => { s with live := s.live.withCoordinator s.live.coordinator }
      | .answered v =>
        s.resumed (next (.ok v)) (s.live.coordinator.withdraw id) [.answered d v]
      | .cancelled =>
        s.resumed (next (.error (.evaluation .cancelled))) (s.live.coordinator.withdraw id) [] := by
  obtain ⟨⟨o, state⟩, live, context, waiters, log⟩ := s
  obtain rfl : state = .waiting id d next := hs
  cases hr : live.coordinator.reply id <;>
    simp [step, LiveRoll.poll, Suspended.poll, Suspended.draws, Coordinator.collect, hr, resumed,
      LiveRoll.settle]

/-- A course stays sound when the evaluation goes on with an answer. -/
theorem Sound.resumed (h : Sound o l c s) {id : Nat} {d : Denomination}
    {next : Except RollError Int → Plan (Except RollError (Roll × Number))}
    (hs : s.attempt.state = .waiting id d next) {answer : Except RollError Int}
    {draws : List Draw}
    (hfaces : ∀ e ∈ draws.filterMap Draw.obtained?, ∃ face, e.1.valueOf face = e.2)
    (hreplays : ∀ {c' : Context σ} {k' : Coordinator} {log : List Draw}
      {state : Suspended (Except RollError (Roll × Number))},
      Plan.Advances o (next answer) s.context (s.live.coordinator.withdraw id) log state c' k' →
        Replays o (plan o l c) c.restart (s.obtained ++ (draws ++ log).filterMap Draw.obtained?)
          c'.rolls state ∨ k'.cancelled = true ∧ state = cancelledOutcome) :
    Sound o l c (s.resumed (next answer) (s.live.coordinator.withdraw id) draws) := by
  have hdesk : ((Desk.mk (s.live.coordinator.withdraw id) s.waiters).behind .gone).Consistent := by
    have hfirst : (s.desk.behind s.attempt.state.seat).waiter 0 = .waiting id := by
      rw [hs]
      rfl
    exact h.desk.release hfirst
  have hroll : s.live.roll = l.roll := by
    rw [h.roll, hs]
    rfl
  have ha := Plan.advances o (next answer) s.context (s.live.coordinator.withdraw id)
  have hrest := hreplays ha
  obtain rfl : s.attempt.options = o := h.options
  refine sound_of_advances ha h.context hdesk hroll ?_ ?_
  · intro e he
    rw [List.filterMap_append] at he
    rcases List.mem_append.mp he with he | he
    · exact h.faces e he
    · exact hfaces e he
  · rw [List.append_assoc, List.filterMap_append]
    exact hrest

/-- A poll keeps a course sound. -/
theorem Sound.poll (h : Sound o l c s) : Sound o l c (s.step .poll) := by
  cases hs : s.attempt.state with
  | finished outcome =>
    have hstep : s.step .poll = s := by
      simp [step, LiveRoll.poll, Suspended.draws, hs]
    rw [hstep]
    exact h
  | waiting id d next =>
    have hfirst : (s.desk.behind s.attempt.state.seat).waiter 0 = .waiting id := by
      rw [hs]
      rfl
    have hwaits : Replays o (plan o l c) c.restart s.obtained s.context.rolls
        (.waiting id d next) := by
      have hreplays := h.replays
      rw [hs] at hreplays
      exact hreplays.resolve_right (by simp [cancelledOutcome])
    rw [step_poll_waiting hs]
    cases hr : s.live.coordinator.reply id with
    | pending => exact ⟨h.options, h.context, h.roll, h.desk, h.serves, h.faces, h.replays⟩
    | answered v =>
      refine h.resumed hs ?_ fun ha => ?_
      · -- the answer is a value that the die can show
        have hv := Coordinator.lookup_of_reply hr
        have hface := Denomination.exists_face ((h.serves id d next hs).answer v hv)
        simpa [Draw.obtained?] using hface
      · exact hwaits.resume v h.context ha
    | cancelled =>
      have hcancelled := h.desk.coordinator.cancelled_of_reply ⟨0, hfirst⟩ hr
      refine h.resumed hs (by simp) fun ha => .inr ⟨?_, (hwaits.1 _).eq_finished ha⟩
      exact ha.cancelled.trans hcancelled

/-- What others do keeps a course sound. -/
theorem Sound.other (h : Sound o l c s) (e : Desk.Event) : Sound o l c (s.step (.other e)) := by
  have hstep := Desk.step_shift (d := s.desk) s.attempt.state.seat e
  refine ⟨h.options, h.context, h.roll, ?_, ?_, h.faces, ?_⟩
  · have hdesk := h.desk.step e.shift
    rw [hstep] at hdesk
    exact hdesk
  · intro id d next hs
    have hfirst : (s.desk.behind s.attempt.state.seat).waiter 0 = .waiting id := by
      rw [show s.attempt.state = .waiting id d next from hs]
      rfl
    have hserves := Desk.serves_step h.desk hfirst (h.serves id d next hs) (Desk.shift_ne e).1
      (Desk.shift_ne e).2
    rw [hstep] at hserves
    exact hserves
  · refine h.replays.imp_right fun ⟨hc, hs⟩ => ⟨?_, hs⟩
    have hcancelled := (Desk.cancelled_step h.desk e.shift).mpr (.inl hc)
    rw [hstep] at hcancelled
    exact hcancelled

/-- Whatever happens, a course stays sound. -/
theorem Sound.run (h : Sound o l c s) (moves : List Move) : Sound o l c (run moves s) := by
  induction moves generalizing s with
  | nil => exact h
  | cons m rest ih =>
    cases m with
    | poll => exact ih h.poll
    | other e => exact ih (h.other e)

/-! ## Agreement -/

/-- A course that is over stays so, whatever else happens at the coordinator. -/
theorem run_finished {outcome : Except RollError (Roll × Number)} (moves : List Move)
    (hs : s.attempt.state = .finished outcome) :
    (run moves s).attempt = s.attempt ∧ (run moves s).live.roll = s.live.roll ∧
      (run moves s).context = s.context ∧ (run moves s).log = s.log := by
  induction moves generalizing s with
  | nil => exact ⟨rfl, rfl, rfl, rfl⟩
  | cons m rest ih =>
    cases m with
    | poll =>
      have hstep : s.step .poll = s := by
        simp [step, LiveRoll.poll, Suspended.draws, hs]
      simp only [Course.run, hstep]
      exact ih hs
    | other e => exact ih (s := s.step (.other e)) hs

omit [Roller σ] in
/-- A sound course that is over and was not cancelled agrees with an evaluation at once. -/
theorem Sound.agrees (h : Sound o l c s) (hl : l.roll.evaluated = false)
    {outcome : Except RollError Number} (hs : s.attempt.outcome? = some outcome)
    (hc : s.live.coordinator.cancelled = false ∨ outcome ≠ .error (.evaluation .cancelled)) :
    Agrees o l c outcome s := by
  refine ⟨Roller.exists_script _ h.faces, fun r hr => ?_⟩
  cases hstate : s.attempt.state with
  | waiting id d next => simp [LiveRoll.Attempt.outcome?, hstate] at hs
  | finished result =>
    have houtcome : outcome = result.map Prod.snd := by
      simpa [LiveRoll.Attempt.outcome?, hstate, eq_comm] using hs
    have hroll := h.roll
    have hreplays := h.replays
    rw [hstate] at hroll hreplays
    have hnow : (plan o l c).runNow o.atOnce (c.restart.withRoller r) =
        (result, ⟨c.config, s.context.rolls, Roller.after s.obtained r, c.functions⟩) := by
      refine hreplays.resolve_right ?_ r hr
      rintro ⟨hcancelled, heq⟩
      obtain rfl : result = .error (.evaluation .cancelled) := by
        simpa [cancelledOutcome] using heq
      rcases hc with hc | hc
      · rw [hcancelled] at hc
        cases hc
      · exact hc houtcome
    have hrefuse : l.roll.refuseNow o.atOnce = .ok () := by
      simp [Roll.refuseNow, hl, Evaluation.refuseChance, EvaluationOptions.atOnce]
    have hevaluate : l.roll.evaluateNow o.atOnce (c.withRoller r) =
        (result, ⟨c.config, s.context.rolls, Roller.after s.obtained r, c.functions⟩) := by
      simp only [Roll.evaluateNow, hrefuse]
      rw [Evaluation.roll_atOnce]
      exact hnow
    cases result with
    | ok result =>
      refine ⟨{ l with roll := result.1 },
        ⟨c.config, s.context.rolls, Roller.after s.obtained r, c.functions⟩, ?_, hroll.symm, rfl⟩
      simp only [LiveRoll.evaluateNow, hevaluate, houtcome]
      rfl
    | error e =>
      refine ⟨l, ⟨c.config, s.context.rolls, Roller.after s.obtained r, c.functions⟩, ?_,
        hroll.symm, rfl⟩
      simp only [LiveRoll.evaluateNow, hevaluate, houtcome]
      rfl

/-- An evaluation step by step agrees with one at once, whoever else uses the coordinator
    and whatever happens there before and meanwhile: if it is over and was not cancelled,
    then an evaluation at once comes to the same on every roller that shows the values it
    obtained. If no die that it draws has a method from outside, it is over when it
    begins. -/
theorem agrees_run (o : EvaluationOptions) (l : LiveRoll) (c : Context σ)
    (before : List Desk.Event) (hd : Desk.mk l.coordinator waiters = Desk.run before {}) :
    (∀ moves outcome, (run moves (start o l c waiters)).attempt.outcome? = some outcome →
      ((run moves (start o l c waiters)).live.coordinator.cancelled = false ∨
        outcome ≠ .error (.evaluation .cancelled)) →
      Agrees o l c outcome (run moves (start o l c waiters))) ∧
    ((∀ draw ∈ (start o l c waiters).log,
        c.config.routing.externalMethod? draw.denomination = none) →
      ∃ outcome, (start o l c waiters).attempt.outcome? = some outcome) := by
  have hdesk : (Desk.mk l.coordinator waiters).Consistent := hd ▸ Desk.Consistent.empty.run before
  cases hl : l.roll.evaluated with
  | false =>
    refine ⟨fun moves outcome hs hc => ((sound_start hl hdesk).run moves).agrees hl hs hc, ?_⟩
    intro hrouted
    have ha := Plan.advances o (plan o l c) c.restart l.coordinator
    have hlog : (start o l c waiters).log = (plan o l c).draws o c.restart l.coordinator := by
      simp [start, hl, plan]
    have hstate : (start o l c waiters).attempt.state =
        ((plan o l c).advance o c.restart l.coordinator).1 := by
      simp [start, LiveRoll.begin, hl, plan]
    cases hs : (start o l c waiters).attempt.state with
    | finished outcome =>
      exact ⟨outcome.map Prod.snd, by simp [LiveRoll.Attempt.outcome?, hs]⟩
    | waiting id d next =>
      -- the die that is waited for was drawn and has a method from outside
      rw [← hstate, hs] at ha
      have hmem := ha.requested_mem
      rw [← hlog] at hmem
      have hsome := ha.externalMethod?_isSome (Evaluation.routed_roll _ l.roll)
      have hnone := hrouted _ hmem
      rw [show c.restart.config = c.config from rfl] at hsome
      rw [Draw.denomination] at hnone
      rw [hnone] at hsome
      cases hsome
  | true =>
    have hstart : start o l c waiters =
        ⟨⟨o, .finished (.error .alreadyEvaluated)⟩, l, c, waiters, []⟩ := by
      simp [start, LiveRoll.begin, hl]
    rw [hstart]
    refine ⟨fun moves outcome hs hc => ?_, fun _ => ⟨_, rfl⟩⟩
    obtain ⟨hattempt, hroll, hcontext, hlog⟩ := run_finished moves
      (s := ⟨⟨o, .finished (.error .alreadyEvaluated)⟩, l, c, waiters, []⟩) rfl
    have houtcome : outcome = .error .alreadyEvaluated := by
      rw [hattempt] at hs
      exact (Option.some.inj hs).symm
    refine ⟨⟨[], by rw [obtained, hlog]; trivial⟩, fun r _ => ⟨l, c.withRoller r, ?_, ?_, ?_⟩⟩
    · simp [LiveRoll.evaluateNow, Roll.evaluateNow, Roll.refuseNow, hl, houtcome]
    · rw [hroll]
    · rw [hcontext]
      rfl

/-- One die of a table and a number: the die is asked for, a player submits it, and an
    evaluation at once agrees with what came of it. -/
theorem agrees_run_submission :
    let l : LiveRoll :=
      ⟨Roll.ofTerms [.dice ⟨1, .die 6, [], [], {}, false⟩, .operator .add {}, .numeric (.int 2) {}],
        none⟩
    let c : Context ScriptedRoller :=
      { config := { routing := Routing.standard.assign (.die 6) "table" true }, roller := ⟨[]⟩ }
    let s := run [.other (.submit "table" "d6" 4), .poll] (start {} l c [])
    s.attempt.outcome? = some (.ok (.int 6)) ∧ Agrees {} l c (.ok (.int 6)) s :=
  ⟨rfl, (agrees_run {} _ _ [] rfl).1 _ _ rfl (.inl rfl)⟩

end Course

end DiceNotation
