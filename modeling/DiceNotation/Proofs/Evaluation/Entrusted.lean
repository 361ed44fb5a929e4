/-
  DiceNotation.Proofs.Evaluation.Entrusted

  By which method dice are drawn.

  The method by which the results of a dice term come is settled once, when it gets
  leave to draw, and holds for all of its dice; terms of which nothing is left to
  chance get no method, but draw nothing either. So every die is drawn by the method
  of its denomination (`Plan.Under`, `Evaluation.Composed.under`). Step by step and
  with an actor, what was accepted is what was drawn, and then what lies ready
  (`Course.Entrusted`); polls, submissions and cancellations keep this.
-/

import DiceNotation.Proofs.Evaluation.Chance
import DiceNotation.Proofs.Fulfillment.Alone

namespace DiceNotation

variable {σ α β : Type} [Roller σ]

/-! ## Leave and draws -/

/-- The method of a ticket; dice without a ticket have none. -/
def Ticket.methodOf (ticket : Option Ticket) : Option String := ticket.bind (·.method)

namespace Plan

/-- A plan that draws dice as `draws` allows, as long as leave is given as `grants`
    allows. -/
def Under (grants : Dice → Option Ticket → Prop) (draws : Denomination → Option Ticket → Prop) :
    Plan α → Prop
  | done _ => True
  | enter dice next =>
    (∀ e, (next (.error e)).Under grants draws) ∧
      ∀ t, grants dice t → (next (.ok t)).Under grants draws
  | draw d t next => draws d t ∧ ∀ answer, (next answer).Under grants draws
  | leave _ next => next.Under grants draws

variable {grants : Dice → Option Ticket → Prop} {draws : Denomination → Option Ticket → Prop}

theorem Under.bind {p : Plan α} {f : α → Plan β} (h : p.Under grants draws)
    (hf : ∀ a, (f a).Under grants draws) : (p.bind f).Under grants draws := by
  induction p with
  | done a => exact hf a
  | enter dice next ih => exact ⟨fun e => ih _ (h.1 e), fun t ht => ih _ (h.2 t ht)⟩
  | draw d t next ih => exact ⟨h.1, fun answer => ih _ (h.2 answer)⟩
  | leave t next ih => exact ih h

end Plan

namespace Evaluation

variable {grants : Dice → Option Ticket → Prop} {draws : Denomination → Option Ticket → Prop}

theorem under_bind {e : Evaluation α} {f : α → Evaluation β} (h : e.run.Under grants draws)
    (hf : ∀ a, (f a).run.Under grants draws) : (e >>= f).run.Under grants draws := by
  refine Plan.Under.bind h fun outcome => ?_
  cases outcome with
  | ok a => exact hf a
  | error e => exact trivial

/-- A computation draws dice as it draws one. -/
theorem Drawing.under {e : Evaluation Int → Evaluation α} (h : Drawing e) {one : Evaluation Int}
    (hone : one.run.Under grants draws) : (e one).run.Under grants draws := by
  induction h with
  | pure a => exact trivial
  | tooMany => exact trivial
  | one => exact hone
  | bind _ _ ihe ihf => exact under_bind ihe ihf

/-- The results of dice are drawn under their ticket, and only if something is left to
    chance. -/
theorem under_results {d : Dice} {ticket : Option Ticket} (hpending : d.evaluated = false)
    (hd : d.isDeterministic = false → draws d.denomination ticket) (pinned : Bool) :
    (results pinned ticket d).run.Under grants draws := by
  cases hdet : d.isDeterministic with
  | true =>
    rw [results_of_isDeterministic hdet hpending]
    exact trivial
  | false =>
    obtain ⟨e, he, heq⟩ := drawing_results pinned d
    rw [heq]
    exact he.under ⟨hd hdet, fun answer => trivial⟩

/-- An evaluation draws all dice of a term under the ticket that the term was given. -/
theorem Composed.under {pinned : Bool} {e : Evaluation α} (h : Composed pinned e)
    (hgrants : ∀ d t, grants d t → d.isDeterministic = false → draws d.denomination t) :
    e.run.Under grants draws := by
  induction h with
  | pure a => exact trivial
  | throw e => exact trivial
  | bind _ _ ihe ihf => exact under_bind ihe ihf
  | dice d =>
    rw [dice_eq]
    split
    · exact trivial
    · rename_i hpending
      refine ⟨fun e => trivial, fun t ht => ?_⟩
      have hresults : (results pinned t d).run.Under grants draws :=
        under_results (Bool.eq_false_iff.mpr hpending) (hgrants d t ht) pinned
      refine under_bind ?_ fun rs => trivial
      cases t with
      | none => exact hresults
      | some t => exact Plan.Under.bind hresults fun outcome => trivial

end Evaluation

/-! ## Step by step -/

/-- Leave is given with the method of the denomination, unless nothing is left to chance. -/
def Routing.Grants (routing : Routing) (dice : Dice) (ticket : Option Ticket) : Prop :=
  Ticket.methodOf ticket =
    if dice.isDeterministic then none else routing.externalMethod? dice.denomination

/-- A die is drawn by the method of its denomination. -/
def Routing.Entrusts (routing : Routing) (d : Denomination) (ticket : Option Ticket) : Prop :=
  Ticket.methodOf ticket = routing.externalMethod? d

/-- A plan that draws all dice by the methods of their denominations. -/
abbrev Plan.Entrusted (routing : Routing) (p : Plan α) : Prop :=
  p.Under routing.Grants routing.Entrusts

/-- An evaluation draws all dice by the methods of their denominations. -/
theorem Evaluation.entrusted_roll (routing : Routing) (s : Setting) (r : Roll) :
    (roll s r).run.Entrusted routing := by
  refine (composed_roll s r).under fun d t ht hd => ?_
  rw [Routing.Grants, hd] at ht
  exact ht

/-- The dice that were rolled. -/
def Draw.rolled? : Draw → Option (Denomination × Int)
  | rolled d v => some (d, v)
  | pinned _ | requested _ | answered _ _ => none

/-- The values of interactive dice, with the methods by which they came. -/
def Routing.handed (routing : Routing) (obtained : List (Denomination × Int)) :
    List (String × Denomination × Int) :=
  obtained.filterMap fun (d, v) => (routing.externalMethod? d).map (·, d, v)

theorem Routing.handed_append (routing : Routing) (t u : List (Denomination × Int)) :
    routing.handed (t ++ u) = routing.handed t ++ routing.handed u :=
  List.filterMap_append

theorem Routing.handed_singleton {routing : Routing} {d : Denomination} {method : String}
    (h : routing.externalMethod? d = some method) (v : Int) :
    routing.handed [(d, v)] = [(method, d, v)] := by
  simp [handed, h]

theorem Routing.mem_handed {routing : Routing} {d : Denomination} {method : String}
    (h : routing.externalMethod? d = some method) {v : Int} {obtained : List (Denomination × Int)}
    (hv : (d, v) ∈ obtained) : (method, d, v) ∈ routing.handed obtained :=
  List.mem_filterMap.mpr ⟨(d, v), hv, by simp [h]⟩

/-- What a suspended plan and its coordinator have to do with one another, where `came` is
    the answer that lies ready. -/
def Suspended.Attended (routing : Routing) (k : Coordinator) :
    Suspended α → List (String × Denomination × Int) → Prop
  | finished _, came => k.Idle ∧ came = []
  | waiting id d next, came =>
    (∀ answer, (next answer).Entrusted routing) ∧
      ∃ method value?, routing.externalMethod? d = some method ∧
        k.Attends id method d value? ∧ came = (value?.map (method, d, ·)).toList

/-- What a plan does until it is over or waits: it rolls no interactive dice, asks the
    roller for nothing but what it logs, and is handed nothing. -/
structure Plan.Custody (routing : Routing) (r r' : σ) (k' : Coordinator) (log : List Draw)
    (s : Suspended α) : Prop where
  rolled : ∀ d v, .rolled d v ∈ log → routing.externalMethod? d = none
  roller : r' = Roller.after (log.filterMap Draw.rolled?) r
  handed : routing.handed (log.filterMap Draw.obtained?) = []
  attended : s.Attended routing k' []

namespace Plan

variable {o : EvaluationOptions}

omit [Roller σ] in
/-- What a coordinator gives leave with. -/
theorem grants_grantTicket (hopen : o.allowInteractive = true) (hpin : o.isPinned = false)
    (dice : Dice) (c : Context σ) (k : Coordinator) :
    c.config.routing.Grants dice (grantTicket o dice c k).1 := by
  have hmethod : c.interactiveMethod? o dice =
      if dice.isDeterministic then none
      else c.config.routing.externalMethod? dice.denomination := by
    cases hdet : dice.isDeterministic <;>
      simp [Context.interactiveMethod?, hopen, hpin, hdet]
  unfold grantTicket Routing.Grants
  split
  · next hnone => simp [Ticket.methodOf, hnone]
  · simpa [Ticket.methodOf] using hmethod

omit [Roller σ] in
/-- Nobody waits at an idle coordinator because it gave leave. -/
theorem idle_grantTicket {k : Coordinator} (hk : k.Idle) (o : EvaluationOptions) (dice : Dice)
    (c : Context σ) : (grantTicket o dice c k).2.Idle := by
  unfold grantTicket
  split
  · exact hk
  · exact hk.track _

/-- A rolled die comes before what follows. -/
theorem Custody.cons_rolled {routing : Routing} {r r' : σ} {k' : Coordinator} {log : List Draw}
    {s : Suspended α} {d : Denomination} (hd : routing.externalMethod? d = none) (v : Int)
    (h : Custody routing (Roller.roll d.faces r).2 r' k' log s) :
    Custody routing r r' k' (.rolled d v :: log) s where
  rolled := by
    intro d' v' hmem
    rcases List.mem_cons.mp hmem with heq | hmem
    · cases heq
      exact hd
    · exact h.rolled d' v' hmem
  roller := h.roller
  handed := by
    have hcons := routing.handed_append [(d, v)] (log.filterMap Draw.obtained?)
    rw [h.handed] at hcons
    simpa [Draw.obtained?, Routing.handed, hd] using hcons
  attended := h.attended

/-- A die that was asked for in vain comes before what follows. -/
theorem Custody.cons_requested {routing : Routing} {r r' : σ} {k' : Coordinator} {log : List Draw}
    {s : Suspended α} (d : Denomination) (h : Custody routing r r' k' log s) :
    Custody routing r r' k' (.requested d :: log) s where
  rolled := by simpa using h.rolled
  roller := h.roller
  handed := h.handed
  attended := h.attended

/-- A plan that draws dice by their methods keeps custody of them. -/
theorem Entrusted.advance (hopen : o.allowInteractive = true) (hpin : o.isPinned = false)
    {p : Plan α} {c : Context σ} (hp : p.Entrusted c.config.routing) {k : Coordinator}
    (hk : k.Idle) :
    Custody c.config.routing c.roller (p.advance o c k).2.1.roller (p.advance o c k).2.2
      (p.draws o c k) (p.advance o c k).1 := by
  induction p generalizing c k with
  | done a => exact ⟨by simp [draws], rfl, rfl, hk, rfl⟩
  | leave ticket next ih => exact ih hp (hk.finish ticket.number)
  | enter dice next ih =>
    exact ih _ (hp.2 _ (grants_grantTicket hopen hpin dice c k)) (idle_grantTicket hk o dice c)
  | draw d ticket next ih =>
    obtain ⟨hdraws, hnext⟩ := hp
    have hfree := EvaluationOptions.pinnedValue?_eq_none hpin d
    cases hmany : c.count.1 with
    | true =>
      simp only [draws, Plan.advance, hmany, if_true]
      exact ih (.error .tooManyRolls) (c := c.count.2) (hnext _) hk
    | false =>
      have hrest := ih (.ok (c.count.2.rollDie d).1) (c := (c.count.2.rollDie d).2) (hnext _) hk
      obtain _ | ⟨number, _ | method⟩ := ticket
      iterate 2
        · simp only [draws, Plan.advance, hmany, hfree, drawNow, Bool.false_eq_true, if_false]
          exact hrest.cons_rolled hdraws.symm _
      · simp only [draws, Plan.advance, hmany, hfree, Bool.false_eq_true, if_false]
        cases hc : k.cancelled with
        | true =>
          rw [Coordinator.request_of_cancelled method d number hc]
          have hrest := ih (.error (.evaluation .cancelled)) (c := c.count.2) (hnext _) hk
          exact hrest.cons_requested d
        | false =>
          have hrequest : k.request method d number =
              (some k.nextId, (k.request method d number).2) := by
            rw [← Coordinator.request_fst method d number hc]
          rw [hrequest]
          refine ⟨by simp, rfl, rfl, hnext, method, none, hdraws.symm, ?_, rfl⟩
          exact hk.request method d number hc

end Plan

/-! ## Courses with an actor -/

namespace Course

/-- The moves of an evaluation and of an actor, who submits results and may cancel. -/
def Move.IsActing : Move → Prop
  | .poll | .other (.submit _ _ _) | .other .cancel => True
  | .other _ => False

/-- The result that a move submits, if it is accepted. -/
def acceptedBy (m : Move) (s : Course σ) : List (String × Denomination × Int) :=
  match m with
  | .other (.submit method text value) =>
    match (s.live.coordinator.submit method text value).1, Denomination.ofChars? text.toList with
    | .ok (), some d => [(method, d, value)]
    | _, _ => []
  | _ => []

/-- The results that are accepted in a run, in order. -/
def accepted : List Move → Course σ → List (String × Denomination × Int)
  | [], _ => []
  | m :: rest, s => s.acceptedBy m ++ accepted rest (s.step m)

/-- What holds of an evaluation with an actor at any time, where `results` were accepted so
    far. -/
structure Entrusted (o : EvaluationOptions) (c : Context σ)
    (results : List (String × Denomination × Int)) (s : Course σ) : Prop where
  options : s.attempt.options = o
  config : s.context.config = c.config
  rolled : ∀ d v, .rolled d v ∈ s.log → c.config.routing.externalMethod? d = none
  roller : s.context.roller = Roller.after (s.log.filterMap Draw.rolled?) c.roller
  attended : ∃ came, s.attempt.state.Attended c.config.routing s.live.coordinator came ∧
    results = c.config.routing.handed s.obtained ++ came

variable {o : EvaluationOptions} {l : LiveRoll} {c : Context σ} {s : Course σ}
  {results : List (String × Denomination × Int)} {waiters : List Waiter}

/-- A plan that is carried on keeps custody after what was drawn before. -/
theorem entrusted_of_plan (hopen : o.allowInteractive = true) (hpin : o.isPinned = false)
    {p : Plan (Except RollError (Roll × Number))} (hp : p.Entrusted c.config.routing)
    {k : Coordinator} (hk : k.Idle) (c₁ : Context σ) (hc : c₁.config = c.config)
    (log : List Draw)
    (hrolled : ∀ d v, .rolled d v ∈ log → c.config.routing.externalMethod? d = none)
    (hroller : c₁.roller = Roller.after (log.filterMap Draw.rolled?) c.roller) (live : LiveRoll) :
    let (state, c₂, k') := p.advance o c₁ k
    Entrusted o c (c.config.routing.handed (log.filterMap Draw.obtained?))
      ⟨⟨o, state⟩, live.settle ⟨o, state⟩ k', c₂, waiters, log ++ p.draws o c₁ k⟩ := by
  have hcustody := Plan.Entrusted.advance hopen hpin (c := c₁) (hc ▸ hp) hk
  rw [hc] at hcustody
  refine ⟨rfl, (Plan.advances o p c₁ k).context.1.trans hc, ?_, ?_, [], ?_, ?_⟩
  · intro d v hmem
    rcases List.mem_append.mp hmem with hmem | hmem
    · exact hrolled d v hmem
    · exact hcustody.rolled d v hmem
  · rw [hcustody.roller, hroller, List.filterMap_append, Roller.after_append]
  · rw [LiveRoll.coordinator_settle]
    exact hcustody.attended
  · simp only [obtained, List.filterMap_append]
    rw [Routing.handed_append, hcustody.handed, List.append_nil, List.append_nil]

/-- An evaluation is entrusted when it begins. -/
theorem entrusted_start (hopen : o.allowInteractive = true) (hpin : o.isPinned = false)
    (hidle : l.coordinator.Idle) : Entrusted o c [] (start o l c waiters) := by
  cases hl : l.roll.evaluated with
  | true =>
    simp only [start, LiveRoll.begin, hl, if_true]
    exact ⟨rfl, rfl, by simp, rfl, [], ⟨hidle, rfl⟩, rfl⟩
  | false =>
    simp only [start, LiveRoll.begin, hl, Bool.false_eq_true, if_false]
    have hplan := Evaluation.entrusted_roll c.config.routing ⟨o, c.functions, false⟩ l.roll
    exact entrusted_of_plan hopen hpin hplan hidle c.restart rfl [] (by simp) rfl l

/-- An evaluation that waited stays entrusted when it goes on, after draws that were not
    rolled. -/
theorem Entrusted.resumed (hopen : o.allowInteractive = true) (hpin : o.isPinned = false)
    (h : Entrusted o c results s) {plan : Plan (Except RollError (Roll × Number))}
    (hplan : plan.Entrusted c.config.routing) {k : Coordinator} (hk : k.Idle) (draws : List Draw)
    (hdraws : draws.filterMap Draw.rolled? = []) :
    Entrusted o c (c.config.routing.handed ((s.log ++ draws).filterMap Draw.obtained?))
      (s.resumed plan k draws) := by
  have hrolled : ∀ d v, .rolled d v ∈ s.log ++ draws →
      c.config.routing.externalMethod? d = none := by
    intro d v hmem
    rcases List.mem_append.mp hmem with hmem | hmem
    · exact h.rolled d v hmem
    · have := List.filterMap_eq_nil_iff.mp hdraws _ hmem
      cases this
  have hroller : s.context.roller =
      Roller.after ((s.log ++ draws).filterMap Draw.rolled?) c.roller := by
    rw [List.filterMap_append, hdraws, List.append_nil]
    exact h.roller
  obtain rfl : s.attempt.options = o := h.options
  exact entrusted_of_plan hopen hpin hplan hk s.context h.config _ hrolled hroller s.live

/-- An evaluation stays entrusted when it is polled. -/
theorem Entrusted.poll (hopen : o.allowInteractive = true) (hpin : o.isPinned = false)
    (h : Entrusted o c results s) : Entrusted o c results (s.step .poll) := by
  obtain ⟨came, hattended, hresults⟩ := h.attended
  cases hs : s.attempt.state with
  | finished outcome =>
    have hstep : s.step .poll = s := by
      simp [step, LiveRoll.poll, Suspended.draws, hs]
    rw [hstep]
    exact h
  | waiting id d next =>
    rw [hs] at hattended
    obtain ⟨hnext, method, value?, hmethod, hattends, rfl⟩ := hattended
    rw [step_poll_waiting hs]
    cases value? with
    | some v =>
      rw [hattends.reply_some]
      -- the answer that lay ready is drawn now
      have hdrawn : results =
          c.config.routing.handed ((s.log ++ [Draw.answered d v]).filterMap Draw.obtained?) := by
        rw [hresults, List.filterMap_append, Routing.handed_append]
        exact congrArg _ (Routing.handed_singleton hmethod v).symm
      rw [hdrawn]
      exact h.resumed hopen hpin (hnext (.ok v)) hattends.withdraw [.answered d v] rfl
    | none =>
      rw [Option.map_none, Option.toList_none, List.append_nil] at hresults
      rcases hattends.reply_none with hreply | hreply
      · rw [hreply]
        refine ⟨h.options, h.config, h.rolled, h.roller, [], ?_, ?_⟩
        · rw [hs]
          exact ⟨hnext, method, none, hmethod, hattends, rfl⟩
        · rw [List.append_nil]
          exact hresults
      · rw [hreply]
        have hrest := h.resumed hopen hpin (hnext (.error (.evaluation .cancelled)))
          hattends.withdraw [] rfl
        rw [List.append_nil] at hrest
        rw [hresults]
        exact hrest

/-- An evaluation stays entrusted when an actor cancels it. -/
theorem Entrusted.cancel (h : Entrusted o c results s) :
    Entrusted o c results (s.step (.other .cancel)) := by
  obtain ⟨came, hattended, hresults⟩ := h.attended
  refine ⟨h.options, h.config, h.rolled, h.roller, came, ?_, hresults⟩
  change s.attempt.state.Attended c.config.routing s.live.coordinator.cancel came
  cases hs : s.attempt.state with
  | finished outcome =>
    rw [hs] at hattended
    exact ⟨hattended.1.cancel, hattended.2⟩
  | waiting id d next =>
    rw [hs] at hattended
    obtain ⟨hnext, method, value?, hmethod, hattends, hcame⟩ := hattended
    exact ⟨hnext, method, value?, hmethod, hattends.cancel, hcame⟩

/-- An evaluation stays entrusted when an actor submits a result, and a result that is
    accepted lies ready for it. -/
theorem Entrusted.submit (h : Entrusted o c results s) (m text : String) (value : Int) :
    Entrusted o c (results ++ s.acceptedBy (.other (.submit m text value)))
      (s.step (.other (.submit m text value))) := by
  obtain ⟨came, hattended, hresults⟩ := h.attended
  -- a submission that is refused changes nothing
  have hrefused : ∀ e, s.live.coordinator.submit m text value = (.error e, s.live.coordinator) →
      Entrusted o c (results ++ s.acceptedBy (.other (.submit m text value)))
        (s.step (.other (.submit m text value))) := by
    intro e he
    have hnone : s.acceptedBy (.other (.submit m text value)) = [] := by
      simp [acceptedBy, he]
    rw [hnone, List.append_nil]
    refine ⟨h.options, h.config, h.rolled, h.roller, came, ?_, hresults⟩
    change s.attempt.state.Attended c.config.routing
      (s.live.coordinator.submit m text value).2 came
    rw [he]
    exact hattended
  cases hs : s.attempt.state with
  | finished outcome =>
    rw [hs] at hattended
    obtain ⟨e, he⟩ :=
      Coordinator.submit_of_outstanding_nil hattended.1.outstanding m text value
    exact hrefused e he
  | waiting id d next =>
    rw [hs] at hattended
    obtain ⟨hnext, method, value?, hmethod, hattends, hcame⟩ := hattended
    rcases hattends.submit m text value with ⟨e, he⟩ | ⟨hok, rfl, hd, rfl, hanswered⟩
    · exact hrefused e he
    · have haccepted : s.acceptedBy (.other (.submit m text value)) = [(m, d, value)] := by
        simp [acceptedBy, hok, hd]
      rw [haccepted]
      refine ⟨h.options, h.config, h.rolled, h.roller, [(m, d, value)], ?_, ?_⟩
      · change s.attempt.state.Attended c.config.routing
          (s.live.coordinator.submit m text value).2 [(m, d, value)]
        rw [hs]
        exact ⟨hnext, m, some value, hmethod, hanswered, rfl⟩
      · rw [hresults, hcame]
        exact congrArg (· ++ [(m, d, value)]) (List.append_nil _)

/-- Whatever an actor does, an evaluation stays entrusted. -/
theorem Entrusted.run (hopen : o.allowInteractive = true) (hpin : o.isPinned = false)
    (h : Entrusted o c results s) {moves : List Move} (hmoves : ∀ m ∈ moves, m.IsActing) :
    Entrusted o c (results ++ accepted moves s) (run moves s) := by
  induction moves generalizing s results with
  | nil =>
    rw [accepted, List.append_nil]
    exact h
  | cons m rest ih =>
    rw [accepted, ← List.append_assoc]
    have hrest : ∀ m ∈ rest, m.IsActing := fun m hm => hmoves m (List.mem_cons_of_mem _ hm)
    refine ih ?_ hrest
    match m, hmoves m List.mem_cons_self with
    | .poll, _ =>
      rw [show s.acceptedBy .poll = [] from rfl, List.append_nil]
      exact h.poll hopen hpin
    | .other (.submit method text value), _ => exact h.submit method text value
    | .other .cancel, _ =>
      rw [show s.acceptedBy (.other .cancel) = [] from rfl, List.append_nil]
      exact h.cancel

end Course

end DiceNotation
