/-
  DiceNotation.Proofs.Evaluation.Orderly

  Calls keep a coordinator in order.

  The tickets that a coordinator gave out are those of the turns that began, and
  dice are due for the term that has its turn and for those whose calls were given
  up (`Coordinator.Books`). A plan that is carried on stops with nobody having a
  turn, or it waits for a die of the term that has it, with one request at most
  (`Plan.Bracketed.advance`). So a roll in use is in order after any calls, polls,
  submissions and cancellations (`Lifetime.Orderly.run`).
-/

import DiceNotation.Proofs.Evaluation.Agreement
import DiceNotation.Proofs.Evaluation.Lifetime
import DiceNotation.Proofs.Evaluation.Turns
import DiceNotation.Proofs.Fulfillment.Owed

namespace DiceNotation

variable {σ α : Type} [Roller σ]

/-! ## Books -/

/-- What a coordinator has on its books. The tickets that it gave out are those of the turns
    that were `entered`, in order. Dice are due for the term that has its turn, `held`, and for
    the tickets of those that were given up, `left`, which are waited for still. -/
structure Coordinator.Books (routing : Routing) (entered : List Turn) (left : List Nat)
    (held : Option Turn) (k : Coordinator) : Prop where
  numbers : Turn.numbers entered = List.range k.tracked.length
  due_iff : ∀ ticket, k.Due ticket ↔ ticket ∈ left ∨ Turn.numberOf held = some ticket
  awaits : ∀ ticket ∈ left, k.progress? ticket = some .awaitingExternal
  apart : ∀ ticket ∈ left, Turn.numberOf held ≠ some ticket
  last : ∀ turn, held = some turn → entered.getLast? = some turn
  suits : ∀ turn ticket, held = some turn → turn.ticket? = some ticket →
    ticket.suits routing turn.dice.denomination

namespace Coordinator.Books

variable {routing : Routing} {entered : List Turn} {left : List Nat} {held : Option Turn}
  {k k' : Coordinator}

/-- The tickets of a new coordinator. -/
theorem fresh (routing : Routing) : Books routing [] [] none {} where
  numbers := rfl
  due_iff := by simp [Due, progress?, Turn.numberOf, Turn.ticketOf]
  awaits := by simp
  apart := by simp
  last := nofun
  suits := nofun

/-- Only tickets are on the books. -/
theorem congr (h : k.Books routing entered left held) (htracked : k'.tracked = k.tracked) :
    k'.Books routing entered left held where
  numbers := by rw [h.numbers, htracked]
  due_iff := fun ticket => by rw [due_congr htracked, h.due_iff]
  awaits := fun ticket hleft => by rw [progress?_congr htracked, h.awaits ticket hleft]
  apart := h.apart
  last := h.last
  suits := h.suits

/-- Where nobody has a turn, the methods of dice are nothing to the books. -/
theorem reroute (h : k.Books routing entered left none) (routing' : Routing) :
    k.Books routing' entered left none :=
  ⟨h.numbers, h.due_iff, h.awaits, h.apart, h.last, nofun⟩

/-- A turn without a ticket may be over at any time. -/
theorem settled (h : k.Books routing entered left held) (hheld : Turn.ticketOf held = none) :
    k.Books routing entered left none where
  numbers := h.numbers
  due_iff := fun ticket => by
    rw [h.due_iff, Turn.numberOf_of_ticketOf_eq_none hheld]
    rfl
  awaits := h.awaits
  apart := nofun
  last := nofun
  suits := nofun

/-- The ticket of the term that has its turn has dice due. -/
theorem due_held (h : k.Books routing entered left held) {ticket : Ticket}
    (hheld : Turn.ticketOf held = some ticket) : k.Due ticket.number := by
  rw [h.due_iff, Turn.numberOf, hheld]
  exact .inr rfl

/-- Dice that nobody coordinates get leave without a ticket. -/
theorem untracked (h : k.Books routing entered left held) (hheld : Turn.ticketOf held = none)
    (dice : Dice) : k.Books routing (entered ++ [⟨dice, none⟩]) left (some ⟨dice, none⟩) where
  numbers := by
    rw [Turn.numbers_append, h.numbers]
    exact List.append_nil _
  due_iff := fun ticket => by
    rw [h.due_iff, Turn.numberOf_of_ticketOf_eq_none hheld]
    rfl
  awaits := h.awaits
  apart := nofun
  last := by
    rintro _ ⟨⟩
    exact List.getLast?_concat
  suits := by
    rintro _ ticket ⟨⟩ ⟨⟩

/-- A term gets leave with the next ticket. -/
theorem tracked (h : k.Books routing entered left held) (hheld : Turn.ticketOf held = none)
    (dice : Dice) (external : Bool) {method : Option String}
    (hsuits : (⟨k.tracked.length, method⟩ : Ticket).suits routing dice.denomination) :
    (k.track external).2.Books routing (entered ++ [⟨dice, some ⟨k.tracked.length, method⟩⟩]) left
      (some ⟨dice, some ⟨k.tracked.length, method⟩⟩) where
  numbers := by
    have hlength : (k.track external).2.tracked.length = k.tracked.length + 1 :=
      List.length_append
    rw [Turn.numbers_append, h.numbers, hlength, List.range_succ]
    rfl
  due_iff := fun ticket => by
    rw [due_track, h.due_iff, Turn.numberOf_of_ticketOf_eq_none hheld]
    simp [Turn.numberOf, Turn.ticketOf]
  awaits := fun ticket hleft => by
    have hlt := lt_of_progress? (h.awaits ticket hleft)
    rw [progress?_track, if_neg (Nat.ne_of_lt hlt), h.awaits ticket hleft]
  apart := by
    rintro ticket hleft ⟨⟩
    exact Nat.lt_irrefl _ (lt_of_progress? (h.awaits _ hleft))
  last := by
    rintro _ ⟨⟩
    exact List.getLast?_concat
  suits := by
    rintro _ _ ⟨⟩ ⟨⟩
    exact hsuits

omit [Roller σ] in
/-- A term gets leave where nobody has a turn. -/
theorem grantTicket {c : Context σ} (h : k.Books c.config.routing entered left held)
    (hheld : Turn.ticketOf held = none) (hidle : k.Idle) (o : EvaluationOptions) (dice : Dice) :
    (Plan.grantTicket o dice c k).2.Idle ∧
      (Plan.grantTicket o dice c k).2.Books c.config.routing
        (entered ++ [⟨dice, (Plan.grantTicket o dice c k).1⟩]) left
        (some ⟨dice, (Plan.grantTicket o dice c k).1⟩) := by
  cases hmethod : c.config.routing.externalMethod? dice.denomination with
  | none =>
    simp only [Plan.grantTicket, hmethod]
    exact ⟨hidle, h.untracked hheld dice⟩
  | some method =>
    simp only [Plan.grantTicket, hmethod]
    refine ⟨hidle.track _, h.tracked hheld dice _ ?_⟩
    simp only [Ticket.suits, Context.interactiveMethod?]
    split <;> simp [hmethod]

/-- A term gives back its ticket. -/
theorem finish (h : k.Books routing entered left held) {ticket : Ticket}
    (hheld : Turn.ticketOf held = some ticket) :
    (k.finish ticket.number).Books routing entered left none := by
  have hnumber : Turn.numberOf held = some ticket.number := by
    rw [Turn.numberOf, hheld, Option.map_some]
  have hapart : ∀ n ∈ left, n ≠ ticket.number := by
    rintro n hleft rfl
    exact h.apart _ hleft hnumber
  refine ⟨?_, fun n => ?_, fun n hleft => ?_, by simp [Turn.numberOf, Turn.ticketOf],
    by simp, by simp⟩
  · rw [h.numbers, length_finish]
  · rw [due_finish, h.due_iff, hnumber]
    constructor
    · rintro ⟨hleft | heq, hne⟩
      · exact .inl hleft
      · exact absurd (Option.some.inj heq).symm hne
    · rintro (hleft | heq)
      · exact ⟨.inl hleft, hapart n hleft⟩
      · cases heq
  · rw [progress?_finish_of_ne (hapart n hleft), h.awaits n hleft]

/-- A request of the term that has its turn leaves the books as they are. -/
theorem request (h : k.Books routing entered left held) {ticket : Ticket}
    (hheld : Turn.ticketOf held = some ticket) (method : String) (d : Denomination) :
    (k.request method d ticket.number).2.Books routing entered left held where
  numbers := by rw [h.numbers, length_request]
  due_iff := fun n => by rw [due_request method d _ (h.due_held hheld), h.due_iff]
  awaits := fun n hleft => by
    have hne : n ≠ ticket.number := by
      rintro rfl
      exact h.apart _ hleft (by rw [Turn.numberOf, hheld, Option.map_some])
    rw [progress?_request_of_ne method d _ hne, h.awaits n hleft]
  apart := h.apart
  last := h.last
  suits := h.suits

/-- The ticket of a term whose call is given up while a die is waited for is left on the
    books. -/
theorem give_up {dice : Dice} {ticket : Ticket}
    (h : k.Books routing entered left (some ⟨dice, some ticket⟩))
    (hawaits : k.progress? ticket.number = some .awaitingExternal) :
    k.Books routing entered (left ++ [ticket.number]) none where
  numbers := h.numbers
  due_iff := fun n => by
    rw [h.due_iff]
    simp [Turn.numberOf, Turn.ticketOf, eq_comm]
  awaits := fun n hn => by
    rcases List.mem_append.mp hn with hleft | hlast
    · exact h.awaits n hleft
    · rwa [List.mem_singleton.mp hlast]
  apart := nofun
  last := nofun
  suits := nofun

end Coordinator.Books

/-! ## Plans -/

/-- What a suspended plan has to do with its coordinator: nobody has a turn, or a die of the
    term that has its turn is waited for. -/
inductive Suspended.InTurn (routing : Routing) (entered : List Turn) (left : List Nat)
    (k : Coordinator) : Suspended α → Prop where
  | finished (value : α) (hidle : k.Idle) (hbooks : k.Books routing entered left none) :
      InTurn routing entered left k (.finished value)
  | waiting {id : Nat} {d : Denomination} {next : Except RollError Int → Plan α} (dice : Dice)
      (ticket : Ticket) (method : String) (came : Option Int) (hdice : dice.denomination = d)
      (hmethod : routing.externalMethod? d = some method)
      (hbooks : k.Books routing entered left (some ⟨dice, some ticket⟩))
      (hattends : k.Attends id method d came)
      (hrequests : ∀ r ∈ k.outstanding, r.ticket = ticket.number)
      (hawaits : k.progress? ticket.number = some .awaitingExternal)
      (hnext : ∀ answer, (next answer).Bracketed (some ⟨dice, some ticket⟩)) :
      InTurn routing entered left k (.waiting id d next)

/-- A request that the term leaves that has its turn is waited for. -/
theorem Coordinator.Books.waiting {routing : Routing} {entered : List Turn} {left : List Nat}
    {dice : Dice} {number : Nat} {method : String} {k : Coordinator}
    (h : k.Books routing entered left (some ⟨dice, some ⟨number, some method⟩⟩)) (hidle : k.Idle)
    (hc : k.cancelled = false) {d : Denomination} (hdice : dice.denomination = d)
    {next : Except RollError Int → Plan α}
    (hnext : ∀ answer, (next answer).Bracketed (some ⟨dice, some ⟨number, some method⟩⟩)) :
    (Suspended.waiting k.nextId d next).InTurn routing entered left
      (k.request method d number).2 := by
  have hmethod : routing.externalMethod? d = some method :=
    hdice ▸ h.suits _ _ rfl rfl method rfl
  have hlt : number < k.tracked.length := lt_of_due (h.due_held rfl)
  have hrequests : ∀ r ∈ (k.request method d number).2.outstanding, r.ticket = number := by
    intro r hr
    rw [outstanding_request method d number hc, hidle.outstanding] at hr
    rw [List.mem_singleton.mp hr]
  exact .waiting dice ⟨number, some method⟩ method none hdice hmethod (h.request rfl method d)
    (hidle.request method d number hc) hrequests (progress?_request method d number hc hlt) hnext

/-- A plan in which terms take turns keeps the books. -/
theorem Plan.Bracketed.advance {p : Plan α} {held : Option Turn} (h : p.Bracketed held)
    (o : EvaluationOptions) {c : Context σ} {k : Coordinator} {entered : List Turn}
    {left : List Nat} (hidle : k.Idle) (hbooks : k.Books c.config.routing entered left held) :
    (p.advance o c k).1.InTurn c.config.routing (entered ++ p.turns o c k) left
      (p.advance o c k).2.2 := by
  induction p generalizing c k held entered with
  | done a =>
    rw [Plan.turns, List.append_nil]
    exact .finished a hidle (hbooks.settled h)
  | leave ticket next ih => exact ih h.2 (hidle.finish _) (hbooks.finish h.1)
  | enter dice next ih =>
    obtain ⟨hheld, -, hnext⟩ := h
    obtain ⟨hidle', hbooks'⟩ := hbooks.grantTicket hheld hidle o dice
    have hrest := ih _ (hnext _) hidle' hbooks'
    rw [List.append_assoc] at hrest
    exact hrest
  | draw d ticket next ih =>
    obtain ⟨⟨dice, hheld, hdice⟩, hnext⟩ := h
    cases hmany : c.count.1 with
    | true =>
      simp only [Plan.turns, Plan.advance, hmany, if_true]
      exact ih _ (c := c.count.2) (hnext _) hidle hbooks
    | false =>
      cases hpin : o.pinnedValue? d with
      | some v =>
        simp only [Plan.turns, Plan.advance, hmany, hpin, drawNow, Bool.false_eq_true, if_false]
        exact ih _ (c := c.count.2) (hnext _) hidle hbooks
      | none =>
        -- without a method from outside the die is rolled
        have hroll := ih (.ok (c.count.2.rollDie d).1) (c := (c.count.2.rollDie d).2) (hnext _)
          hidle hbooks
        obtain _ | ⟨number, _ | method⟩ := ticket
        iterate 2
          · simp only [Plan.turns, Plan.advance, hmany, hpin, drawNow, Bool.false_eq_true, if_false]
            exact hroll
        · cases hc : k.cancelled with
          | true =>
            simp only [Plan.turns, Plan.advance, hmany, hpin, Bool.false_eq_true, if_false,
              Coordinator.request_of_cancelled method d number hc]
            exact ih _ (c := c.count.2) (hnext _) hidle hbooks
          | false =>
            have hrequest : k.request method d number =
                (some k.nextId, (k.request method d number).2) := by
              rw [← Coordinator.request_fst method d number hc]
            simp only [Plan.turns, Plan.advance, hmany, hpin, Bool.false_eq_true, if_false]
            rw [hrequest, List.append_nil]
            obtain rfl := hheld
            exact hbooks.waiting hidle hc hdice hnext

namespace Suspended.InTurn

variable {routing : Routing} {entered : List Turn} {left : List Nat} {k : Coordinator}
  {s : Suspended α}

/-- A plan that is polled keeps the books. -/
theorem poll {c : Context σ} (h : s.InTurn c.config.routing entered left k)
    (o : EvaluationOptions) :
    (s.poll o c k).1.InTurn c.config.routing (entered ++ s.turns o c k) left
      (s.poll o c k).2.2 := by
  cases h with
  | finished value hidle hbooks =>
    rw [Suspended.turns, List.append_nil]
    exact .finished value hidle hbooks
  | @waiting id d next dice ticket method came hdice hmethod hbooks hattends hrequests hawaits
      hnext =>
    -- whoever is over with waiting goes on in the same turn
    have hresumed : ∀ answer,
        ((next answer).advance o c (k.withdraw id)).1.InTurn c.config.routing
          (entered ++ (next answer).turns o c (k.withdraw id)) left
          ((next answer).advance o c (k.withdraw id)).2.2 := fun answer =>
      (hnext answer).advance o hattends.withdraw (hbooks.congr rfl)
    cases hreply : k.reply id with
    | pending =>
      simp only [Suspended.poll, Suspended.turns, Coordinator.collect, hreply, List.append_nil]
      exact .waiting dice ticket method came hdice hmethod hbooks hattends hrequests hawaits hnext
    | answered value =>
      simp only [Suspended.poll, Suspended.turns, Coordinator.collect, hreply]
      exact hresumed (.ok value)
    | cancelled =>
      simp only [Suspended.poll, Suspended.turns, Coordinator.collect, hreply]
      exact hresumed (.error (.evaluation .cancelled))

/-- A cancellation takes the request off the table that is waited for. -/
theorem cancel (h : s.InTurn routing entered left k) : s.InTurn routing entered left k.cancel := by
  cases h with
  | finished value hidle hbooks => exact .finished value hidle.cancel (hbooks.congr rfl)
  | waiting dice ticket method came hdice hmethod hbooks hattends hrequests hawaits hnext =>
    refine .waiting dice ticket method came hdice hmethod (hbooks.congr rfl) hattends.cancel ?_
      hawaits hnext
    simp [Coordinator.cancel]

/-- A submission is refused and changes nothing, or it answers the request that is waited
    for. -/
theorem submit (h : s.InTurn routing entered left k) (m text : String) (value : Int) :
    (∃ e, k.submit m text value = (.error e, k)) ∨
      ((k.submit m text value).1 = .ok () ∧ (k.submit m text value).2.outstanding = [] ∧
        s.InTurn routing entered left (k.submit m text value).2) := by
  cases h with
  | finished _ hidle hbooks =>
    exact .inl (Coordinator.submit_of_outstanding_nil hidle.outstanding m text value)
  | waiting dice ticket method came hdice hmethod hbooks hattends hrequests hawaits hnext =>
    rcases hattends.submit m text value with hrefused | ⟨hok, rfl, -, rfl, hanswered⟩
    · exact .inl hrefused
    · have htracked := Coordinator.tracked_submit (k := k) m text value
      have hnone : (k.submit m text value).2.outstanding = [] := by
        cases hanswered with
        | answered _ houtstanding => exact houtstanding
      refine .inr ⟨hok, hnone, .waiting dice ticket m _ hdice hmethod (hbooks.congr htracked)
        hanswered ?_ ?_ hnext⟩
      · simp [hnone]
      · rw [Coordinator.progress?_congr htracked, hawaits]

/-- A plan that is given up while it waits leaves its ticket on the books. -/
theorem giveUp (h : s.InTurn routing entered left k) {id : Nat} {d : Denomination}
    {next : Except RollError Int → Plan α} (hs : s = .waiting id d next) :
    ∃ dice ticket, entered.getLast? = some ⟨dice, some ticket⟩ ∧ (s.giveUp k).Idle ∧
      (s.giveUp k).Books routing entered (left ++ [ticket.number]) none := by
  subst hs
  cases h with
  | waiting dice ticket method came hdice hmethod hbooks hattends hrequests hawaits hnext =>
    refine ⟨dice, ticket, hbooks.last _ rfl, hattends.withdraw, ?_⟩
    exact (hbooks.give_up hawaits).congr rfl

end Suspended.InTurn

/-- A plan that is polled keeps the methods of dice. -/
theorem Suspended.routing_poll (o : EvaluationOptions) (s : Suspended α)
    (c : Context σ) (k : Coordinator) :
    (s.poll o c k).2.1.config.routing = c.config.routing := by
  have hadvance : ∀ (p : Plan α) (k' : Coordinator),
      (p.advance o c k').2.1.config.routing = c.config.routing := fun p k' =>
    congrArg Config.routing (Plan.advances o p c k').context.1
  cases s with
  | finished value => rfl
  | waiting id d next =>
    cases hreply : k.reply id with
    | pending => simp only [poll, Coordinator.collect, hreply]
    | answered value =>
      simp only [poll, Coordinator.collect, hreply]
      exact hadvance _ _
    | cancelled =>
      simp only [poll, Coordinator.collect, hreply]
      exact hadvance _ _

/-! ## Rolls in use -/

namespace Lifetime

/-- The turns that begin with a move. -/
def turnsBy (m : Move σ) (s : Lifetime σ) : List Turn :=
  match m, s.attempt? with
  | .begin o, none =>
    if s.live.roll.evaluated then []
    else (Evaluation.roll ⟨o, s.context.functions, false⟩ s.live.roll).run.turns o
      s.context.restart s.live.coordinator
  | .poll, some a => a.state.turns a.options s.context s.live.coordinator
  | _, _ => []

/-- The turns that begin in a run, in order. -/
def turns : List (Move σ) → Lifetime σ → List Turn
  | [], _ => []
  | m :: rest, s => s.turnsBy m ++ turns rest (s.step m).2

/-- The turn that is given up with a move, where `entered` are the turns that began so far: the
    latest of them, if a call is given up. -/
def droppedBy (m : Move σ) (entered : List Turn) (s : Lifetime σ) : List Turn :=
  match m, s.attempt? with
  | .giveUp, some _ => entered.getLast?.toList
  | _, _ => []

/-- The turns that are given up in a run, in order, after others that began before. -/
def dropped : List (Move σ) → List Turn → Lifetime σ → List Turn
  | [], _, _ => []
  | m :: rest, entered, s =>
    s.droppedBy m entered ++ dropped rest (entered ++ s.turnsBy m) (s.step m).2

/-- The moves of calls and of actors, who submit results and may cancel. -/
def Move.IsActing : Move σ → Prop
  | .other (.submit _ _ _) | .other .cancel => True
  | .other _ => False
  | .evaluateNow _ | .begin _ | .poll | .giveUp | .equip _ => True

/-- What holds of a roll in use at any time, where `entered` are the turns that began so far
    and `given` those that were given up: nobody waits where no call is under way, and a call
    that is under way waits for a die of the term that has its turn. -/
structure Orderly (entered given : List Turn) (s : Lifetime σ) : Prop where
  idle : s.attempt? = none → s.live.coordinator.Idle ∧
    s.live.coordinator.Books s.context.config.routing entered (Turn.numbers given) none
  waits : ∀ a, s.attempt? = some a → a.outcome? = none ∧
    a.state.InTurn s.context.config.routing entered (Turn.numbers given) s.live.coordinator
  /-- A turn that was given up has a ticket. -/
  ticketed : ∀ turn ∈ given, turn ∈ entered ∧ turn.ticket?.isSome = true

variable {s : Lifetime σ} {entered given : List Turn}

omit [Roller σ] in
/-- A roll in use is in order where no call is under way and its coordinator is. -/
theorem orderly_of_idle (hnone : s.attempt? = none) (hidle : s.live.coordinator.Idle)
    {routing : Routing}
    (hbooks : s.live.coordinator.Books routing entered (Turn.numbers given) none)
    (hticketed : ∀ turn ∈ given, turn ∈ entered ∧ turn.ticket?.isSome = true) :
    s.Orderly entered given := by
  refine ⟨fun _ => ⟨hidle, hbooks.reroute _⟩, fun a ha => ?_, hticketed⟩
  cases hnone.symm.trans ha

omit [Roller σ] in
/-- A new roll is in order. -/
theorem orderly_start (r : Roll) (c : Context σ) (waiters : List Waiter) :
    (start ⟨r, none⟩ c waiters).Orderly [] [] :=
  orderly_of_idle rfl ⟨rfl, rfl, rfl⟩ (.fresh c.config.routing) (by simp)

omit [Roller σ] in
/-- A call that was carried on leaves a roll in order if its plan kept the books. -/
theorem orderly_goOn {o : EvaluationOptions} {state : Suspended (Except RollError (Roll × Number))}
    {routing : Routing} {k : Coordinator}
    (h : state.InTurn routing entered (Turn.numbers given) k) {context : Context σ}
    (hconfig : context.config.routing = routing)
    (hticketed : ∀ turn ∈ given, turn ∈ entered ∧ turn.ticket?.isSome = true) :
    (goOn ⟨o, state⟩ { s with live := s.live.settle ⟨o, state⟩ k, context }).2.Orderly entered
      given := by
  have hk : (s.live.settle ⟨o, state⟩ k).coordinator = k := LiveRoll.coordinator_settle _ _ _
  cases h with
  | finished outcome hidle hbooks =>
    have hidle' : (s.live.settle ⟨o, .finished outcome⟩ k).coordinator.Idle := by rwa [hk]
    have hbooks' : (s.live.settle ⟨o, .finished outcome⟩ k).coordinator.Books routing entered
        (Turn.numbers given) none := by rwa [hk]
    exact orderly_of_idle rfl hidle' hbooks' hticketed
  | waiting dice ticket method came hdice hmethod hbooks hattends hrequests hawaits hnext =>
    refine ⟨nofun, ?_, hticketed⟩
    rintro _ ⟨⟩
    subst hconfig
    exact ⟨rfl, .waiting dice ticket method came hdice hmethod hbooks hattends hrequests hawaits
      hnext⟩

/-! ## Steps -/

omit [Roller σ] in
/-- Turns that were given up are among those that began, also when more begin. -/
theorem Orderly.ticketed_append (h : s.Orderly entered given) (more : List Turn) :
    ∀ turn ∈ given, turn ∈ entered ++ more ∧ turn.ticket?.isSome = true := by
  intro turn hturn
  obtain ⟨hmem, hticket⟩ := h.ticketed turn hturn
  exact ⟨List.mem_append_left more hmem, hticket⟩

/-- A roll stays in order when it is evaluated at once. -/
theorem Orderly.evaluateNow (h : s.Orderly entered given) (hnone : s.attempt? = none)
    (o : EvaluationOptions) : (s.step (.evaluateNow o)).2.Orderly entered given := by
  obtain ⟨hidle, hbooks⟩ := h.idle hnone
  have hsame : (s.step (.evaluateNow o)).2.live.coordinator = s.live.coordinator := by
    simp only [Lifetime.step, hnone, LiveRoll.evaluateNow]
    split <;> rfl
  have hnone' : (s.step (.evaluateNow o)).2.attempt? = none := by
    simp only [Lifetime.step, hnone]
  exact orderly_of_idle hnone' (hsame ▸ hidle) (hsame ▸ hbooks) h.ticketed

/-- A roll stays in order when a call begins. -/
theorem Orderly.begin (h : s.Orderly entered given) (hnone : s.attempt? = none)
    (o : EvaluationOptions) :
    (s.step (.begin o)).2.Orderly (entered ++ s.turnsBy (.begin o)) given := by
  obtain ⟨hidle, hbooks⟩ := h.idle hnone
  simp only [Lifetime.step, turnsBy, hnone, LiveRoll.begin]
  split
  · rw [List.append_nil]
    exact orderly_of_idle rfl hidle hbooks h.ticketed
  · have hplan := Evaluation.bracketed_roll ⟨o, s.context.functions, false⟩ s.live.roll
    have hconfig := (Plan.advances o (Evaluation.roll ⟨o, s.context.functions, false⟩
      s.live.roll).run s.context.restart s.live.coordinator).context.1
    exact orderly_goOn (hplan.advance o (c := s.context.restart) hidle hbooks)
      (congrArg Config.routing hconfig) (h.ticketed_append _)

/-- A roll stays in order when the call that waits is polled. -/
theorem Orderly.poll (h : s.Orderly entered given) {a : LiveRoll.Attempt}
    (ha : s.attempt? = some a) :
    (s.step .poll).2.Orderly (entered ++ s.turnsBy .poll) given := by
  obtain ⟨hwaits, hturn⟩ := h.waits a ha
  obtain ⟨o, state⟩ := a
  cases state with
  | finished outcome => cases hwaits
  | waiting id d next =>
    simp only [Lifetime.step, turnsBy, ha, LiveRoll.poll]
    exact orderly_goOn (hturn.poll o) (Suspended.routing_poll o _ _ _) (h.ticketed_append _)

/-- A roll stays in order when the call that waits is given up: the turn that it was in is given
    up with it. -/
theorem Orderly.giveUp (h : s.Orderly entered given) {a : LiveRoll.Attempt}
    (ha : s.attempt? = some a) :
    (s.step .giveUp).2.Orderly entered (given ++ s.droppedBy .giveUp entered) := by
  obtain ⟨hwaits, hturn⟩ := h.waits a ha
  obtain ⟨o, state⟩ := a
  cases state with
  | finished outcome => cases hwaits
  | waiting id d next =>
    obtain ⟨dice, ticket, hlast, hidle, hbooks⟩ := hturn.giveUp rfl
    have hdropped : s.droppedBy .giveUp entered = [⟨dice, some ticket⟩] := by
      simp only [droppedBy, ha, hlast, Option.toList_some]
    have hnumbers : Turn.numbers (given ++ [⟨dice, some ticket⟩]) =
        Turn.numbers given ++ [ticket.number] := Turn.numbers_append _ _
    simp only [Lifetime.step, ha, hdropped]
    refine orderly_of_idle rfl hidle (hnumbers ▸ hbooks) fun turn hmem => ?_
    rcases List.mem_append.mp hmem with hmem | hmem
    · exact h.ticketed turn hmem
    · rw [List.mem_singleton.mp hmem]
      exact ⟨List.mem_of_getLast? hlast, rfl⟩

omit [Roller σ] in
/-- A roll stays in order if its coordinator does for whatever call is under way. -/
theorem Orderly.withCoordinator (h : s.Orderly entered given) {k : Coordinator}
    (hidle : s.live.coordinator.Idle → k.Idle) (htracked : k.tracked = s.live.coordinator.tracked)
    (hturn : ∀ a, s.attempt? = some a →
      a.state.InTurn s.context.config.routing entered (Turn.numbers given) k) :
    ({ s with live := s.live.withCoordinator k } : Lifetime σ).Orderly entered given := by
  refine ⟨fun hnone => ?_, fun a ha => ⟨(h.waits a ha).1, hturn a ha⟩, h.ticketed⟩
  obtain ⟨hidle', hbooks⟩ := h.idle hnone
  exact ⟨hidle hidle', hbooks.congr htracked⟩

/-- A roll stays in order when an actor cancels it. -/
theorem Orderly.cancel (h : s.Orderly entered given) :
    (s.step (.other .cancel)).2.Orderly entered given :=
  h.withCoordinator (fun hidle => hidle.cancel) rfl fun a ha => (h.waits a ha).2.cancel

/-- A roll stays in order when an actor submits a result. -/
theorem Orderly.submit (h : s.Orderly entered given) (method text : String) (value : Int) :
    (s.step (.other (.submit method text value))).2.Orderly entered given := by
  have hturn : ∀ a, s.attempt? = some a →
      a.state.InTurn s.context.config.routing entered (Turn.numbers given)
        (s.live.coordinator.submit method text value).2 := by
    intro a ha
    rcases (h.waits a ha).2.submit method text value with ⟨e, he⟩ | ⟨-, -, hanswered⟩
    · rw [he]
      exact (h.waits a ha).2
    · exact hanswered
  exact h.withCoordinator (fun hidle => hidle.submit method text value)
    (Coordinator.tracked_submit method text value) hturn

/-- A roll stays in order whatever an actor does. -/
theorem Orderly.other (h : s.Orderly entered given) {e : Desk.Event}
    (he : (Move.other e : Move σ).IsActing) :
    (s.step (.other e)).2.Orderly entered given := by
  cases e with
  | submit method text value => exact h.submit method text value
  | cancel => exact h.cancel
  | _ => exact he.elim

/-- A roll stays in order with every move of calls and actors. -/
theorem Orderly.step (h : s.Orderly entered given) {m : Move σ} (hm : m.IsActing) :
    (s.step m).2.Orderly (entered ++ s.turnsBy m) (given ++ s.droppedBy m entered) := by
  cases hattempt : s.attempt? with
  | none =>
    have hdropped : s.droppedBy m entered = [] := by
      cases m <;> simp only [droppedBy, hattempt]
    rw [hdropped, List.append_nil]
    cases m with
    | begin o => exact h.begin hattempt o
    | evaluateNow o =>
      simp only [turnsBy, List.append_nil]
      exact h.evaluateNow hattempt o
    | other e =>
      simp only [turnsBy, List.append_nil]
      exact h.other hm
    | equip context =>
      obtain ⟨hidle, hbooks⟩ := h.idle hattempt
      simp only [turnsBy, List.append_nil, Lifetime.step, hattempt]
      exact orderly_of_idle rfl hidle hbooks h.ticketed
    | poll | giveUp =>
      simp only [turnsBy, List.append_nil, Lifetime.step, hattempt]
      exact h
  | some a =>
    cases m with
    | poll =>
      simp only [droppedBy, List.append_nil]
      exact h.poll hattempt
    | giveUp =>
      simp only [turnsBy, List.append_nil]
      exact h.giveUp hattempt
    | other e =>
      simp only [turnsBy, droppedBy, List.append_nil]
      exact h.other hm
    | begin | evaluateNow | equip =>
      simp only [turnsBy, droppedBy, List.append_nil, Lifetime.step, hattempt]
      exact h

/-- A roll stays in order whatever calls and actors do. -/
theorem Orderly.run (h : s.Orderly entered given) {moves : List (Move σ)}
    (hmoves : ∀ m ∈ moves, m.IsActing) :
    (Lifetime.run moves s).Orderly (entered ++ turns moves s)
      (given ++ dropped moves entered s) := by
  induction moves generalizing s entered given with
  | nil =>
    rw [turns, dropped, List.append_nil, List.append_nil]
    exact h
  | cons m rest ih =>
    have hrest : ∀ m ∈ rest, m.IsActing := fun m hm => hmoves m (List.mem_cons_of_mem _ hm)
    rw [turns, dropped, ← List.append_assoc, ← List.append_assoc]
    exact ih (h.step (hmoves m List.mem_cons_self)) hrest

end Lifetime

end DiceNotation
