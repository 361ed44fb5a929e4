/-
  DiceNotation.Proofs.Evaluation.OneByOne

  One die is asked for at a time, and nothing is left behind.

  A call that is polled and stays under way leaves one request, for a die of the term
  that has its turn; the request stays as it is until it is answered or cancelled
  (`Lifetime.AsksOneByOne`). A call that is over leaves no request, and every ticket
  marked (`Lifetime.Closed`).

  A call that is given up while it waits takes its request along, but not its ticket,
  which stays as if a result were awaited (`Lifetime.left_open`).
-/

import DiceNotation.Proofs.Evaluation.Orderly

namespace DiceNotation

variable {σ α : Type} [Roller σ]

/-! ## Requests of plans -/

/-- A request for a die of a dice term that has its turn, by the method of its denomination. -/
structure Turn.Requests (routing : Routing) (turn : Turn) (request : Request) : Prop where
  ticket : ∃ ticket, turn.ticket? = some ticket ∧ request.ticket = ticket.number
  denomination : request.denomination = turn.dice.denomination
  method : routing.externalMethod? turn.dice.denomination = some request.method

/-- The request that a plan waits for is one of the term that has its turn, and there is no
    other. -/
theorem Suspended.InTurn.requests {routing : Routing} {entered : List Turn} {left : List Nat}
    {k : Coordinator} {id : Nat} {d : Denomination} {next : Except RollError Int → Plan α}
    (h : (Suspended.waiting id d next).InTurn routing entered left k) (hne : k.outstanding ≠ []) :
    ∃ turn request, entered.getLast? = some turn ∧ turn.Requests routing request ∧
      k.progress? request.ticket = some .awaitingExternal ∧ k.outstanding = [request] := by
  cases h with
  | waiting dice ticket method came hdice hmethod hbooks hattends hrequests hawaits hnext =>
    subst hdice
    cases hattends with
    | released houtstanding | answered _ houtstanding => exact absurd houtstanding hne
    | asked number houtstanding =>
      obtain rfl : number = ticket.number := by simpa [houtstanding] using hrequests
      exact ⟨⟨dice, some ticket⟩, ⟨id, method, dice.denomination, ticket.number⟩,
        hbooks.last _ rfl, ⟨⟨ticket, rfl, rfl⟩, rfl, hmethod⟩, hawaits, houtstanding⟩

/-- A plan waits only once it left a request. -/
theorem Plan.Advances.outstanding_ne_nil {o : EvaluationOptions} {p : Plan α} {c c' : Context σ}
    {k k' : Coordinator} {log : List Draw} {s : Suspended α} (h : Advances o p c k log s c' k')
    {id : Nat} {d : Denomination} {next : Except RollError Int → Plan α}
    (hs : s = .waiting id d next) : k'.outstanding ≠ [] := by
  induction h with
  | done => cases hs
  | requested ticket method _ _ hc => simp [Coordinator.request, hc]
  | untracked _ ih | tracked _ _ _ _ ih | leave _ ih | tooMany _ _ ih | pinned _ _ _ _ ih
  | rolled _ _ _ ih | refused _ _ _ _ ih => exact ih hs

/-- A plan that still waits after a poll has its request on the table. -/
theorem Suspended.outstanding_poll_ne_nil {o : EvaluationOptions} {s : Suspended α}
    (hs : ∀ value, s ≠ .finished value) (c : Context σ) (k : Coordinator) {id : Nat}
    {d : Denomination} {next : Except RollError Int → Plan α}
    (hpoll : (s.poll o c k).1 = .waiting id d next) : (s.poll o c k).2.2.outstanding ≠ [] := by
  cases s with
  | finished value => exact absurd rfl (hs value)
  | waiting id' d' next' =>
    cases hreply : k.reply id' with
    | pending =>
      simp only [Suspended.poll, Coordinator.collect, hreply]
      intro hnil
      simp only [Coordinator.reply, hnil, List.any_nil] at hreply
      split at hreply <;> cases hreply
    | answered value =>
      simp only [Suspended.poll, Coordinator.collect, hreply] at hpoll ⊢
      exact (Plan.advances o _ c _).outstanding_ne_nil hpoll
    | cancelled =>
      simp only [Suspended.poll, Coordinator.collect, hreply] at hpoll ⊢
      exact (Plan.advances o _ c _).outstanding_ne_nil hpoll

namespace Lifetime

/-! ## Between polls -/

/-- An event takes the request of a call that waits off the table: it is a cancellation, or a
    submission that is accepted. -/
def clears (e : Desk.Event) (s : Lifetime σ) : Bool :=
  match e with
  | .cancel => true
  | .submit method text value =>
    match (s.live.coordinator.submit method text value).1 with
    | .ok () => true
    | .error _ => false
  | _ => false

/-- One of the events in a row takes the request of a call that waits off the table. -/
def cleared : List Desk.Event → Lifetime σ → Bool
  | [], _ => false
  | e :: rest, s => s.clears e || cleared rest (s.step (.other e)).2

/-- A roll in use is as it was: its coordinator, the roll itself, the context, and the call that
    is under way. -/
structure Same (s s' : Lifetime σ) : Prop where
  coordinator : s'.live.coordinator = s.live.coordinator
  roll : s'.live.roll = s.live.roll
  context : s'.context = s.context
  attempt : s'.attempt? = s.attempt?
  waiters : s'.waiters = s.waiters

variable {s : Lifetime σ} {entered given : List Turn}

omit [Roller σ] in
/-- A submission that is refused changes nothing, and one that is accepted clears the table. -/
theorem Orderly.submitted (h : s.Orderly entered given) (method text : String) (value : Int) :
    (∃ e, s.live.coordinator.submit method text value = (.error e, s.live.coordinator)) ∨
      ((s.live.coordinator.submit method text value).1 = .ok () ∧
        (s.live.coordinator.submit method text value).2.outstanding = []) := by
  cases hattempt : s.attempt? with
  | none =>
    have hidle := (h.idle hattempt).1
    exact .inl (Coordinator.submit_of_outstanding_nil hidle.outstanding method text value)
  | some a =>
    rcases (h.waits a hattempt).2.submit method text value with he | ⟨hok, hnil, -⟩
    · exact .inl he
    · exact .inr ⟨hok, hnil⟩

/-- A submission that is refused changes nothing. -/
theorem Orderly.same_of_refused (h : s.Orderly entered given) {method text : String}
    {value : Int} {e : Mismatch}
    (he : (s.live.coordinator.submit method text value).1 = .error e) :
    Same s (s.step (.other (.submit method text value))).2 := by
  rcases h.submitted method text value with ⟨e', he'⟩ | ⟨hok, -⟩
  · refine ⟨?_, rfl, rfl, rfl, rfl⟩
    show (s.live.coordinator.submit method text value).2 = s.live.coordinator
    rw [he']
  · cases hok.symm.trans he

/-- An event leaves the table as it was, unless it clears it. -/
theorem Orderly.outstanding_other (h : s.Orderly entered given) {e : Desk.Event}
    (he : (Move.other e : Move σ).IsActing) :
    (s.step (.other e)).2.live.coordinator.outstanding =
      if s.clears e then [] else s.live.coordinator.outstanding := by
  cases e with
  | cancel => rfl
  | submit method text value =>
    show (s.live.coordinator.submit method text value).2.outstanding = _
    rcases h.submitted method text value with ⟨e', he'⟩ | ⟨hok, hnil⟩
    · simp only [clears, he', Bool.false_eq_true, if_false]
    · simp only [clears, hok, hnil, if_true]
  | _ => exact he.elim

/-- Events leave the table as it was, unless one of them clears it. -/
theorem Orderly.outstanding_others (h : s.Orderly entered given) {events : List Desk.Event}
    (hevents : ∀ e ∈ events, (Move.other e : Move σ).IsActing) :
    (Lifetime.run (events.map .other) s).live.coordinator.outstanding =
      if cleared events s then [] else s.live.coordinator.outstanding := by
  induction events generalizing s entered given with
  | nil => rfl
  | cons e rest ih =>
    have hrest : ∀ e ∈ rest, (Move.other e : Move σ).IsActing := fun e he =>
      hevents e (List.mem_cons_of_mem _ he)
    have hacting := hevents e List.mem_cons_self
    rw [List.map_cons, Lifetime.run, ih (h.step hacting) hrest, h.outstanding_other hacting,
      cleared]
    cases s.clears e <;> simp

/-- Events at the coordinator leave the tickets as they were. -/
theorem tracked_others {events : List Desk.Event}
    (hevents : ∀ e ∈ events, (Move.other e : Move σ).IsActing) (s : Lifetime σ) :
    (run (events.map .other) s).live.coordinator.tracked = s.live.coordinator.tracked := by
  induction events generalizing s with
  | nil => rfl
  | cons e rest ih =>
    have hrest : ∀ e ∈ rest, (Move.other e : Move σ).IsActing := fun e he =>
      hevents e (List.mem_cons_of_mem _ he)
    have hacting := hevents e List.mem_cons_self
    rw [List.map_cons, run, ih hrest]
    cases e with
    | cancel => rfl
    | submit method text value => exact Coordinator.tracked_submit method text value
    | _ => exact hacting.elim

/-! ## Polls -/

/-- A call begins with a move, or the one that is under way is polled. -/
def Polls (m : Move σ) (s : Lifetime σ) : Prop :=
  match m, s.attempt? with
  | .begin _, none | .poll, some _ => True
  | _, _ => False

omit [Roller σ] in
theorem Polls.isActing {m : Move σ} (h : s.Polls m) : m.IsActing := by
  cases m with
  | other e => exact h.elim
  | _ => trivial

omit [Roller σ] in
/-- What stays under way is what was carried on. -/
theorem attempt_goOn {a a' : LiveRoll.Attempt} (h : (goOn a s).2.attempt? = some a') :
    a = a' ∧ (goOn a s).2.live = s.live := by
  obtain ⟨o, state⟩ := a
  cases state with
  | finished outcome => cases h
  | waiting id d next =>
    cases h
    exact ⟨rfl, rfl⟩

section

variable {a : LiveRoll.Attempt} {id : Nat} {d : Denomination}
  {next : Except RollError Int → Plan (Except RollError (Roll × Number))}

/-- A call that begins and stays under way has its request on the table. -/
theorem outstanding_begin_ne_nil (hnone : s.attempt? = none) {o : EvaluationOptions}
    (ha : (s.step (.begin o)).2.attempt? = some a) (hstate : a.state = .waiting id d next) :
    (s.step (.begin o)).2.live.coordinator.outstanding ≠ [] := by
  simp only [Lifetime.step, hnone, LiveRoll.begin] at ha ⊢
  split at ha
  · cases ha
  · next hpending =>
    rw [if_neg hpending]
    obtain ⟨rfl, hlive⟩ := attempt_goOn ha
    rw [hlive, LiveRoll.coordinator_settle]
    exact (Plan.advances o _ _ _).outstanding_ne_nil hstate

/-- A call that is polled and stays under way has its request on the table. -/
theorem outstanding_poll_ne_nil {a' : LiveRoll.Attempt} (hattempt : s.attempt? = some a')
    (hwaits : a'.outcome? = none) (ha : (s.step .poll).2.attempt? = some a)
    (hstate : a.state = .waiting id d next) :
    (s.step .poll).2.live.coordinator.outstanding ≠ [] := by
  obtain ⟨o, state⟩ := a'
  cases state with
  | finished outcome => cases hwaits
  | waiting id' d' next' =>
    simp only [Lifetime.step, hattempt, LiveRoll.poll] at ha ⊢
    obtain ⟨rfl, hlive⟩ := attempt_goOn ha
    rw [hlive, LiveRoll.coordinator_settle]
    exact Suspended.outstanding_poll_ne_nil (fun _ h => by cases h) _ _ hstate

end

/-- A call that is polled and stays under way asks for a die of the term that has its turn, and
    for no other. -/
theorem Orderly.requests (h : s.Orderly entered given) {m : Move σ} (hm : s.Polls m)
    (hunderway : (s.step m).2.attempt?.isSome = true) :
    ∃ turn request, (entered ++ s.turnsBy m).getLast? = some turn ∧
      turn.Requests (s.step m).2.context.config.routing request ∧
      (s.step m).2.live.coordinator.progress? request.ticket = some .awaitingExternal ∧
      (s.step m).2.live.coordinator.outstanding = [request] := by
  obtain ⟨a, ha⟩ := Option.isSome_iff_exists.mp hunderway
  obtain ⟨hwaits, hturn⟩ := (h.step hm.isActing).waits a ha
  cases hstate : a.state with
  | finished outcome => simp [LiveRoll.Attempt.outcome?, hstate] at hwaits
  | waiting id d next =>
    rw [hstate] at hturn
    refine hturn.requests ?_
    cases hattempt : s.attempt? with
    | none =>
      cases m with
      | begin o => exact outstanding_begin_ne_nil hattempt ha hstate
      | _ => simp [Polls, hattempt] at hm
    | some a' =>
      cases m with
      | poll => exact outstanding_poll_ne_nil hattempt (h.waits a' hattempt).1 ha hstate
      | _ => simp [Polls, hattempt] at hm

/-! ## One die at a time -/

/-- A roll in use asks for one die at a time, where `entered` are the turns that began so far. -/
structure AsksOneByOne (entered : List Turn) (s : Lifetime σ) : Prop where
  /-- A call that is polled and stays under way leaves one request for a die of the term that has
      its turn, which waits for a result. Whatever actors do, this request and no other is on
      the table until it is answered or cancelled, and none is from then on. -/
  asks : ∀ m, s.Polls m → (s.step m).2.attempt?.isSome = true →
    ∃ turn request, (entered ++ s.turnsBy m).getLast? = some turn ∧
      turn.Requests (s.step m).2.context.config.routing request ∧
      ∀ events : List Desk.Event, (∀ e ∈ events, (Move.other e : Move σ).IsActing) →
        let later := run (events.map .other) (s.step m).2
        later.live.coordinator.progress? request.ticket = some .awaitingExternal ∧
          later.live.coordinator.outstanding =
            if cleared events (s.step m).2 then [] else [request]
  /-- A submission that is refused changes nothing. -/
  refused : ∀ method text value e,
    (s.live.coordinator.submit method text value).1 = .error e →
      Same s (s.step (.other (.submit method text value))).2
  /-- Where no call is under way, no request is on the table and nobody waits, and every submission
      is refused and changes nothing. -/
  idle : s.attempt? = none → s.live.coordinator.Idle ∧ ∀ method text value,
    (∃ e, (s.live.coordinator.submit method text value).1 = .error e) ∧
      Same s (s.step (.other (.submit method text value))).2

/-- A roll asks for one die at a time and leaves nothing behind, whatever calls are made for it
    and whatever actors submit or cancel meanwhile. -/
theorem asksOneByOne_run (r : Roll) (c : Context σ) (moves : List (Move σ))
    (hmoves : ∀ m ∈ moves, m.IsActing) :
    AsksOneByOne (turns moves (start ⟨r, none⟩ c [])) (run moves (start ⟨r, none⟩ c [])) := by
  have horderly := (orderly_start r c []).run hmoves
  rw [List.nil_append] at horderly
  refine ⟨fun m hm hunderway => ?_, fun _ _ _ _ => horderly.same_of_refused, fun hnone => ?_⟩
  · obtain ⟨turn, request, hlast, hrequests, hawaits, houtstanding⟩ :=
      horderly.requests hm hunderway
    refine ⟨turn, request, hlast, hrequests, fun events hevents => ⟨?_, ?_⟩⟩
    · rw [Coordinator.progress?_congr (tracked_others hevents _), hawaits]
    · rw [(horderly.step hm.isActing).outstanding_others hevents, houtstanding]
  · have hidle := (horderly.idle hnone).1
    refine ⟨hidle, fun method text value => ?_⟩
    obtain ⟨e, he⟩ := Coordinator.submit_of_outstanding_nil hidle.outstanding method text value
    have hrefused := congrArg Prod.fst he
    exact ⟨⟨e, hrefused⟩, horderly.same_of_refused hrefused⟩

/-- A roll of `2d6` with dice of a table: after a value for another denomination and one for
    the first die, the second die is asked for. -/
theorem asksOneByOne_run_table :
    let r : Roll := .ofTerms [.dice ⟨2, .die 6, [], [], {}, false⟩]
    let c : Context ScriptedRoller :=
      { config := { routing := Routing.standard.assign (.die 6) "table" true }, roller := ⟨[]⟩ }
    let moves : List (Move ScriptedRoller) := [.begin {}, .other (.submit "table" "d8" 5),
      .other (.submit "table" "d6" 4), .poll]
    (∀ m ∈ moves, m.IsActing) ∧
      (run moves (start ⟨r, none⟩ c [])).live.coordinator.outstanding =
        [⟨1, "table", .die 6, 0⟩] ∧
      AsksOneByOne (turns moves (start ⟨r, none⟩ c [])) (run moves (start ⟨r, none⟩ c [])) := by
  intro r c moves
  have hmoves : ∀ m ∈ moves, m.IsActing := by simp [moves, Move.IsActing]
  exact ⟨hmoves, by decide +kernel, asksOneByOne_run r c moves hmoves⟩

/-! ## Tickets -/

/-- What a roll in use leaves where no call is under way, where `entered` are the turns that began
    so far and `given` those that were given up. -/
structure Closed (entered given : List Turn) (s : Lifetime σ) : Prop where
  /-- Every ticket is that of a turn. -/
  numbers : Turn.numbers entered = List.range s.live.coordinator.tracked.length
  /-- A turn that was not given up leaves its ticket marked. -/
  done : ∀ turn ∈ entered, ∀ ticket, turn.ticket? = some ticket →
    ticket.number ∉ Turn.numbers given →
      ∃ p, s.live.coordinator.progress? ticket.number = some p ∧ p.isDone = true
  /-- A turn that was given up leaves its ticket as if a result were awaited. -/
  left : ∀ turn ∈ given, turn ∈ entered ∧ ∃ ticket, turn.ticket? = some ticket ∧
    s.live.coordinator.progress? ticket.number = some .awaitingExternal
  complete_iff : s.live.coordinator.isComplete = true ↔ given = []

omit [Roller σ] in
/-- Where no call is under way, the tickets of all turns are marked but for those that were
    given up. -/
theorem Orderly.closed (h : s.Orderly entered given) (hnone : s.attempt? = none) :
    Closed entered given s := by
  obtain ⟨-, hbooks⟩ := h.idle hnone
  have hdue : ∀ n, s.live.coordinator.Due n ↔ n ∈ Turn.numbers given := fun n => by
    simp [hbooks.due_iff, Turn.numberOf, Turn.ticketOf]
  have hmem : ∀ turn ∈ given, ∃ ticket, turn.ticket? = some ticket ∧
      ticket.number ∈ Turn.numbers given := by
    intro turn hturn
    obtain ⟨ticket, hticket⟩ := Option.isSome_iff_exists.mp (h.ticketed turn hturn).2
    exact ⟨ticket, hticket, Turn.mem_numbers hturn hticket⟩
  refine ⟨hbooks.numbers, fun turn hturn ticket hticket hnot => ?_, fun turn hturn => ?_, ?_⟩
  · have hlt : ticket.number < s.live.coordinator.tracked.length := by
      rw [← List.mem_range, ← hbooks.numbers]
      exact Turn.mem_numbers hturn hticket
    exact (Coordinator.not_due_iff hlt).mp fun hdue' => hnot ((hdue _).mp hdue')
  · obtain ⟨ticket, hticket, hnumber⟩ := hmem turn hturn
    exact ⟨(h.ticketed turn hturn).1, ticket, hticket, hbooks.awaits _ hnumber⟩
  · rw [Coordinator.isComplete_iff]
    constructor
    · intro hnot
      refine List.eq_nil_iff_forall_not_mem.mpr fun turn hturn => ?_
      obtain ⟨ticket, -, hnumber⟩ := hmem turn hturn
      exact hnot _ ((hdue _).mpr hnumber)
    · rintro rfl n hn
      cases (hdue n).mp hn

/-- Once a call is over, whether it succeeds or fails, the tickets of all its turns are marked,
    whatever calls were made before and whatever actors submitted or cancelled; only a call that
    is given up while it waits leaves the ticket of its turn open. -/
theorem closed_run (r : Roll) (c : Context σ) (moves : List (Move σ))
    (hmoves : ∀ m ∈ moves, m.IsActing)
    (hnone : (run moves (start ⟨r, none⟩ c [])).attempt? = none) :
    Closed (turns moves (start ⟨r, none⟩ c [])) (dropped moves [] (start ⟨r, none⟩ c []))
      (run moves (start ⟨r, none⟩ c [])) := by
  have horderly := (orderly_start r c []).run hmoves
  rw [List.nil_append, List.nil_append] at horderly
  exact horderly.closed hnone

/-- A call for `1d6` that is given up and one that succeeds: the ticket of the first stays
    open. -/
theorem closed_run_table :
    let r : Roll := .ofTerms [.dice ⟨1, .die 6, [], [], {}, false⟩]
    let c : Context ScriptedRoller :=
      { config := { routing := Routing.standard.assign (.die 6) "table" true }, roller := ⟨[]⟩ }
    let moves : List (Move ScriptedRoller) := [.begin {}, .giveUp, .begin {},
      .other (.submit "table" "d6" 4), .poll]
    (∀ m ∈ moves, m.IsActing) ∧ (run moves (start ⟨r, none⟩ c [])).attempt? = none ∧
      Turn.numbers (turns moves (start ⟨r, none⟩ c [])) = [0, 1] ∧
      Turn.numbers (dropped moves [] (start ⟨r, none⟩ c [])) = [0] ∧
      Closed (turns moves (start ⟨r, none⟩ c [])) (dropped moves [] (start ⟨r, none⟩ c []))
        (run moves (start ⟨r, none⟩ c [])) := by
  intro r c moves
  have hmoves : ∀ m ∈ moves, m.IsActing := by simp [moves, Move.IsActing]
  have hnone : (run moves (start ⟨r, none⟩ c [])).attempt? = none :=
    Option.isNone_iff_eq_none.mp (by decide +kernel)
  exact ⟨hmoves, hnone, by decide +kernel, by decide +kernel, closed_run r c moves hmoves hnone⟩

/-- A call for `1d6` that is given up while it waits is over, and its request is gone, but its
    ticket still waits for a result and the coordinator is not complete. -/
theorem left_open :
    let r : Roll := .ofTerms [.dice ⟨1, .die 6, [], [], {}, false⟩]
    let c : Context ScriptedRoller :=
      { config := { routing := Routing.standard.assign (.die 6) "table" true }, roller := ⟨[]⟩ }
    let s := run [.begin {}, .giveUp] (start ⟨r, none⟩ c [])
    s.attempt? = none ∧ s.live.coordinator.outstanding = [] ∧
      s.live.coordinator.progress? 0 = some .awaitingExternal ∧
      s.live.coordinator.isComplete = false :=
  ⟨Option.isNone_iff_eq_none.mp (by decide +kernel), by decide +kernel, by decide +kernel,
    by decide +kernel⟩

end Lifetime

end DiceNotation
