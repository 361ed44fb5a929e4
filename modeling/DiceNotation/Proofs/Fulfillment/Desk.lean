/-
  DiceNotation.Proofs.Fulfillment.Desk

  A coordinator with everybody who waits at it, and what may happen there in any
  order.

  `Desk.Delivers` says what a desk promises after a history of events: requests
  are answered in the order in which they were left, each of them once, and each
  waiter learns of its own answer or of a cancellation that came before it.
-/

import DiceNotation.Proofs.Fulfillment.Consistency

namespace DiceNotation

/-! ## Desks -/

/-- A coordinator and those who wait at it, in the order in which they came. -/
structure Desk where
  coordinator : Coordinator := {}
  waiters : List Waiter := []

namespace Desk

/-- What may happen at a desk. Waiters are counted from zero. -/
inductive Event where
  | track (external : Bool)
  | finish (ticket : Nat)
  /-- Someone comes to ask for a die. -/
  | ask (method : String) (denomination : Denomination) (ticket : Nat)
  /-- Someone comes to watch for requests. -/
  | watch
  | poll (waiter : Nat)
  /-- A waiter is sent away. -/
  | leave (waiter : Nat)
  | submit (method denomination : String) (value : Int)
  | cancel
  deriving DecidableEq, Repr

/-- A waiter; those who never came are gone. -/
def waiter (i : Nat) (d : Desk) : Waiter := d.waiters[i]?.getD .gone

/-- A desk after an event. -/
def step (e : Event) (d : Desk) : Desk :=
  match e with
  | .track external => { d with coordinator := (d.coordinator.track external).2 }
  | .finish ticket => { d with coordinator := d.coordinator.finish ticket }
  | .ask method denomination ticket =>
    { d with waiters := d.waiters ++ [.asking method denomination ticket] }
  | .watch => { d with waiters := d.waiters ++ [.watching] }
  | .poll i =>
    let (_, w, k) := (d.waiter i).poll d.coordinator
    ⟨k, d.waiters.set i w⟩
  | .leave i => ⟨(d.waiter i).leave d.coordinator, d.waiters.set i .gone⟩
  | .submit method denomination value =>
    { d with coordinator := (d.coordinator.submit method denomination value).2 }
  | .cancel => { d with coordinator := d.coordinator.cancel }

/-- A desk after events in a row. -/
def run : List Event → Desk → Desk
  | [], d => d
  | e :: rest, d => run rest (d.step e)

/-- What a waiter would find if it were polled now. -/
def finding (i : Nat) (d : Desk) : Waiter.Finding := ((d.waiter i).poll d.coordinator).1

/-- Whether a waiter asks for a die and has no outcome yet. -/
def Asks (i : Nat) (d : Desk) : Prop :=
  (∃ method denomination ticket, d.waiter i = .asking method denomination ticket) ∨
    ∃ id, d.waiter i = .waiting id

/-! ## Histories -/

/-- The ids of the requests that an event puts on the table. -/
def issuedBy (e : Event) (d : Desk) : List Nat :=
  ((d.step e).coordinator.outstanding.filter fun r => !d.coordinator.outstanding.contains r).map
    (·.id)

/-- The ids of the requests that come on the table in a run, in order. -/
def issued : List Event → Desk → List Nat
  | [], _ => []
  | e :: rest, d => d.issuedBy e ++ issued rest (d.step e)

/-- The value that an event brings a waiter: that of an accepted submission whose oldest
    request the waiter left. -/
def acceptedBy (i : Nat) (e : Event) (d : Desk) : List Int :=
  match e with
  | .submit method denomination value =>
    match (d.coordinator.submit method denomination value).1,
        d.coordinator.oldest? method denomination with
    | .ok (), some r => if d.waiter i = .waiting r.id then [value] else []
    | _, _ => []
  | _ => []

/-- The values that a run brings a waiter, in order. -/
def accepted (i : Nat) : List Event → Desk → List Int
  | [], _ => []
  | e :: rest, d => d.acceptedBy i e ++ accepted i rest (d.step e)

/-- A waiter is left alone by events: it is neither polled nor sent away. -/
def LeftAlone (i : Nat) (events : List Event) : Prop :=
  ∀ e ∈ events, e ≠ .poll i ∧ e ≠ .leave i

/-! ## What is promised -/

/-- What happens when a submission is accepted: the oldest request that it may answer, and
    no other, leaves the table, and the one waiter that left it finds the value at its next
    poll, whatever happens before. -/
def Answers (method denomination : String) (value : Int) (d : Desk) : Prop :=
  let answered := d.step (.submit method denomination value)
  ∃ before r after i,
    d.coordinator.outstanding = before ++ r :: after ∧
    r.method = method ∧ Denomination.ofChars? denomination.toList = some r.denomination ∧
    (∀ q ∈ before, ¬ (q.method = r.method ∧ q.denomination = r.denomination)) ∧
    answered.coordinator.outstanding = before ++ after ∧
    d.waiter i = .waiting r.id ∧
    (∀ later, LeftAlone i later → (run later answered).finding i = .value value) ∧
    ∀ j, j ≠ i → d.Asks j → answered.finding j = d.finding j

/-- What a desk promises after a history of events. -/
structure Delivers (history : List Event) (d : Desk) : Prop where
  /-- Ids only grow, so that none is given out again. -/
  issued_increasing : (issued history {}).Pairwise (· < ·)
  /-- The table is in the order of the ids. -/
  outstanding_increasing : d.coordinator.outstanding.Pairwise fun a b => a.id < b.id
  /-- The table lists ids that were given out. -/
  outstanding_issued : ∀ r ∈ d.coordinator.outstanding, r.id ∈ issued history {}
  /-- The table lists the requests whose waiters are still there and were neither answered
      nor released. -/
  outstanding_iff : ∀ id, (∃ r ∈ d.coordinator.outstanding, r.id = id) ↔
    ∃ i, d.waiter i = .waiting id ∧ accepted i history {} = [] ∧ .cancel ∉ history
  /-- A request belongs to one waiter. -/
  waiting_unique : ∀ i j id, d.waiter i = .waiting id → d.waiter j = .waiting id → i = j
  /-- At its first poll a waiter leaves its request at the end of the table. -/
  first_poll : ∀ i method denomination ticket,
    d.waiter i = .asking method denomination ticket → .cancel ∉ history →
      ∃ id, (d.step (.poll i)).waiter i = .waiting id ∧
        (d.step (.poll i)).coordinator.outstanding =
          d.coordinator.outstanding ++ [⟨id, method, denomination, ticket⟩]
  /-- A waiter gets one value at most. -/
  accepted_once : ∀ i, (accepted i history {}).length ≤ 1
  /-- A waiter finds the value that was accepted for it, or a cancellation that came
      before any value, and is gone once it found either. -/
  finding_eq : ∀ i, d.Asks i →
    d.finding i = (match accepted i history {} with
      | value :: _ => .value value
      | [] => if .cancel ∈ history then .cancelled else .pending) ∧
    (d.finding i ≠ .pending → (d.step (.poll i)).waiter i = .gone)
  /-- When a submission is accepted. -/
  submit_ok_iff : ∀ method denomination value,
    (d.coordinator.submit method denomination value).1 = .ok () ↔
      .cancel ∉ history ∧ ∃ die, Denomination.ofChars? denomination.toList = some die ∧
        (∃ r ∈ d.coordinator.outstanding, r.method = method ∧ r.denomination = die) ∧
        die.canShow value = true
  /-- What an accepted submission does. -/
  submit_answers : ∀ method denomination value,
    (d.coordinator.submit method denomination value).1 = .ok () →
      d.Answers method denomination value
  /-- A refused submission changes nothing. -/
  submit_refused : ∀ method denomination value,
    (d.coordinator.submit method denomination value).1 ≠ .ok () →
      d.step (.submit method denomination value) = d
  /-- Nobody on the table has stopped listening, so that no accepted value is lost. -/
  listening : ∀ r ∈ d.coordinator.outstanding, r.id ∈ d.coordinator.listening
  /-- Only after a cancellation a submission is refused for one. -/
  submit_cancelled : ∀ method denomination value,
    (d.coordinator.submit method denomination value).1 = .error .cancelled → .cancel ∈ history
  /-- A waiter that is sent away takes its own request along and no other. -/
  leave_removes : ∀ i,
    (d.step (.leave i)).coordinator.outstanding =
        d.coordinator.outstanding.filter (fun r => d.waiter i ≠ .waiting r.id) ∧
      ∀ j, j ≠ i → d.Asks j →
        (d.step (.leave i)).waiter j = d.waiter j ∧
          (d.step (.leave i)).finding j = d.finding j

end Desk

end DiceNotation
