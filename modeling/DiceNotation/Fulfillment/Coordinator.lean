/-
  DiceNotation.Fulfillment.Coordinator

  Results that come from outside.

  Every roll has a coordinator of its own. Dice whose results are to come from
  outside leave a request there, one for each die, and an actor submits results.
  A result goes to the oldest request of its method and denomination, which then
  leaves the table; the result is kept until the one who asked for it takes it.
  Whoever leaves a request listens for its answer until it has one or is given up;
  a result that nobody listens for is lost.
  Each dice term has a ticket, which tells how far its dice are.
  An actor that watches for requests is told to look again when a request was left
  or answered, when a ticket is done and on a cancellation, but not when a request is
  given up.

  A coordinator that was cancelled takes neither requests nor results.
-/

import DiceNotation.Denomination

namespace DiceNotation

-- ============================================================================
-- Requests and tickets
-- ============================================================================

/-- A die that waits for a result. -/
structure Request where
  id : Nat
  method : String
  denomination : Denomination
  /-- The ticket of the dice term that the die belongs to. -/
  ticket : Nat
  deriving DecidableEq, Repr

/-- How far the dice of a ticket are. -/
inductive Progress where
  | unfulfilled
  | awaitingExternal
  | fulfilled
  | internallyRolled
  deriving DecidableEq, Repr

namespace Progress

/-- Whether no more dice are due. -/
def isDone : Progress → Bool
  | fulfilled | internallyRolled => true
  | unfulfilled | awaitingExternal => false

end Progress

/-- The entry of a ticket. -/
structure Tracked where
  /-- Whether the results come from outside. -/
  external : Bool
  progress : Progress
  deriving DecidableEq, Repr

/-- Why a submitted result is not taken. -/
inductive Mismatch where
  | noRequest (method : String) (denomination : Denomination)
  | outOfRange (denomination : Denomination) (value : Int)
  | unknownDenomination (text : String)
  | cancelled
  deriving DecidableEq, Repr

/-- The wording of a mismatch. -/
def Mismatch.message : Mismatch → String
  | noRequest method d => "no outstanding " ++ Text.quoted method ++ " request for " ++ d.text
  | outOfRange d value => Text.intText value ++ " is not a possible result of " ++ d.text
  | unknownDenomination text => Text.quoted text ++ " is not a known denomination"
  | cancelled => "the roll was abandoned"

-- ============================================================================
-- The table
-- ============================================================================

/-- The table of a roll. -/
structure Coordinator where
  /-- The id of the next request. Each request adds one, so that a counter of 64 bits would not
      run out (`Desk.nextId_run_le`). -/
  nextId : Nat := 0
  /-- The requests that wait for a result, oldest first. -/
  outstanding : List Request := []
  /-- The entries of the tickets, which are counted from zero. -/
  tracked : List Tracked := []
  cancelled : Bool := false
  /-- The ids of the requests whose answers are listened for. -/
  listening : List Nat := []
  /-- Results that were accepted and not taken yet, by the ids of their requests. -/
  delivered : List (Nat × Int) := []
  /-- How often those who watch for requests were told to look again. -/
  signals : Nat := 0
  deriving DecidableEq, Repr

namespace Coordinator

/-- Whether no ticket has dice due. -/
def isComplete (c : Coordinator) : Bool := c.tracked.all (·.progress.isDone)

/-- How far the dice of a ticket are. -/
def progress? (c : Coordinator) (ticket : Nat) : Option Progress :=
  c.tracked[ticket]?.map (·.progress)

/-- A coordinator as a text with the sizes of its tables. -/
def summary (c : Coordinator) : String :=
  "FulfillmentCoordinator \x7b pending: " ++ Text.natText c.outstanding.length ++
    ", tracked: " ++ Text.natText c.tracked.length ++
    ", cancelled: " ++ (if c.cancelled then "true" else "false") ++ " \x7d"

-- ============================================================================
-- Tickets
-- ============================================================================

/-- Gives out a ticket. -/
def track (external : Bool) (c : Coordinator) : Nat × Coordinator :=
  (c.tracked.length, { c with tracked := c.tracked ++ [⟨external, .unfulfilled⟩] })

/-- Marks a ticket whose dice are all drawn. -/
def finish (ticket : Nat) (c : Coordinator) : Coordinator :=
  { c with
    tracked := c.tracked.modify ticket fun t =>
      { t with progress := if t.external then .fulfilled else .internallyRolled }
    signals := c.signals + 1 }

-- ============================================================================
-- Requests
-- ============================================================================

/-- Leaves a request and gives its id; there is none once the coordinator was cancelled. -/
def request (method : String) (d : Denomination) (ticket : Nat) (c : Coordinator) :
    Option Nat × Coordinator :=
  if c.cancelled then (none, c)
  else
    (some c.nextId,
      { c with
        nextId := c.nextId + 1
        outstanding := c.outstanding ++ [⟨c.nextId, method, d, ticket⟩]
        listening := c.listening ++ [c.nextId]
        tracked := c.tracked.modify ticket fun t => { t with progress := .awaitingExternal }
        signals := c.signals + 1 })

/-- What the one who left a request finds. -/
inductive Reply where
  | pending
  | answered (value : Int)
  | cancelled
  deriving DecidableEq, Repr

/-- Gives up a request, with its answer if there is one already. -/
def withdraw (id : Nat) (c : Coordinator) : Coordinator :=
  { c with
    outstanding := c.outstanding.filter fun r => r.id != id
    listening := c.listening.filter fun i => i != id
    delivered := c.delivered.filter fun (i, _) => i != id }

/-- Looks for the answer of a request. A request that is neither answered nor outstanding
    was cancelled. -/
def reply (id : Nat) (c : Coordinator) : Reply :=
  match c.delivered.lookup id with
  | some value => .answered value
  | none => if c.outstanding.any (·.id == id) then .pending else .cancelled

/-- Looks for the answer of a request, which is over once there is one. -/
def collect (id : Nat) (c : Coordinator) : Reply × Coordinator :=
  match c.reply id with
  | .pending => (.pending, c)
  | reply => (reply, c.withdraw id)

-- ============================================================================
-- Results
-- ============================================================================

/-- Whether a request is one of a method and denomination. -/
def asksFor (method : String) (d : Denomination) (r : Request) : Bool :=
  r.method == method && r.denomination == d

/-- Passes a result on to whoever listens for the answer of a request. -/
def deliver (id : Nat) (value : Int) (c : Coordinator) : Except Mismatch Unit × Coordinator :=
  if c.listening.contains id then
    (.ok (), { c with delivered := c.delivered ++ [(id, value)], signals := c.signals + 1 })
  else (.error .cancelled, c)

/-- Submits a result for the denomination that a text names. -/
def submit (method denomination : String) (value : Int) (c : Coordinator) :
    Except Mismatch Unit × Coordinator :=
  match Denomination.ofChars? denomination.toList with
  | none => (.error (.unknownDenomination denomination), c)
  | some d =>
    if c.cancelled then (.error .cancelled, c)
    else match c.outstanding.find? (asksFor method d) with
      | none => (.error (.noRequest method d), c)
      | some r =>
        if d.canShow value then
          deliver r.id value { c with outstanding := c.outstanding.eraseP (asksFor method d) }
        else (.error (.outOfRange d value), c)

/-- Abandons all requests, and those to come. -/
def cancel (c : Coordinator) : Coordinator :=
  { c with outstanding := [], cancelled := true, signals := c.signals + 1 }

end Coordinator

end DiceNotation
