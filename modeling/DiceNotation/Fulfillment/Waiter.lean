/-
  DiceNotation.Fulfillment.Waiter

  Those who wait at a coordinator.

  A waiter acts only when it is polled. One that asks for a result leaves its
  request at the first poll and then waits for the answer; one that watches waits
  for any request to be outstanding. When it found none, it does not look again
  before the next signal. A waiter that has its outcome is gone.
-/

import DiceNotation.Fulfillment.Coordinator

namespace DiceNotation

/-- Someone who waits at a coordinator. -/
inductive Waiter where
  /-- Has a request to leave. -/
  | asking (method : String) (denomination : Denomination) (ticket : Nat)
  /-- Left a request. -/
  | waiting (id : Nat)
  /-- Has yet to look for the next request. -/
  | watching
  /-- Found no request when there had been so many signals, and rests until there are more. -/
  | resting (since : Nat)
  | gone
  deriving DecidableEq, Repr

namespace Waiter

/-- What a waiter finds when it is polled. -/
inductive Finding where
  | pending
  | value (value : Int)
  /-- The request was cancelled. -/
  | cancelled
  /-- The oldest request, or none when there will be no more. -/
  | next (request : Option Request)
  /-- The waiter had its outcome before. -/
  | gone
  deriving DecidableEq, Repr

/-- Looks for the answer of a request that was left. -/
def pollRequest (id : Nat) (c : Coordinator) : Finding × Waiter × Coordinator :=
  match c.collect id with
  | (.pending, c) => (.pending, waiting id, c)
  | (.answered v, c) => (.value v, gone, c)
  | (.cancelled, c) => (.cancelled, gone, c)

/-- Looks for the oldest request, and rests until the next signal where there is none. -/
def look (c : Coordinator) : Finding × Waiter × Coordinator :=
  match c.outstanding with
  | r :: _ => (.next (some r), gone, c)
  | [] => if c.cancelled then (.next none, gone, c) else (.pending, resting c.signals, c)

/-- Polls a waiter. -/
def poll (c : Coordinator) : Waiter → Finding × Waiter × Coordinator
  | asking method d ticket =>
    match c.request method d ticket with
    | (none, c) => (.cancelled, gone, c)
    | (some id, c) => pollRequest id c
  | waiting id => pollRequest id c
  | watching => look c
  | resting since => if c.signals == since then (.pending, resting since, c) else look c
  | gone => (.gone, gone, c)

/-- Sends a waiter away. -/
def leave (c : Coordinator) : Waiter → Coordinator
  | waiting id => c.withdraw id
  | _ => c

end Waiter

end DiceNotation
