/-
  DiceNotation.Console.Session

  Sessions of the command line.

  At the prompt each line is a formula, and blank lines are passed over. While a
  roll waits for a die that is rolled by hand, a line is the result of that die;
  a line that is none, or a value that the die does not have, is refused and asked
  for again. The end of the input abandons a roll that waits.
-/

import DiceNotation.Console.Arguments
import DiceNotation.Evaluation.Session
import DiceNotation.Report
import DiceNotation.Text.Blank

namespace DiceNotation.Console

/-- Text for one of the two streams. -/
inductive Output where
  | out (text : String)
  | err (text : String)
  deriving DecidableEq, Repr

/-- A roll that waits for a die. -/
structure Waiting where
  attempt : LiveRoll.Attempt
  live : LiveRoll
  request : Request

/-- Where a session stands. -/
structure Session where
  context : Context StdGen
  quiet : Bool
  waiting : Option Waiting := none

namespace Session

-- ============================================================================
-- Texts
-- ============================================================================

/-- The name of the method by which results are typed in. -/
def manualMethod : String := "manual"

/-- The prompt for a formula. -/
def prompt : Output := .out "> "

/-- The prompt for a die. -/
def askFor (r : Request) : Output := .out (r.denomination.text ++ " = ")

/-- An error on a line of its own. -/
def complaint (message : String) : Output := .err ("Error: " ++ message ++ "\n")

-- ============================================================================
-- Rolls
-- ============================================================================

/-- The line that shows a roll that was evaluated. -/
def shown (quiet : Bool) (total : Number) (r : Roll) : Output :=
  if quiet then .out (total.text ++ "\n")
  else match r.breakdown with
    | .ok text => .out (text ++ "\n")
    | .error e => complaint e.message

/-- Goes on with a roll as far as it went: shows its outcome, or asks for the die that it
    waits for. -/
def follow (s : Session) (a : LiveRoll.Attempt) (l : LiveRoll) (c : Context StdGen) :
    List Output × Session :=
  let s := { s with context := c, waiting := none }
  match a.outcome? with
  | some (.ok total) => ([shown s.quiet total l.roll, prompt], s)
  | some (.error e) => ([complaint e.message, prompt], s)
  | none =>
    match l.coordinator.outstanding with
    | request :: _ => ([askFor request], { s with waiting := some ⟨a, l, request⟩ })
    | [] => ([prompt], s)

/-- Rolls a formula. -/
def rollFormula (formula : String) (s : Session) : List Output × Session :=
  match Roll.new formula with
  | .error e => ([complaint e.message, prompt], s)
  | .ok roll =>
    let (a, l, c) := (LiveRoll.mk roll none).begin {} s.context
    s.follow a l c

/-- Takes a line as the result of the die that is waited for. -/
def answer (line : String) (w : Waiting) (s : Session) : List Output × Session :=
  match Text.readInt64 line.toList with
  | .error e => ([complaint e.message, askFor w.request], s)
  | .ok value =>
    let d := w.request.denomination.text
    match w.live.coordinator.submit w.request.method d value with
    | (.error _, _) =>
      ([.err (d ++ " cannot roll " ++ Text.intText value ++ "\n"), askFor w.request], s)
    | (.ok (), k) =>
      let (a, l, c) := (w.live.withCoordinator k).poll w.attempt s.context
      s.follow a l c

-- ============================================================================
-- Sessions
-- ============================================================================

/-- A session at its first prompt. -/
def start (a : Arguments) (g : StdGen) : List Output × Session :=
  let routing := a.manual.foldl (fun r d => r.assign d manualMethod true) Routing.standard
  ([prompt], { context := { config := { routing }, roller := g }, quiet := a.quiet })

/-- Takes a line. -/
def readLine (line : String) (s : Session) : List Output × Session :=
  let line := Text.trimmed line
  match s.waiting with
  | some w => s.answer line w
  | none => if line.isEmpty then ([prompt], s) else s.rollFormula line

/-- Ends a session. -/
def finish (s : Session) : List Output :=
  match s.waiting with
  | none => []
  | some w =>
    let (a, l, c) := (w.live.withCoordinator w.live.coordinator.cancel).poll w.attempt s.context
    (s.follow a l c).1

/-- Everything that a session writes for some lines of input. -/
def run (s : Session) : List String → List Output
  | [] => s.finish
  | line :: rest =>
    let (output, s) := s.readLine line
    output ++ s.run rest

end Session

end DiceNotation.Console
