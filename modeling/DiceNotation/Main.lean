/-
  DiceNotation.Main

  The command line: reads formulas line by line and shows what they roll.
-/

import DiceNotation.Console.Session

open DiceNotation.Console

/-- Writes text to its stream. -/
def write (output : Output) : IO Unit :=
  match output with
  | .out text => do
    IO.print text
    (← IO.getStdout).flush
  | .err text => IO.eprint text

/-- Reads the lines that are left. -/
partial def converse (input : IO.FS.Stream) (s : Session) : IO Unit := do
  let line ← input.getLine
  if line.isEmpty then s.finish.forM write
  else
    let (outputs, s) := s.readLine line
    outputs.forM write
    converse input s

def main (args : List String) : IO UInt32 := do
  match Invocation.ofArguments args with
  | .help => IO.print helpText; return 0
  | .version => IO.print versionText; return 0
  | .misuse =>
    IO.eprint ("error: the arguments make no sense\n\n" ++
      "For more information, try '--help'.\n")
    return 2
  | .run a =>
    let seed ← match a.seed with
      | some n => pure n
      | none => IO.rand 0 (Nat.pow 2 62)
    let (outputs, s) := Session.start a (mkStdGen seed)
    outputs.forM write
    converse (← IO.getStdin) s
    return 0
