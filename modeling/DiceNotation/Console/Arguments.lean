/-
  DiceNotation.Console.Arguments

  Arguments of the command line.

  Arguments are read from left to right. The value of an option is the next
  argument, unless that begins with a hyphen, or stands behind an equals sign.
  Short options may share a hyphen. `--manual` may be given several times, the
  others once. A request for help or the version ends the reading.
-/

import DiceNotation.Denomination

namespace DiceNotation.Console

/-- How the command line is to run. -/
structure Arguments where
  /-- Denominations whose results are typed in. -/
  manual : List Denomination := []
  seed : Option Nat := none
  /-- Whether only totals are shown. -/
  quiet : Bool := false
  deriving DecidableEq, Repr

/-- What the arguments ask for. -/
inductive Invocation where
  | run (arguments : Arguments)
  | help
  | version
  /-- The arguments make no sense. -/
  | misuse
  deriving DecidableEq, Repr

namespace Arguments

/-- Sets an option that has a value, or fails. -/
def set? (name : String) (value : List Char) (a : Arguments) : Option Arguments :=
  if name = "manual" then do
    let d ← Denomination.ofChars? value
    return { a with manual := a.manual ++ [d] }
  else if name = "seed" then
    match a.seed, Text.nat64? value with
    | none, some n => some { a with seed := some n }
    | _, _ => none
  else none

/-- Whether an option has a value. -/
def takesValue (name : String) : Bool := name == "manual" || name == "seed"

/-- Reads options that share a hyphen. -/
def shorts (a : Arguments) : List Char → Except Invocation Arguments
  | [] => .ok a
  | 'q' :: rest => if a.quiet then .error .misuse else shorts { a with quiet := true } rest
  | 'h' :: _ => .error .help
  | 'V' :: _ => .error .version
  | _ => .error .misuse

/-- Reads a long option that has no value. -/
def flag (name : String) (a : Arguments) : Except Invocation Arguments :=
  if name = "quiet" then
    if a.quiet then .error .misuse else .ok { a with quiet := true }
  else if name = "help" then .error .help
  else if name = "version" then .error .version
  else .error .misuse

/-- The outcome of setting an option. -/
def orMisuse : Option Arguments → Except Invocation Arguments
  | some a => .ok a
  | none => .error .misuse

/-- Reads arguments after those that were read already. -/
def read (a : Arguments) : List (List Char) → Except Invocation Arguments
  | [] => .ok a
  | ['-', '-'] :: rest => if rest.isEmpty then .ok a else .error .misuse
  | ('-' :: '-' :: long) :: rest =>
    let name := String.ofList (long.takeWhile (· != '='))
    match long.dropWhile (· != '=') with
    | _ :: value => do
      let a ← orMisuse (a.set? name value)
      read a rest
    | [] =>
      if takesValue name then
        match rest with
        | [] | ('-' :: _) :: _ => .error .misuse
        | value :: rest => do
          let a ← orMisuse (a.set? name value)
          read a rest
      else do
        let a ← flag name a
        read a rest
  | ['-'] :: _ => .error .misuse
  | ('-' :: short) :: rest => do
    let a ← shorts a short
    read a rest
  | _ => .error .misuse

end Arguments

/-- What arguments ask for. -/
def Invocation.ofArguments (arguments : List String) : Invocation :=
  match Arguments.read {} (arguments.map String.toList) with
  | .ok a => .run a
  | .error invocation => invocation

/-- The text that explains the arguments. -/
def helpText : String :=
  "Roll dice formulas interactively\n\n" ++
  "Usage: repl [OPTIONS]\n\n" ++
  "Options:\n" ++
  "      --manual <MANUAL>  Denominations whose results are typed in by hand, e.g. " ++
  "\x60--manual d20\x60\n" ++
  "      --seed <SEED>      Seed for the random number generator\n" ++
  "  -q, --quiet            Show only the total instead of the breakdown\n" ++
  "  -h, --help             Print help\n" ++
  "  -V, --version          Print version\n"

/-- The name and version of the program. -/
def versionText : String := "dice-formula 0.1.0\n"

end DiceNotation.Console
