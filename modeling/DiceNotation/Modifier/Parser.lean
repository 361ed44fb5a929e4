/-
  DiceNotation.Modifier.Parser

  Reading modifiers.

  A suffix such as `kh1rr<2` is split before each letter that follows something
  else; each chunk is a command of ASCII letters, in either case, and an
  argument. The argument is a comparison, if there is one, and a number. When a
  suffix is refused the first chunk that is no modifier is given, or the whole
  suffix if it does not begin with a letter.
-/

import DiceNotation.Modifier.Basic

namespace DiceNotation.Modifier

-- ============================================================================
-- Splitting a suffix
-- ============================================================================

/-- The letters at the head of a suffix, the rest of its first chunk, and what follows. -/
def splitChunk (cs : List Char) : List Char × List Char × List Char :=
  let letters := cs.takeWhile Char.isAlpha
  let rest := cs.dropWhile Char.isAlpha
  (letters, rest.takeWhile (!Char.isAlpha ·), rest.dropWhile (!Char.isAlpha ·))

/-- The chunks of a suffix that begins with a letter; `fuel` bounds their number. -/
def chunksFrom : Nat → List Char → List (List Char)
  | 0, _ => []
  | fuel + 1, cs =>
    if cs.isEmpty then []
    else
      let (letters, argument, rest) := splitChunk cs
      (letters ++ argument) :: chunksFrom fuel rest

/-- The chunks of a suffix. -/
def chunks (cs : List Char) : Except (List Char) (List (List Char)) :=
  match cs with
  | [] => .ok []
  | c :: _ => if c.isAlpha then .ok (chunksFrom cs.length cs) else .error cs

-- ============================================================================
-- Arguments
-- ============================================================================

/-- The argument of a command: a comparison and a number, both optional. -/
structure Argument where
  comparison : Option Comparison
  target : Option Int
  deriving DecidableEq, Repr

namespace Argument

/-- Reads an argument: what stands before the first digit is the comparison. -/
def ofChars? (cs : List Char) : Option Argument :=
  let sign := cs.takeWhile (!Char.isDigit ·)
  let digits := cs.dropWhile (!Char.isDigit ·)
  match (if sign.isEmpty then some none else (Comparison.ofChars? sign).map some),
      (if digits.isEmpty then some none else (Text.int64? digits).map some) with
  | some comparison, some target => some ⟨comparison, target⟩
  | _, _ => none

/-- The condition that an argument states, if any; a comparison alone states none. -/
def condition? : Argument → Option (Option Condition)
  | ⟨comparison, some target⟩ => some (some ⟨comparison.getD .equal, target⟩)
  | ⟨none, none⟩ => some none
  | ⟨some _, none⟩ => none

/-- The number of dice that an argument gives; one without an argument. -/
def count? : Argument → Option Nat
  | ⟨none, none⟩ => some 1
  | ⟨none, some target⟩ => some target.toNat
  | _ => none

/-- The number that an argument has to give. -/
def number? : Argument → Option Int
  | ⟨none, some target⟩ => some target
  | _ => none

/-- The value of a coin that an argument calls; heads without an argument. -/
def called? : Argument → Option Int
  | ⟨none, none⟩ => some 1
  | ⟨none, some target⟩ => if target == 0 || target == 1 then some target else none
  | _ => none

end Argument

-- ============================================================================
-- Modifiers
-- ============================================================================

/-- The effect of a command in lower case with its argument, where `condition` is the
    condition that the argument states. -/
def Effect.ofCommand? (command : String) (argument : Argument) (condition : Option Condition) :
    Option Effect :=
  match command with
  | "r" => some (.reroll false condition)
  | "rr" => some (.reroll true condition)
  | "x" => some (.explode true condition)
  | "xo" => some (.explode false condition)
  | "k" | "kh" => argument.count?.map (.keepDrop true true)
  | "kl" => argument.count?.map (.keepDrop true false)
  | "d" | "dl" => argument.count?.map (.keepDrop false false)
  | "dh" => argument.count?.map (.keepDrop false true)
  | "min" => argument.number?.map .minimum
  | "max" => argument.number?.map .maximum
  | "cs" => some (.countSuccess condition)
  | "cf" => some (.countFailures condition)
  | "df" => some (.deductFailures condition)
  | "sf" => some (.subtractFailures condition)
  | "ms" => condition.map .marginSuccess
  | "even" => if condition.isNone then some .countEven else none
  | "odd" => if condition.isNone then some .countOdd else none
  | "c" => argument.called?.map .call
  | _ => none

/-- The command of a chunk in lower case. -/
def commandOf (chunk : List Char) : String :=
  String.ofList ((chunk.takeWhile Char.isAlpha).map Char.toLower)

/-- The argument of a chunk. -/
def argumentOf (chunk : List Char) : List Char := chunk.dropWhile Char.isAlpha

/-- The modifier that a chunk states, if the family takes it. -/
def ofChars? (family : Family) (chunk : List Char) : Option Modifier := do
  if family.allows (commandOf chunk) then
    let argument ← Argument.ofChars? (argumentOf chunk)
    let condition ← argument.condition?
    let effect ← Effect.ofCommand? (commandOf chunk) argument condition
    return ⟨String.ofList chunk, effect⟩
  else none

/-- The modifier that a text states, if the family takes it. -/
def ofText? (family : Family) (s : String) : Option Modifier := ofChars? family s.toList

/-- The modifiers that chunks state, or the first chunk that states none. -/
def ofChunks (family : Family) : List (List Char) → Except (List Char) (List Modifier)
  | [] => .ok []
  | chunk :: rest =>
    match ofChars? family chunk with
    | none => .error chunk
    | some m => (m :: ·) <$> ofChunks family rest

/-- The modifiers of a suffix, or the chunk for which it is refused. -/
def ofSuffix (family : Family) (cs : List Char) : Except (List Char) (List Modifier) :=
  chunks cs >>= ofChunks family

end DiceNotation.Modifier
