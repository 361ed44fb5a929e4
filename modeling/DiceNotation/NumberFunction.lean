/-
  DiceNotation.NumberFunction

  The functions that formulas call.

  A registry holds functions by name. The functions of `FunctionRegistry.standard`
  take any numbers and refuse a wrong count of arguments; those that work on
  doubles also refuse a result that is not finite, and make a result whole if it
  can be.
-/

import DiceNotation.CubeRoot
import DiceNotation.Error
import DiceNotation.Keyed

namespace DiceNotation

/-- A function on numbers. -/
abbrev NumberFunction : Type := List Number → Except EvaluationError Number

namespace NumberFunction

-- ============================================================================
-- Refusals
-- ============================================================================

/-- The refusal of a wrong count of arguments. -/
def wrongCount (name expected : String) (arguments : List Number) : EvaluationError :=
  .invalidArguments name ("expected " ++ expected ++ " argument(s), found " ++
    Text.natText arguments.length)

/-- A result that has to be finite. -/
def finite (name : String) (x : Float) : Except EvaluationError Number :=
  if x.isFinite then .ok (.ofFloat x)
  else .error (.invalidArguments name
    ("result " ++ (Number.float x).text ++ " is not a finite number"))

-- ============================================================================
-- Shapes
-- ============================================================================

/-- A function of one double. -/
def unary (name : String) (f : Float → Float) : NumberFunction
  | [x] => finite name (f x.toFloat)
  | arguments => .error (wrongCount name "exactly 1" arguments)

/-- A function of two doubles. -/
def binary (name : String) (f : Float → Float → Float) : NumberFunction
  | [x, y] => finite name (f x.toFloat y.toFloat)
  | arguments => .error (wrongCount name "exactly 2" arguments)

/-- A function that combines one number after the other. -/
def folded (name : String) (f : Number → Number → Number) : NumberFunction
  | first :: rest => .ok (rest.foldl f first)
  | [] => .error (wrongCount name "at least 1" [])

-- ============================================================================
-- Single functions
-- ============================================================================

/-- The number without its sign. -/
def absolute : NumberFunction
  | [x] => .ok (if x.lt .zero then x.neg else x)
  | arguments => .error (wrongCount "abs" "exactly 1" arguments)

/-- One, zero or minus one, by the sign of a double. -/
def sign (x : Float) : Float :=
  if x == 0.0 then 0.0 else if x > 0.0 then 1.0 else if x < 0.0 then -1.0 else x

/-- The length of a vector. -/
def hypotenuse : NumberFunction := fun arguments =>
  let squares := arguments.map fun x => x.toFloat * x.toFloat
  finite "hypot" (squares.foldl (· + ·) 0.0).sqrt

/-- A number brought between two bounds. -/
def clamp : NumberFunction
  | [x, low, high] =>
    if high.lt low then
      .error (.invalidArguments "clamp"
        ("lower bound " ++ low.text ++ " exceeds upper bound " ++ high.text))
    else if x.lt low then .ok low
    else if high.lt x then .ok high
    else .ok x
  | arguments => .error (wrongCount "clamp" "exactly 3" arguments)

end NumberFunction

-- ============================================================================
-- Registries
-- ============================================================================

/-- Functions by name. -/
abbrev FunctionRegistry : Type := Keyed NumberFunction

namespace FunctionRegistry

open NumberFunction

/-- The functions that every formula can call. -/
def standard : FunctionRegistry :=
  Keyed.ofList
    [("abs", absolute),
     ("ceil", unary "ceil" Float.ceil),
     ("floor", unary "floor" Float.floor),
     ("round", unary "round" Float.round),
     ("trunc", unary "trunc" truncated),
     ("sign", unary "sign" sign),
     ("sqrt", unary "sqrt" Float.sqrt),
     ("cbrt", unary "cbrt" CubeRoot.nearest),
     ("exp", unary "exp" Float.exp),
     ("log", unary "log" Float.log),
     ("log2", unary "log2" Float.log2),
     ("log10", unary "log10" Float.log10),
     ("pow", binary "pow" Float.pow),
     ("min", folded "min" fun a b => if b.lt a then b else a),
     ("max", folded "max" fun a b => if a.lt b then b else a),
     ("hypot", hypotenuse),
     ("clamp", clamp)]

/-- Whether there is a function of a name. -/
def contains (fs : FunctionRegistry) (name : String) : Bool := (fs.find? name).isSome

/-- The result of a function. -/
def call (fs : FunctionRegistry) (name : String) : NumberFunction := fun arguments =>
  match fs.find? name with
  | some f => f arguments
  | none => .error (.unknownFunction name)

/-- A registry as a text with the names of its functions. -/
def summary (fs : FunctionRegistry) : String :=
  "FunctionRegistry \x7b functions: [" ++
    String.intercalate ", " (fs.map fun (name, _) => Text.quoted name) ++ "] \x7d"

end FunctionRegistry

end DiceNotation
