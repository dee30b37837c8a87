import Dice.Score.Decimal

/-!
# Errors of construction

Every die and every expression checks its own numbers when it is built, so
nothing can go wrong while it is evaluated. A `BuildError` says which check
failed, with the numbers that it failed on: a die needs two faces, a selection
cannot be of more results than there are, nothing is divided by zero, and an
explosion has to be able to end.

The same errors reach a user in two ways. A program that builds expressions
directly gets them as they are; a reader of notations wraps them up with the
place in the notation where the part that could not be built ends. Errors have
a wording for people and a kind for programs, and wrapping an error up keeps
its kind.

The wording is part of what the library promises: it names the offending
number or word, and for an endless explosion the written form of the part that
would never stop.
-/

namespace Dice

/-- The broad kind of an error. Programs that do not care for the details tell
errors apart by it. -/
inductive ErrorKind
  /-- A notation that cannot be read, or a number outside of what is allowed. -/
  | malformed
  /-- A word in the place of a selection rule that names none. -/
  | unknownAlgorithm
  /-- An expression that could never be rolled to an end. -/
  | illegalValue
deriving DecidableEq

/-- Why a die or an expression cannot be built. The error holds what its wording
needs. -/
inductive BuildError
  /-- A die with fewer than two sides. -/
  | tooFewSides (sides : Score)
  /-- A die with fewer than two faces listed. -/
  | tooFewValues (count : Nat)
  /-- More results to select than there are. -/
  | thresholdOutOfRange (threshold count : Nat)
  /-- A division by the constant zero. -/
  | divisionByZero
  /-- A text that names no selection rule. -/
  | unknownAlgorithm (word : String)
  /-- An explosion that would ask for another roll for ever. -/
  | endless (explosion : String)
deriving DecidableEq

namespace BuildError

/-- The kind an error belongs to. -/
def kind : BuildError → ErrorKind
  | unknownAlgorithm _ => .unknownAlgorithm
  | endless _ => .illegalValue
  | _ => .malformed

/-- The wording of an error. A number or a word that was refused is repeated in
it. -/
def message : BuildError → String
  | tooFewSides sides =>
    "Die needs at least 2 sides, got " ++ String.ofList sides.text
  | tooFewValues count => "Custom die needs at least 2 values, got " ++ count.repr
  | thresholdOutOfRange threshold count =>
    "Threshold " ++ threshold.repr ++ " exceeds the " ++ count.repr ++ " rollables in the pool"
  | divisionByZero => "Division by zero"
  | unknownAlgorithm word => "Unknown algorithm: " ++ word
  | endless explosion => "Explode never stops: " ++ explosion

end BuildError

end Dice
