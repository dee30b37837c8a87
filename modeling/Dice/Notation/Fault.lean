import Dice.BuildError

/-!
# Faults of a notation

Why a notation cannot be read, and where that was found. A `Fault` is what is
wrong, and a `ParseError` is a fault with its position, if that is known.

Readers put a fault at a position in the moment they meet it, with
`Fault.located`. From there on the error is handed outward as it is: the
readers around the one that met the fault would put it at positions of their
own, and a second position changes nothing (`located_located`). So the first
position stays, and every error that a reader reports has one.

Positions count bytes from the start of the whole notation, but for characters
that a token stream has passed in its segment, which count one each.

A node that cannot be built is a fault as well. It keeps the kind that it has
as an error of construction (`kind_ofBuildError`), and its wording is that of
the error with a remark in front.

Main statements: `located_located`, a second position changes nothing, and
`kind_ofBuildError`.
-/

namespace Dice.Notation

/-- Why a notation cannot be read. A fault says what is wrong and not where; the
position is put beside it in a `ParseError`. -/
inductive Fault
  /-- A character that no token begins with. -/
  | invalidToken (c : Char)
  /-- Digits that are no score. -/
  | number (fault : NumberFault)
  /-- A word shaped like the name of a selection rule that names none. -/
  | unknownAlgorithm (word : String)
  /-- A node that cannot be built. -/
  | construction (error : BuildError)
  /-- A parenthesis that is not closed. -/
  | unclosedParenthesis
  /-- A closing parenthesis without an opening one. -/
  | unexpectedParenthesis
  /-- Nothing where an expression should be. -/
  | emptySegment
  /-- Something else where a die should be. -/
  | missingDice (found : String)
  /-- Something else where the constant of an operator should be. -/
  | missingOperand (found : String)
  /-- A token, or a word, that does not belong where it stands. -/
  | unexpectedToken (found : String)
  /-- A number outside of what is allowed in its place. -/
  | outOfRange (what : String)
deriving DecidableEq

namespace Fault

/-- The fault that an error of construction is in a notation. An unknown rule is
reported in the same way whether it was met as a word or as a name. -/
def ofBuildError : BuildError → Fault
  | .unknownAlgorithm word => unknownAlgorithm word
  | error => construction error

/-- The kind a fault belongs to. Only a node that cannot be built can have
another kind than a malformed notation or an unknown rule. -/
def kind : Fault → ErrorKind
  | unknownAlgorithm _ => .unknownAlgorithm
  | construction error => error.kind
  | _ => .malformed

/-- The wording of a fault. -/
def message : Fault → String
  | invalidToken c => "Invalid token: " ++ String.singleton c
  | number fault => "Invalid number: " ++ fault.message
  | unknownAlgorithm word => "Unknown algorithm: " ++ word
  | construction error => "Roll error - " ++ error.message
  | unclosedParenthesis => "Parenthesis was not closed"
  | unexpectedParenthesis => "Closing parenthesis without an opening one"
  | emptySegment => "Empty dice expression"
  | missingDice found => "Expected dice, got " ++ found
  | missingOperand found => "Expected a number after the operator, got " ++ found
  | unexpectedToken found => "Unexpected token: " ++ found
  | outOfRange what => "Value out of range: " ++ what

/-- Being met in a notation does not change the kind of an error of
construction. -/
theorem kind_ofBuildError (error : BuildError) : (ofBuildError error).kind = error.kind := by
  cases error <;> rfl

end Fault

/-- A fault, with its position in the notation if it is known. A reader that is
given a part of a notation counts from the offset of that part. -/
structure ParseError where
  fault : Fault
  position : Option Nat
deriving DecidableEq

namespace ParseError

/-- A fault without a position. -/
def ofFault (fault : Fault) : ParseError := ⟨fault, none⟩

/-- The error at the given position, unless it has a position already. The
reader that meets a fault knows best where it is. -/
def located (error : ParseError) (position : Nat) : ParseError :=
  match error.position with
  | some _ => error
  | none => { error with position := some position }

/-- The first position stays: an error that has one is not put at another. -/
theorem located_located (error : ParseError) (first second : Nat) :
    (error.located first).located second = error.located first := by
  obtain ⟨fault, position⟩ := error
  cases position <;> rfl

/-- The kind an error belongs to. -/
def kind (error : ParseError) : ErrorKind := error.fault.kind

/-- The wording of an error, with its position in front. -/
def message (error : ParseError) : String :=
  match error.position with
  | some position => "At position " ++ position.repr ++ " - " ++ error.fault.message
  | none => error.fault.message

end ParseError

/-- The error that a reader reports for a fault it has met: the fault, put at
the position where it was met. -/
def Fault.located (fault : Fault) (position : Nat) : ParseError :=
  (ParseError.ofFault fault).located position

end Dice.Notation
