import Dice.Expr.Build
import Dice.Notation.TokenStream

/-!
# The grammar of a segment

A segment without parentheses in front is a quantity, the letter of a die, the
size of the die and its modifiers; after a part in parentheses only modifiers
follow. The modifiers are a selection or an explosion and then at most two
operators, each with a constant. Every part but the letter may be left out.

Each reader takes a stream whose current token and the one after it could be
read, and gives what it read with the stream after it. A fault is reported at
the position that the stream has reached by then, so the order in which the
parts are read and checked decides which fault is met first. A quantity past
its limit, for one, is refused only after the die behind it was read.

No reader looks back. A reader takes what it can use and leaves the rest, and
the last one refuses what is left over. So each reader can be spoken of on its
own: what it reads from a stream that begins with certain tokens, and that it
leaves the stream behind them to the next.

A minus sign is read in three ways: as part of a face, as part of a threshold
right after a comparator, and as an operator anywhere else.
-/

namespace Dice.Notation

/-- What a part of the grammar gives: a value, and the stream after it. A reader
that finds nothing of its part leaves the stream as it is. -/
abbrev Reader (α : Type) := TokenStream → Except ParseError (α × TokenStream)

/-- The most copies of a die that a quantity can ask for, as for a number of 16
bits. -/
def quantityLimit : Int := 65535

/-- The greatest constant of an operator, as for a number of 32 bits.
Expressions hold their constants in that width. -/
def operandLimit : Int := 4294967295

/-- What was built, or the error of construction as a fault of the notation, at
the position that the stream has reached by then. -/
def built {α : Type} (stream : TokenStream) : Except BuildError α → Except ParseError α
  | .ok value => .ok value
  | .error error => stream.fail (.ofBuildError error)

/-! ## Dice -/

/-- The number of copies that is written in front of a die, 1 without one. It is
compared with its limit only after the die was read. -/
def readQuantity : Reader Score := fun stream =>
  match stream.current with
  | some (.number quantity) => do return (quantity, ← stream.advance)
  | _ => .ok (1, stream)

/-- What comes next in a list of faces. After a comma the list may still end,
which is the same state as at its front. -/
inductive FacePart
  /-- A face, or the end of the list. -/
  | entry
  /-- The digits after a minus sign. -/
  | magnitude
  /-- A comma, or the end of the list. -/
  | separator
deriving DecidableEq

/-- The faces up to the closing bracket, after those already `seen` in
reverse. -/
def readFaces (fault : Option Fault) (stop : Nat) (part : FacePart) (seen : List Score) :
    List PlacedToken → Except ParseError (List Score × TokenStream)
  | [] => TokenStream.fail ⟨[], fault, stop⟩ (.unexpectedToken Token.endName)
  | placed :: rest =>
    match part, placed.token with
    | .entry, .rightBracket | .separator, .rightBracket => do
      let after ← TokenStream.ready ⟨rest, fault, stop⟩
      return (seen.reverse, after)
    | .entry, .operator .subtract => do
      let _ ← TokenStream.ready ⟨rest, fault, stop⟩
      readFaces fault stop .magnitude seen rest
    | .entry, .number value => do
      let _ ← TokenStream.ready ⟨rest, fault, stop⟩
      readFaces fault stop .separator (value :: seen) rest
    | .magnitude, .number value => do
      let _ ← TokenStream.ready ⟨rest, fault, stop⟩
      readFaces fault stop .separator (.clamp (-value.val) :: seen) rest
    | .separator, .comma => do
      let _ ← TokenStream.ready ⟨rest, fault, stop⟩
      readFaces fault stop .entry seen rest
    | _, other =>
      TokenStream.fail ⟨placed :: rest, fault, stop⟩ (.unexpectedToken other.name)

/-- The die that the tokens after its letter stand for; a six-sided one if
they stand for none. -/
def readSize : Reader Die := fun stream =>
  match stream.current with
  | some (.number sides) => do
    let die ← built stream (Die.ofSides sides)
    return (die, ← stream.advance)
  | some .fudge => do return (.fudge, ← stream.advance)
  | some .percent => do return (.percentile, ← stream.advance)
  | some .leftBracket => do
    let inside ← stream.advance
    let (faces, after) ← readFaces inside.fault inside.stop .entry [] inside.tokens
    let die ← built after (Die.ofFaces faces)
    return (die, after)
  | _ => .ok (.sixSided, stream)

/-- A quantity of dice. The size is read before the quantity is checked, so a
fault of the size is reported first. -/
def readDice : Reader Expr := fun stream => do
  let (quantity, stream) ← readQuantity stream
  match stream.current with
  | some .dice =>
    let (die, stream) ← readSize (← stream.advance)
    if quantityLimit < quantity.val then
      stream.fail (.outOfRange ("quantity " ++ String.ofList quantity.text))
    else return (.copies (.die die) quantity.val.toNat, stream)
  | _ => stream.fail (.missingDice stream.currentName)

/-! ## Modifiers -/

/-- The selection by a rule whose letters were just read; of one result if no
number follows. -/
def readSelection (e : Expr) (rule : Selection) : Reader Expr := fun stream => do
  match stream.current with
  | some (.number threshold) =>
    let stream ← stream.advance
    return (← built stream (e.select rule threshold.val.toNat), stream)
  | _ => return (← built stream (e.select rule 1), stream)

/-- The comparator of an explosion, if one is written. Whether there is one
decides how a minus sign behind it is read. -/
def readComparator : Reader (Option Comparator) := fun stream =>
  match stream.current with
  | some (.comparator c) => do return (some c, ← stream.advance)
  | _ => .ok (none, stream)

/-- The threshold of an explosion, if one is written. A minus sign belongs to
it only after a comparator; otherwise it is an operator of its own. -/
def readThreshold (c : Option Comparator) : Reader (Option Score) := fun stream =>
  match c, stream.current with
  | _, some (.number threshold) => do return (some threshold, ← stream.advance)
  | some _, some (.operator .subtract) => do
    let stream ← stream.advance
    match stream.current with
    | some (.number threshold) =>
      return (some (.clamp (-threshold.val)), ← stream.advance)
    | _ => stream.fail (.unexpectedToken stream.currentName)
  | _, _ => .ok (none, stream)

/-- The explosion whose mark was just read. Without a comparator it goes on
while the result equals the threshold. -/
def readExplosion (e : Expr) : Reader Expr := fun stream => do
  let (c, stream) ← readComparator stream
  let (threshold, stream) ← readThreshold c stream
  return (← built stream (e.explode (c.getD .equals) threshold), stream)

/-- The selection or the explosion of an expression, if one is written. There is
at most one of them. -/
def readModifier (e : Expr) : Reader Expr := fun stream =>
  match stream.current with
  | some (.selection rule) => do readSelection e rule (← stream.advance)
  | some .explode => do readExplosion e (← stream.advance)
  | _ => .ok (e, stream)

/-- At most `count` operators with their constants. They apply from the left,
each to what came of the ones before. -/
def readOperators : Nat → Expr → Reader Expr
  | 0, e => fun stream => .ok (e, stream)
  | count + 1, e => fun stream =>
    match stream.current with
    | some (.operator op) => do
      let stream ← stream.advance
      match stream.current with
      | some (.number operand) =>
        let stream ← stream.advance
        if operandLimit < operand.val then
          stream.fail (.outOfRange ("operand " ++ String.ofList operand.text))
        else
          let combined ← built stream (e.apply op (.ofNat operand.val.toNat))
          readOperators count combined stream
      | _ => stream.fail (.missingOperand stream.currentName)
    | _ => .ok (e, stream)

/-- The modifiers of an expression, up to the end of the segment. A token behind
the second operator is refused, whatever it is. -/
def readModifiers (e : Expr) (stream : TokenStream) : Except ParseError Expr := do
  let (e, stream) ← readModifier e stream
  let (e, stream) ← readOperators 2 e stream
  match stream.current with
  | none => return e
  | some token => stream.fail (.unexpectedToken token.name)

/-- A whole segment that begins with dice. Segments in parentheses use only the
part behind the dice. -/
def readSegment (stream : TokenStream) : Except ParseError Expr := do
  let (e, stream) ← readDice stream
  readModifiers e stream

end Dice.Notation
