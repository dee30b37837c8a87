import Dice.Notation.Fault
import Dice.Text

/-!
# Segments

A notation is a sum of segments. It is cut at the plus signs outside of
parentheses into fragments, and a fragment without the letter of a die belongs
to the segment before it: `2d3+4` is one segment and `2d3+1d4` is two.

The first fragment begins a segment in any case. So a notation that begins
with a number and has a die only after a plus sign has two segments, of which
the first one cannot be read.

Before anything is cut, the parentheses are counted. A closing parenthesis
that closes nothing is reported where it stands, and one that is not closed at
the end of the text; with balanced parentheses the cut cannot fail. Plus signs
inside of parentheses are left alone, since what is inside is read as a
notation of its own later on. `splitAtClose` finds its end.

Main statements: `join_fragments` and `join_cutSegments`, by which neither
step loses anything, and `segments_ok`, by which only parentheses can be at
fault.
-/

namespace Dice.Notation

/-- Looks for a parenthesis without its partner in a text of which the part up
to byte `index` was seen, with `depth` parentheses open. -/
def unbalanced? (depth index : Nat) : Text → Option ParseError
  | [] => if depth = 0 then none else some (Fault.unclosedParenthesis.located index)
  | c :: rest =>
    if c = '(' then unbalanced? (depth + 1) (index + 1) rest
    else if c = ')' then
      match depth with
      | 0 => some (Fault.unexpectedParenthesis.located index)
      | depth + 1 => unbalanced? depth (index + 1) rest
    -- parentheses and the others alike take their bytes
    else unbalanced? depth (index + c.utf8Size) rest

/-- The fragments of a text between its outer plus signs. `depth` parentheses
are open, `piece` is the fragment so far in reverse, and `done` holds the
fragments before it, last one first. -/
def cutAtPluses (depth : Nat) (piece : Text) (done : List Text) : Text → List Text
  | [] => (piece.reverse :: done).reverse
  | c :: rest =>
    if c = '(' then cutAtPluses (depth + 1) (c :: piece) done rest
    else if c = ')' then cutAtPluses (depth - 1) (c :: piece) done rest
    else if c = '+' ∧ depth = 0 then cutAtPluses 0 [] (piece.reverse :: done) rest
    else cutAtPluses depth (c :: piece) done rest

/-- The parts of a text between its plus signs outside of parentheses. A part
may be empty. -/
def fragments (text : Text) : List Text := cutAtPluses 0 [] [] text

/-- Whether the letter of a die is in a text. A fragment without it goes with
the segment in front of it. -/
def hasDice (text : Text) : Bool := text.any fun c => c == 'd' || c == 'D'

/-- The segments of a list of fragments. `segment` is the one so far, and
`done` holds the segments before it, last one first. -/
def gather (segment : Text) (done : List Text) : List Text → List Text
  | [] => (segment :: done).reverse
  | fragment :: rest =>
    if hasDice fragment then gather fragment (segment :: done) rest
    -- what has no dice is a constant, and its plus sign is an operator
    else gather (segment ++ '+' :: fragment) done rest

/-- The segments of a text with balanced parentheses. A plus sign with no dice
behind it stays inside a segment, as an operator. -/
def cutSegments (text : Text) : List Text :=
  match fragments text with
  | [] => []
  | first :: rest => gather first [] rest

/-- The segments of a text that begins at byte `offset` of the notation, or the
error that a parenthesis has no partner. -/
def segments (offset : Nat) (text : Text) : Except ParseError (List Text) :=
  match unbalanced? 0 offset text with
  | some error => .error error
  | none => .ok (cutSegments text)

/-- The text up to the parenthesis that closes one opened before it, and the
text after that. `depth` more are open and `before` was seen, in reverse. -/
def splitAtClose (depth : Nat) (before : Text) : Text → Option (Text × Text)
  | [] => none
  | c :: rest =>
    if c = '(' then splitAtClose (depth + 1) (c :: before) rest
    else if c = ')' then
      match depth with
      | 0 => some (before.reverse, rest)
      | depth + 1 => splitAtClose depth (c :: before) rest
    else splitAtClose depth (c :: before) rest

/-! ## Nothing is lost -/

/-- Cutting loses nothing: what was cut off before, the fragment so far and the
rest are still there, with plus signs between them. -/
theorem join_cutAtPluses (depth : Nat) (piece : Text) (done : List Text) (text : Text) :
    Text.join ['+'] (cutAtPluses depth piece done text) =
      Text.join ['+'] (done.reverse ++ [piece.reverse ++ text]) := by
  induction text generalizing depth piece done with
  | nil => simp [cutAtPluses]
  | cons c rest ih =>
    unfold cutAtPluses
    split
    next => simp [ih]
    next =>
      split
      next => simp [ih]
      next =>
        split
        next h =>
          -- the plus sign just cut at stands between the fragment that it ends and the rest
          have glue := Text.join_glue ['+'] done.reverse piece.reverse rest []
          rw [ih, h.1]
          simpa using glue.symm
        next => simp [ih]

/-- The fragments with plus signs between them are the text again. Nothing but
plus signs is taken out. -/
theorem join_fragments (text : Text) : Text.join ['+'] (fragments text) = text := by
  simp [fragments, join_cutAtPluses]

/-- Gathering fragments into segments keeps the text: the plus sign between two
fragments of a segment is put back. -/
theorem join_gather (segment : Text) (done rest : List Text) :
    Text.join ['+'] (gather segment done rest) =
      Text.join ['+'] (done.reverse ++ segment :: rest) := by
  induction rest generalizing segment done with
  | nil => simp [gather]
  | cons fragment rest ih =>
    unfold gather
    split
    next => simp [ih]
    next =>
      have glue := Text.join_glue ['+'] done.reverse segment fragment rest
      rw [ih]
      simpa using glue

/-- The segments with plus signs between them are the text again. This is what
makes the offsets of segments add up. -/
theorem join_cutSegments (text : Text) : Text.join ['+'] (cutSegments text) = text := by
  have whole := join_fragments text
  unfold cutSegments
  split
  next none =>
    rw [none] at whole
    exact whole
  next first rest some =>
    rw [some] at whole
    rw [join_gather]
    exact whole

/-- Only parentheses can keep a text from being cut. -/
theorem segments_ok {offset : Nat} {text : Text} (balanced : unbalanced? 0 offset text = none) :
    segments offset text = .ok (cutSegments text) := by
  rw [segments, balanced]

end Dice.Notation
