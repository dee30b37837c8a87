import Dice.Notation.Grammar
import Dice.Notation.Segments

/-!
# Compiling a notation

A notation is cut into segments, each segment becomes an expression, and
several of them are added up. A segment that begins with a parenthesis holds a
notation of its own inside, to a depth of `nestingLimit`. A notation of
nothing but blanks is the empty pool.

Every segment is visited before it is read, the ones inside parentheses right
after the one around them; a compilation keeps the visits even if it fails.

The readers are layered. `readText` cuts a text and reads the segments with a
reader that it is given, `readPiece` reads one segment and hands what is
inside of parentheses to a reader that it is given in turn, and
`readPieceWithin` ties the two together by recursion on the levels that are
left. Statements about reading follow the same layers: one lemma for each,
with what is assumed of the reader inside as a hypothesis, and an induction on
the levels at the end.

Main statements: `compile_blank`, and `readAll_nil` and `readAll_cons`, by
which segments are read in order up to the first fault.
-/

namespace Dice.Notation

/-- The deepest nesting of parentheses. It bounds how deep expressions can be
that come from a notation. -/
def nestingLimit : Nat := 128

/-- A segment that was met: its text without the blanks around it, and the
byte of the notation at which that begins. -/
structure Visit where
  text : Text
  offset : Nat
deriving DecidableEq

/-- What came of reading a part of a notation, with the segments visited.
Segments visited before an error are kept. -/
structure Reading (α : Type) where
  visits : Array Visit
  result : Except ParseError α

/-- Reads segments in order, up to the first fault. The first of them begins
at byte `offset`; `visits` and `trees` are left from those before, the trees
in reverse. -/
def readAll (read : Nat → Text → Reading Expr) (offset : Nat) (visits : Array Visit)
    (trees : List Expr) : List Text → Reading (List Expr)
  | [] => ⟨visits, .ok trees.reverse⟩
  | segment :: rest =>
    let reading := read offset segment
    match reading.result with
    | .error error => ⟨visits ++ reading.visits, .error error⟩
    | .ok tree =>
      -- the next segment begins behind the plus sign
      readAll read (offset + segment.byteLength + 1) (visits ++ reading.visits) (tree :: trees)
        rest

/-- One expression as it is, and several as their sum. A text of one segment
does not become a pool because of that. -/
def combine : List Expr → Expr
  | [e] => e
  | summands => .sum summands

/-- Reads a text that begins at byte `offset`, segment by segment. A text of
blanks is the empty pool; in parentheses blanks are refused before they come
here. -/
def readText (read : Nat → Text → Reading Expr) (offset : Nat) (text : Text) : Reading Expr :=
  if text.blank then ⟨#[], .ok (.pool [])⟩
  else
    match segments offset text with
    | .error error => ⟨#[], .error error⟩
    | .ok pieces =>
      let reading := readAll read offset #[] [] pieces
      ⟨reading.visits, reading.result.map combine⟩

/-- Reads a segment without blanks around it that begins with a parenthesis,
from the text after that. `inner` reads what is inside, unless the nesting is
too deep already. -/
def readNested (inner : Option (Nat → Text → Reading Expr)) (offset : Nat) (text : Text) :
    Reading Expr :=
  match inner with
  | none =>
    ⟨#[], .error ((Fault.outOfRange ("nesting deeper than " ++ nestingLimit.repr)).located offset)⟩
  | some read =>
    match splitAtClose 0 [] text with
    | none => ⟨#[], .error (Fault.unclosedParenthesis.located offset)⟩
    | some (interior, rest) =>
      -- in parentheses blanks are no empty pool but a fault
      if interior.blank then ⟨#[], .error (Fault.emptySegment.located (offset + 1))⟩
      else
        let reading := readText read (offset + 1) interior
        ⟨reading.visits, do
          let e ← reading.result
          readModifiers e (← (TokenStream.ofText (offset + interior.byteLength + 2) rest).ready)⟩

/-- Reads a segment that begins at byte `offset`: what is in parentheses if it
begins with one, and dice otherwise. Positions are counted from the first
character that is no blank. -/
def readPiece (inner : Option (Nat → Text → Reading Expr)) (offset : Nat) (segment : Text) :
    Reading Expr :=
  let started := segment.trimStart
  -- blanks may take several bytes, so what was trimmed is counted in bytes
  let offset := offset + (segment.byteLength - started.byteLength)
  let text := started.trimEnd
  let visit : Visit := ⟨text, offset⟩
  match text with
  | [] => ⟨#[visit], .error (Fault.emptySegment.located offset)⟩
  | first :: rest =>
    if first = '(' then
      let reading := readNested inner offset rest
      ⟨#[visit] ++ reading.visits, reading.result⟩
    else
      ⟨#[visit], do readSegment (← (TokenStream.ofText offset text).ready)⟩

/-- Reads a segment in which parentheses may nest `levels` deep. The recursion
is on the levels, so it ends whatever the text is. -/
def readPieceWithin : (levels : Nat) → Nat → Text → Reading Expr
  | 0 => readPiece none
  | levels + 1 => readPiece (some (readPieceWithin levels))

/-- Compiles a notation: the expression it stands for, or why it stands for
none, with the segments visited. -/
def compile (text : Text) : Reading Expr := readText (readPieceWithin nestingLimit) 0 text

/-- The expression that a notation stands for, or the first error in it. The
segments visited are left out. -/
def parse (text : Text) : Except ParseError Expr := (compile text).result

/-- A notation of nothing but blanks is the empty pool, and has no segments. -/
theorem compile_blank {text : Text} (h : text.blank = true) :
    compile text = ⟨#[], .ok (.pool [])⟩ := by
  rw [compile, readText, if_pos h]

/-- After the last segment, the trees are put in the order of the segments. -/
theorem readAll_nil (read : Nat → Text → Reading Expr) (offset : Nat) (visits : Array Visit)
    (trees : List Expr) : readAll read offset visits trees [] = ⟨visits, .ok trees.reverse⟩ := rfl

/-- A segment that cannot be read ends the reading. Behind one that can, the
next one begins after its bytes and the plus sign. -/
theorem readAll_cons (read : Nat → Text → Reading Expr) (offset : Nat) (visits : Array Visit)
    (trees : List Expr) (segment : Text) (rest : List Text) :
    readAll read offset visits trees (segment :: rest) =
      match (read offset segment).result with
      | .error error => ⟨visits ++ (read offset segment).visits, .error error⟩
      | .ok tree =>
        readAll read (offset + segment.byteLength + 1)
          (visits ++ (read offset segment).visits) (tree :: trees) rest := rfl

end Dice.Notation

namespace Dice.Expr

/-- The expression that a notation stands for. It is `parse` for text as
programs have it. -/
def ofNotation (source : String) : Except Notation.ParseError Expr :=
  Notation.parse source.toList

end Dice.Expr
