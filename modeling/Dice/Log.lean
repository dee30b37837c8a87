import Dice.Notation.Compile
import Dice.Toss

/-!
# Log events

What a program that watches the library gets told: the segments of a notation
as they are met, the compiled notation, and tosses. An event has a level, a
message and named fields, all of them text.

Segments are reported before they are read, so a notation that cannot be read
has events as well: those of the segments that were met up to the fault. The
compiled notation is reported once, at the end, and only if there is one; it is
shown as it was given and as it is written back.

A toss is reported with its value and its formula, and with the node and the
method it came from if it has a context.

Events are data here. Which of them a watching program wants to see, and where
it writes them, is decided outside of the library.
-/

namespace Dice

/-- Something worth telling a watching program. Events tell what happens and
change nothing. -/
inductive LogEvent
  /-- A segment is about to be read. -/
  | segment (visit : Notation.Visit)
  /-- A notation was compiled to the expression with the given written form. -/
  | compiled (source written : Text)
  /-- A toss was made. -/
  | toss (made : Toss)

namespace LogEvent

/-- How much detail an event is. -/
def level : LogEvent → String
  | compiled _ _ => "DEBUG"
  | _ => "TRACE"

/-- What happened. -/
def message : LogEvent → String
  | segment _ => "parsing dice segment"
  | compiled _ _ => "compiled dice notation"
  | toss _ => "toss"

/-- The fields of an event: name and text. A toss tells where it comes from if
it has a context. -/
def fields : LogEvent → List (String × Text)
  | segment visit => [("segment", visit.text), ("offset", Text.ofNat visit.offset)]
  | compiled source written => [("notation", source), ("compiled", written)]
  | toss made =>
    let origin :=
      match made.context with
      | some context =>
        [("notation", context.text), ("method", context.method.name.toList)]
      | none => []
    origin ++ [("value", made.value.text), ("operation", made.operation)]

/-- The events of compiling a notation. The segments come first, in the order in
which they were visited, and a success is told of at the end. -/
def ofCompilation (source : Text) : List LogEvent :=
  let reading := Notation.compile source
  let visits := reading.visits.toList.map segment
  match reading.result with
  | .ok e => visits ++ [compiled source e.text]
  | .error _ => visits

end LogEvent

end Dice
