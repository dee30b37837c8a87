import Dice.Notation.Token

/-!
# Token streams

The tokens of a segment, each with the position right after it, and what came
after the last one: the end of the segment or a fault. Positions count
characters on from the position of the segment itself.

A reader of the stream is always one token ahead. A fault in the text is
therefore met as soon as the token before it is the current one, and any other
fault is reported at the position after the token that follows the current
one. `ready` is where this is decided: a stream may be used if its current
token and the one after it could be read.

All tokens are found at once, by one pass over the text with the number of
characters that still belong to the last token (`scan`). That a stream knows
all of its tokens says nothing about when a reader meets the fault behind
them; the reader still advances one token at a time.

Main statements: `ofText_nil`, and `advance_of_sound`, in a stream without a
fault the reader can always go on.
-/

namespace Dice.Notation

/-- A token and the position right after it. The positions are those of the
faults that readers report. -/
structure PlacedToken where
  token : Token
  stop : Nat
deriving DecidableEq

/-- The tokens that are still to be read. A fault of the text stands behind the
last token, so it is met only by a reader that gets that far. -/
structure TokenStream where
  tokens : List PlacedToken
  /-- Why there are no more tokens, if it is not for the end of the text. -/
  fault : Option Fault
  /-- The position at which there were no more tokens. -/
  stop : Nat
deriving DecidableEq

namespace TokenStream

/-- The tokens of a text that begins at `position`, after `seen` ones in
reverse. The next `skip` characters belong to the token before them. -/
def scan (skip position : Nat) (seen : List PlacedToken) : Text → TokenStream
  | [] => ⟨seen.reverse, none, position⟩
  | c :: rest =>
    match skip with
    | skip + 1 => scan skip (position + 1) seen rest
    | 0 =>
      match Lexeme.read c rest with
      -- positions count characters from here on, whatever their bytes are
      | .blank => scan 0 (position + 1) seen rest
      | .token found width =>
        scan (width - 1) (position + 1) (⟨found, position + width⟩ :: seen) rest
      | .broken fault width => ⟨seen.reverse, some fault, position + width⟩

/-- The tokens of a segment that begins at `position`. The whole segment is
looked at once, and readers only move along the list. -/
def ofText (position : Nat) (text : Text) : TokenStream := scan 0 position [] text

/-- A text without characters has no tokens and no fault. -/
@[simp] theorem ofText_nil (position : Nat) : ofText position [] = ⟨[], none, position⟩ := rfl

/-- The current token, if the end is not reached. A text that cannot be read
further has none either. -/
def current (stream : TokenStream) : Option Token := stream.tokens.head?.map (·.token)

/-- The name of the current token, or of the end. -/
def currentName (stream : TokenStream) : String :=
  match stream.current with
  | some token => token.name
  | none => Token.endName

/-- The position that a reader has got to: after the token that follows the
current one. -/
def reached (stream : TokenStream) : Nat :=
  match stream.tokens with
  | _ :: next :: _ => next.stop
  | _ => stream.stop

/-- Gives up with a fault at the position that was reached, which is one token
past the current one. -/
def fail {α : Type} (stream : TokenStream) (fault : Fault) : Except ParseError α :=
  .error (fault.located stream.reached)

/-- The stream itself, provided that its current token and the one after it
could be read. -/
def ready (stream : TokenStream) : Except ParseError TokenStream :=
  match stream.tokens, stream.fault with
  | _ :: _ :: _, _ => .ok stream
  | _, none => .ok stream
  | _, some fault => .error (fault.located stream.stop)

/-- Goes on to the next token. A fault of the text is reported one token ahead,
as soon as it is the next thing to be read. -/
def advance (stream : TokenStream) : Except ParseError TokenStream :=
  ready { stream with tokens := stream.tokens.tail }

/-- Nothing stops the reader of a stream without a fault: it goes on to the next
token, at the end as well. -/
theorem advance_of_sound {stream : TokenStream} (sound : stream.fault = none) :
    stream.advance = .ok { stream with tokens := stream.tokens.tail } := by
  unfold advance ready
  rw [sound]
  generalize stream.tokens.tail = rest
  cases rest with
  | nil => rfl
  | cons next rest => cases rest <;> rfl

end TokenStream

end Dice.Notation
