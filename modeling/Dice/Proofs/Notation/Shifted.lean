import Dice.Notation.Compile

/-!
# Texts further on

Where a text begins decides on nothing but the positions at which faults are
reported. `Shifted` says so of two results: both are values or both are faults
with a position, and the second of these is the first, that much further on.
It goes from the steps of a reader to the reader (`Shifted.bind`), so each
reader of tokens has it because the ones that it calls do, and an induction on
the levels of parentheses carries it on to texts.

The readers leave the rest of their stream along with a value, and that is
moved as well. So `Shifted` has a function that does this to a value; it is
the identity for expressions.

The segments that are visited are left out of the comparison. They are told
with the byte at which they begin, and a fault does not depend on them.

Main statements: `readSegment_shifts`, `Shifts.readText` and
`readPieceWithin_shifts`.
-/

namespace Dice.Notation

variable {α β γ δ : Type} {k : Nat}

/-! ## Moving positions -/

/-- The token of a text that begins `k` further on. Only the position changes
with the place. -/
def PlacedToken.shifted (k : Nat) (placed : PlacedToken) : PlacedToken :=
  { placed with stop := placed.stop + k }

/-- The first result is of some text and the second of the same text `k` further
on, where `move` does that to a value. -/
inductive Shifted (k : Nat) (move : α → β) : Except ParseError α → Except ParseError β → Prop
  | ok (value : α) : Shifted k move (.ok value) (.ok (move value))
  | error (fault : Fault) (position : Nat) :
    Shifted k move (.error (fault.located position)) (.error (fault.located (position + k)))

/-- Steps that shift one after the other shift together. The second step gets
what the first one gave, moved along. -/
theorem Shifted.bind {move : α → β} {move' : γ → δ} {first : Except ParseError α}
    {second : Except ParseError β} {next : α → Except ParseError γ}
    {next' : β → Except ParseError δ} (shifted : Shifted k move first second)
    (each : ∀ value, Shifted k move' (next value) (next' (move value))) :
    Shifted k move' (first >>= next) (second >>= next') := by
  cases shifted with
  | ok value => exact each value
  | error fault position => exact .error fault position

theorem Shifted.eq_ok {move : α → β} {value : α} {second : Except ParseError β}
    (shifted : Shifted k move (.ok value) second) : second = .ok (move value) := by
  cases shifted
  rfl

/-- A fault is the same one, `k` further on. In particular it had a position to
begin with. -/
theorem Shifted.eq_error {move : α → β} {error : ParseError} {second : Except ParseError β}
    (shifted : Shifted k move (.error error) second) : ∃ (fault : Fault) (position : Nat),
      error = fault.located position ∧ second = .error (fault.located (position + k)) := by
  cases shifted with
  | error fault position => exact ⟨fault, position, rfl, rfl⟩

namespace TokenStream

/-- The tokens of a text that begins `k` further on. All positions move, that of
the end included. -/
def shifted (k : Nat) (stream : TokenStream) : TokenStream :=
  ⟨stream.tokens.map (·.shifted k), stream.fault, stream.stop + k⟩

variable {stream : TokenStream}

@[simp] theorem current_shifted : (stream.shifted k).current = stream.current := by
  simp only [current, shifted, List.head?_map, Option.map_map]
  rfl

@[simp] theorem currentName_shifted : (stream.shifted k).currentName = stream.currentName := by
  simp only [currentName, current_shifted]

theorem reached_shifted : (stream.shifted k).reached = stream.reached + k := by
  obtain ⟨tokens, fault, stop⟩ := stream
  match tokens with
  | [] | [_] | _ :: _ :: _ => rfl

/-- A reader fails where it is, which is `k` further on. All other readers shift
because this one does. -/
theorem fail_shifted (stream : TokenStream) (move : α → β) (fault : Fault) :
    Shifted k move (stream.fail fault) ((stream.shifted k).fail fault) := by
  rw [fail, fail, reached_shifted]
  exact .error fault _

/-- A stream is ready wherever it is, or its own fault is `k` further on. -/
theorem ready_shifted : Shifted k (shifted k) stream.ready (stream.shifted k).ready := by
  obtain ⟨tokens, fault, stop⟩ := stream
  match tokens, fault with
  | [], none | [_], none | _ :: _ :: _, none | _ :: _ :: _, some _ => exact .ok _
  | [], some fault | [_], some fault => exact .error fault stop

theorem advance_shifted : Shifted k (shifted k) stream.advance (stream.shifted k).advance := by
  unfold advance
  have tail : ({ stream.shifted k with tokens := (stream.shifted k).tokens.tail } : TokenStream) =
      ({ stream with tokens := stream.tokens.tail } : TokenStream).shifted k := by
    simp only [shifted, List.map_tail]
  rw [tail]
  exact ready_shifted

/-- Reading on through a text places everything `k` further on, what was `seen`
before included. -/
theorem scan_shifted (skip position : Nat) (seen : List PlacedToken) (text : Text) :
    scan skip (position + k) (seen.map (·.shifted k)) text =
      (scan skip position seen text).shifted k := by
  induction text generalizing skip position seen with
  | nil => simp [scan, shifted]
  | cons c rest ih =>
    have next : position + k + 1 = position + 1 + k := by omega
    cases skip with
    | succ skip =>
      simp only [scan, next, ih]
    | zero =>
      simp only [scan, next]
      split
      next => exact ih _ _ _
      next found width _ =>
        rw [Nat.add_right_comm position k width]
        exact ih _ _ (⟨found, position + width⟩ :: seen)
      next fault width _ => simp [shifted, Nat.add_right_comm]

/-- The tokens of a segment do not depend on where it begins. Only their
positions do. -/
theorem ofText_shifted (k position : Nat) (text : Text) :
    ofText (position + k) text = (ofText position text).shifted k :=
  scan_shifted 0 position [] text

end TokenStream

/-! ## Readers of tokens -/

open TokenStream

/-- Whether a reader gives the same value further on. The stream that it leaves
is moved along with the one that it got. -/
def Reader.Shifts (reader : Reader α) : Prop :=
  ∀ k stream, Shifted k (Prod.map id (TokenStream.shifted k)) (reader stream)
    (reader (stream.shifted k))

variable {stream : TokenStream}

theorem built_shifted (made : Except BuildError α) :
    Shifted k id (built stream made) (built (stream.shifted k) made) := by
  cases made with
  | ok value => exact .ok value
  | error error => exact fail_shifted _ id _

/-- The value that is already known, after one more token. -/
theorem return_shifted (value : α) :
    Shifted k (Prod.map id (TokenStream.shifted k))
      (do return (value, ← stream.advance) : Except ParseError (α × TokenStream))
      (do return (value, ← (stream.shifted k).advance)) :=
  advance_shifted.bind fun _ => .ok _

theorem readQuantity_shifts : readQuantity.Shifts := by
  intro k stream
  unfold readQuantity
  rw [current_shifted]
  split
  next => exact return_shifted _
  next => exact .ok _

/-- The faces of a list are the same further on. The induction is on the tokens,
as the reader goes along them. -/
theorem readFaces_shifted (fault : Option Fault) (stop : Nat) (part : FacePart) (seen : List Score)
    (placed : List PlacedToken) :
    Shifted k (Prod.map id (TokenStream.shifted k)) (readFaces fault stop part seen placed)
      (readFaces fault (stop + k) part seen (placed.map (·.shifted k))) := by
  induction placed generalizing part seen with
  | nil => exact fail_shifted ⟨[], fault, stop⟩ _ _
  | cons first rest ih =>
    have ready : Shifted k (TokenStream.shifted k) (TokenStream.ready ⟨rest, fault, stop⟩)
        (TokenStream.ready ⟨rest.map (·.shifted k), fault, stop + k⟩) := ready_shifted
    rw [List.map_cons]
    unfold readFaces
    simp only [PlacedToken.shifted]
    split
    next => exact ready.bind fun _ => .ok _
    next => exact ready.bind fun _ => .ok _
    next => exact ready.bind fun _ => ih _ _
    next => exact ready.bind fun _ => ih _ _
    next => exact ready.bind fun _ => ih _ _
    next => exact ready.bind fun _ => ih _ _
    next => exact fail_shifted ⟨first :: rest, fault, stop⟩ _ _

theorem readSize_shifts : readSize.Shifts := by
  intro k stream
  unfold readSize
  rw [current_shifted]
  split
  next => exact (built_shifted _).bind fun _ => return_shifted _
  next => exact return_shifted _
  next => exact return_shifted _
  next =>
    refine advance_shifted.bind fun inside => ?_
    refine (readFaces_shifted inside.fault inside.stop .entry [] inside.tokens).bind fun read => ?_
    obtain ⟨faces, after⟩ := read
    exact (built_shifted _).bind fun _ => .ok _
  next => exact .ok _

theorem readDice_shifts : readDice.Shifts := by
  intro k stream
  unfold readDice
  refine (readQuantity_shifts k stream).bind fun read => ?_
  obtain ⟨quantity, stream⟩ := read
  simp only [Prod.map_apply, id_eq, current_shifted, currentName_shifted]
  split
  next =>
    refine advance_shifted.bind fun opened => ?_
    refine (readSize_shifts k opened).bind fun read => ?_
    obtain ⟨die, stream⟩ := read
    simp only [Prod.map_apply, id_eq]
    split
    next => exact fail_shifted _ _ _
    next => exact .ok _
  next => exact fail_shifted _ _ _

theorem readSelection_shifts (e : Expr) (rule : Selection) : (readSelection e rule).Shifts := by
  intro k stream
  unfold readSelection
  rw [current_shifted]
  split
  next => exact advance_shifted.bind fun _ => (built_shifted _).bind fun _ => .ok _
  next => exact (built_shifted _).bind fun _ => .ok _

theorem readComparator_shifts : readComparator.Shifts := by
  intro k stream
  unfold readComparator
  rw [current_shifted]
  split
  next => exact return_shifted _
  next => exact .ok _

theorem readThreshold_shifts (c : Option Comparator) : (readThreshold c).Shifts := by
  intro k stream
  unfold readThreshold
  rw [current_shifted]
  split
  next => exact return_shifted _
  next =>
    refine advance_shifted.bind fun after => ?_
    simp only [current_shifted, currentName_shifted]
    split
    next => exact return_shifted _
    next => exact fail_shifted _ _ _
  next => exact .ok _

theorem readExplosion_shifts (e : Expr) : (readExplosion e).Shifts := by
  intro k stream
  unfold readExplosion
  refine (readComparator_shifts k stream).bind fun read => ?_
  obtain ⟨c, stream⟩ := read
  refine (readThreshold_shifts c k stream).bind fun read => ?_
  obtain ⟨threshold, stream⟩ := read
  exact (built_shifted _).bind fun _ => .ok _

theorem readModifier_shifts (e : Expr) : (readModifier e).Shifts := by
  intro k stream
  unfold readModifier
  rw [current_shifted]
  split
  next => exact advance_shifted.bind fun _ => readSelection_shifts _ _ _ _
  next => exact advance_shifted.bind fun _ => readExplosion_shifts _ _ _
  next => exact .ok _

theorem readOperators_shifts (count : Nat) (e : Expr) : (readOperators count e).Shifts := by
  intro k stream
  induction count generalizing e stream with
  | zero => exact .ok _
  | succ count ih =>
    unfold readOperators
    simp only [current_shifted]
    split
    next =>
      refine advance_shifted.bind fun after => ?_
      simp only [current_shifted, currentName_shifted]
      split
      next =>
        refine advance_shifted.bind fun after => ?_
        split
        next => exact fail_shifted _ _ _
        next => exact (built_shifted _).bind fun _ => ih _ _
      next => exact fail_shifted _ _ _
    next => exact .ok _

/-- Modifiers make the same of an expression further on. -/
theorem readModifiers_shifted (e : Expr) :
    Shifted k id (readModifiers e stream) (readModifiers e (stream.shifted k)) := by
  unfold readModifiers
  refine (readModifier_shifts e k stream).bind fun read => ?_
  obtain ⟨e, stream⟩ := read
  refine (readOperators_shifts 2 e k stream).bind fun read => ?_
  obtain ⟨e, stream⟩ := read
  simp only [Prod.map_apply, id_eq, current_shifted]
  split
  next => exact .ok _
  next => exact fail_shifted _ _ _

/-- **A segment of dice gives the same expression further on.** Positions are
only counted by readers, and never looked at. -/
theorem readSegment_shifts :
    Shifted k id (readSegment stream) (readSegment (stream.shifted k)) := by
  unfold readSegment
  refine (readDice_shifts k stream).bind fun read => ?_
  obtain ⟨e, stream⟩ := read
  exact readModifiers_shifted e

/-! ## Segments and sums -/

/-- A parenthesis without a partner is found further on, or there is none in
either place. -/
theorem unbalanced?_shifted (depth index : Nat) (text : Text) :
    (unbalanced? depth index text = none ∧ unbalanced? depth (index + k) text = none) ∨
    ∃ (fault : Fault) (position : Nat),
      unbalanced? depth index text = some (fault.located position) ∧
      unbalanced? depth (index + k) text = some (fault.located (position + k)) := by
  induction text generalizing depth index with
  | nil =>
    simp only [unbalanced?]
    split
    next => exact .inl ⟨rfl, rfl⟩
    next => exact .inr ⟨_, _, rfl, rfl⟩
  | cons c rest ih =>
    simp only [unbalanced?, Nat.add_right_comm index k]
    split
    next => exact ih _ _
    next =>
      split
      next => cases depth with
        | zero => exact .inr ⟨_, _, rfl, rfl⟩
        | succ depth => exact ih _ _
      next => exact ih _ _

/-- A text is cut into the same segments further on. If it cannot be cut, the
error is the same one, moved along. -/
theorem segments_shifted (offset : Nat) (text : Text) :
    Shifted k id (segments offset text) (segments (offset + k) text) := by
  unfold segments
  rcases unbalanced?_shifted (k := k) 0 offset text with
    ⟨here, there⟩ | ⟨fault, position, here, there⟩
  · rw [here, there]
    exact .ok _
  · rw [here, there]
    exact .error fault position

/-- Whether texts are read as the same further on. The segments visited are left
out of it: their offsets change. -/
def Shifts (read : Nat → Text → Reading Expr) : Prop :=
  ∀ k offset text, Shifted k id (read offset text).result (read (offset + k) text).result

variable {read : Nat → Text → Reading Expr}

/-- Segments that are read one after the other give the same further on. -/
theorem Shifts.readAll (shifts : Shifts read) (pieces : List Text) :
    -- what was visited before does not count
    ∀ (offset : Nat) (visits visits' : Array Visit) (trees : List Expr),
      Shifted k id (readAll read offset visits trees pieces).result
        (readAll read (offset + k) visits' trees pieces).result := by
  induction pieces with
  | nil => exact fun offset visits visits' trees => .ok _
  | cons piece rest ih =>
    intro offset visits visits' trees
    have next : offset + k + piece.byteLength + 1 = offset + piece.byteLength + 1 + k := by omega
    rw [readAll_cons, readAll_cons, next]
    match (read offset piece).result, (read (offset + k) piece).result, shifts k offset piece with
    | _, _, .ok tree => exact ih _ _ _ _
    | _, _, .error fault position => exact .error fault position

/-- A text is read as the same further on if its segments are. Blank texts are
read as the same anyway. -/
theorem Shifts.readText (shifts : Shifts read) : Shifts (readText read) := by
  intro k offset text
  unfold Notation.readText
  split
  next => exact .ok _
  next =>
    have cut : Shifted k id _ _ := segments_shifted offset text
    match segments offset text, segments (offset + k) text, cut with
    | _, _, .error fault position => exact .error fault position
    | _, _, .ok pieces =>
      exact (shifts.readAll pieces offset #[] #[] []).bind fun trees => .ok (combine trees)

/-- What is in parentheses begins one byte behind them, further on as well. -/
theorem Shifts.readNested {inner : Option (Nat → Text → Reading Expr)}
    (shifts : ∀ read ∈ inner, Shifts read) : Shifts (readNested inner) := by
  intro k offset text
  unfold Notation.readNested
  cases inner with
  | none => exact .error _ offset
  | some read =>
    dsimp only
    cases splitAtClose 0 [] text with
    | none => exact .error _ offset
    | some parts =>
      obtain ⟨interior, rest⟩ := parts
      dsimp only
      rw [Nat.add_right_comm offset k 1]
      split
      next => exact .error _ (offset + 1)
      next =>
        -- what is behind the parentheses is moved as far as what is in them
        have place : offset + k + interior.byteLength + 2 =
            offset + interior.byteLength + 2 + k := by omega
        refine Shifted.bind ((shifts read rfl).readText k (offset + 1) interior) fun e => ?_
        rw [place, ofText_shifted k _ rest]
        exact ready_shifted.bind fun stream => readModifiers_shifted e

theorem Shifts.readPiece {inner : Option (Nat → Text → Reading Expr)}
    (shifts : ∀ read ∈ inner, Shifts read) : Shifts (readPiece inner) := by
  intro k offset text
  unfold Notation.readPiece
  simp only [Nat.add_right_comm offset k]
  split
  next => exact .error _ _
  next first rest _ =>
    split
    next => exact Shifts.readNested shifts k _ rest
    next =>
      rw [ofText_shifted k]
      exact ready_shifted.bind fun stream => readSegment_shifts

/-- With any number of levels segments are read as the same further on. The
induction is on the levels. -/
theorem readPieceWithin_shifts (levels : Nat) : Shifts (readPieceWithin levels) := by
  induction levels with
  | zero => exact Shifts.readPiece (by simp)
  | succ levels ih => exact Shifts.readPiece (by simpa using ih)

end Dice.Notation
