import Dice.Notation.Compile

/-!
# What a reader reports

A reader of tokens fails in one of two ways. The stream ends with a fault of
its own, and the reader has come so far that this is the next thing it needs;
or the grammar asks for something else than what stands there, and that is
reported at a position of the stream. Which faults may be reported where is a
relation `P`: if a stream allows it, every reader keeps to it, and so does the
stream that the reader leaves (`Reader.Keeps`).

There is one such lemma for each reader of the grammar, with the same proof:
the reader is taken apart into its steps, and each of them either fails at a
position of the stream or leaves a stream that allows as much.

Several relations are put in for `P` later: that faults stay within the text,
that they are none of parentheses, and where invalid characters stand.

Main statements: `readSegment_keeps` and `readModifiers_keeps`, and
`allows_ofText`, for the positions of a text.
-/

namespace Dice.Notation

variable {α β : Type} {P : Fault → Nat → Prop} {p : α → Prop} {q : β → Prop}

namespace Fault

/-- Whether a fault is one of the grammar: something in a place where it does
not belong, a number out of its range, or a node that cannot be built. -/
def Grammatical : Fault → Prop
  | unknownAlgorithm _ | construction _ | missingDice _ | missingOperand _ | unexpectedToken _
  | outOfRange _ => True
  | _ => False

/-- Whether a fault is one of the text: characters that make no token. Such
faults come with the stream. -/
def Lexical : Fault → Prop
  | invalidToken _ | number _ | unknownAlgorithm _ | unexpectedToken _ => True
  | _ => False

/-- A node that cannot be built is a fault of the grammar. -/
theorem grammatical_ofBuildError (error : BuildError) : (ofBuildError error).Grammatical := by
  cases error <;> trivial

end Fault

/-- Whether a result is a value with a property, or a fault where it may be
reported. -/
inductive Reported (P : Fault → Nat → Prop) (p : α → Prop) : Except ParseError α → Prop
  | ok {value : α} (holds : p value) : Reported P p (.ok value)
  | error {fault : Fault} {position : Nat} (allowed : P fault position) :
    Reported P p (.error (fault.located position))

/-- Two steps report what may be reported if each of them does. The second one
may rely on what the first one gave. -/
theorem Reported.bind {result : Except ParseError α} {next : α → Except ParseError β}
    (reported : Reported P p result) (each : ∀ value, p value → Reported P q (next value)) :
    Reported P q (result >>= next) := by
  cases reported with
  | ok holds => exact each _ holds
  | error allowed => exact .error allowed

theorem Reported.mono {Q : Fault → Nat → Prop} {result : Except ParseError α}
    (reported : Reported P p result) (le : ∀ fault position, P fault position → Q fault position) :
    Reported Q p result := by
  cases reported with
  | ok holds => exact .ok holds
  | error allowed => exact .error (le _ _ allowed)

/-! ## Streams -/

namespace TokenStream

/-- The positions of a stream: after each token, and where there are no more. A
reader never reports any other. -/
def marks (stream : TokenStream) : List Nat := stream.stop :: stream.tokens.map (·.stop)

/-- Whether faults of the grammar may be reported at all positions of a stream,
and its own fault at its end. -/
structure Allows (P : Fault → Nat → Prop) (stream : TokenStream) : Prop where
  own : ∀ fault ∈ stream.fault, P fault stream.stop
  grammar : ∀ position ∈ stream.marks, ∀ fault : Fault, fault.Grammatical → P fault position

variable {stream : TokenStream}

/-- Where the reader is in a stream is a position of it. -/
theorem reached_mem_marks (stream : TokenStream) : stream.reached ∈ stream.marks := by
  obtain ⟨tokens, fault, stop⟩ := stream
  match tokens with
  | [] | [_] => simp [reached, marks]
  | first :: next :: rest => simp [reached, marks]

/-- A fault of the grammar is reported at a position of the stream, which is the
one that the reader has reached. -/
theorem Allows.reported_fail (allows : stream.Allows P) {fault : Fault}
    (grammatical : fault.Grammatical) : Reported P p (stream.fail fault) :=
  .error (allows.grammar _ stream.reached_mem_marks _ grammatical)

/-- A stream from which the reader cannot go on reports its own fault, at the
position where its tokens end. -/
theorem Allows.reported_ready (allows : stream.Allows P) :
    Reported P (Allows P) stream.ready := by
  unfold ready
  split
  next => exact .ok allows
  next => exact .ok allows
  next fault own _ => exact .error (allows.own fault own)

/-- What is left of a stream has no other positions. So readers keep to the
positions of the first stream. -/
theorem Allows.tail (allows : stream.Allows P) :
    Allows P { stream with tokens := stream.tokens.tail } := by
  refine ⟨allows.own, fun position mem => allows.grammar position ?_⟩
  simp only [marks, List.map_tail, List.mem_cons] at mem ⊢
  exact mem.imp_right List.mem_of_mem_tail

theorem Allows.reported_advance (allows : stream.Allows P) :
    Reported P (Allows P) stream.advance := allows.tail.reported_ready

end TokenStream

/-! ## Readers of tokens -/

/-- Whether a reader reports only what the stream allows, and leaves a stream
that allows it again. -/
def Reader.Keeps (P : Fault → Nat → Prop) (reader : Reader α) : Prop :=
  ∀ stream, stream.Allows P → Reported P (fun read => read.2.Allows P) (reader stream)

variable {stream : TokenStream}

/-- What a constructor refuses is reported where the reader is. Nothing is said
of what is built. -/
theorem reported_built (allows : stream.Allows P) (made : Except BuildError α) :
    Reported P (fun _ => True) (built stream made) := by
  cases made with
  | ok value => exact .ok trivial
  | error error => exact allows.reported_fail (Fault.grammatical_ofBuildError error)

/-- A value that is already known, after one more token. -/
theorem reported_return (allows : stream.Allows P) (value : α) :
    Reported P (fun read : α × TokenStream => read.2.Allows P)
      (do return (value, ← stream.advance)) :=
  allows.reported_advance.bind fun _ after => .ok after

theorem readQuantity_keeps : readQuantity.Keeps P := by
  intro stream allows
  unfold readQuantity
  split
  next => exact reported_return allows _
  next => exact .ok allows

/-- A list of faces is read up to its closing bracket, or a fault is reported at
a position of the stream. -/
theorem reported_readFaces {fault : Option Fault} {stop : Nat} {placed : List PlacedToken}
    (allows : TokenStream.Allows P ⟨placed, fault, stop⟩) (part : FacePart) (seen : List Score) :
    Reported P (fun read => read.2.Allows P) (readFaces fault stop part seen placed) := by
  induction placed generalizing part seen with
  | nil => exact allows.reported_fail trivial
  | cons first rest ih =>
    have left : TokenStream.Allows P ⟨rest, fault, stop⟩ := allows.tail
    unfold readFaces
    split
    next => exact left.reported_ready.bind fun _ after => .ok after
    next => exact left.reported_ready.bind fun _ after => .ok after
    next => exact left.reported_ready.bind fun _ _ => ih left _ _
    next => exact left.reported_ready.bind fun _ _ => ih left _ _
    next => exact left.reported_ready.bind fun _ _ => ih left _ _
    next => exact left.reported_ready.bind fun _ _ => ih left _ _
    next => exact allows.reported_fail trivial

theorem readSize_keeps : readSize.Keeps P := by
  intro stream allows
  unfold readSize
  split
  next => exact (reported_built allows _).bind fun _ _ => reported_return allows _
  next => exact reported_return allows _
  next => exact reported_return allows _
  next =>
    refine allows.reported_advance.bind fun inside opened => ?_
    refine (reported_readFaces opened .entry []).bind fun read closed => ?_
    exact (reported_built closed _).bind fun _ _ => .ok closed
  next => exact .ok allows

theorem readDice_keeps : readDice.Keeps P := by
  intro stream allows
  unfold readDice
  refine (readQuantity_keeps stream allows).bind fun read counted => ?_
  obtain ⟨quantity, stream⟩ := read
  dsimp only at counted ⊢
  split
  next =>
    refine counted.reported_advance.bind fun opened after => ?_
    refine (readSize_keeps opened after).bind fun read sized => ?_
    split
    next => exact sized.reported_fail trivial
    next => exact .ok sized
  next => exact counted.reported_fail trivial

theorem readSelection_keeps (e : Expr) (rule : Selection) : (readSelection e rule).Keeps P := by
  intro stream allows
  unfold readSelection
  split
  next =>
    exact allows.reported_advance.bind fun _ after =>
      (reported_built after _).bind fun _ _ => .ok after
  next => exact (reported_built allows _).bind fun _ _ => .ok allows

theorem readComparator_keeps : readComparator.Keeps P := by
  intro stream allows
  unfold readComparator
  split
  next => exact reported_return allows _
  next => exact .ok allows

theorem readThreshold_keeps (c : Option Comparator) : (readThreshold c).Keeps P := by
  intro stream allows
  unfold readThreshold
  split
  next => exact reported_return allows _
  next =>
    refine allows.reported_advance.bind fun after signed => ?_
    split
    next => exact reported_return signed _
    next => exact signed.reported_fail trivial
  next => exact .ok allows

theorem readExplosion_keeps (e : Expr) : (readExplosion e).Keeps P := by
  intro stream allows
  unfold readExplosion
  refine (readComparator_keeps stream allows).bind fun read compared => ?_
  refine (readThreshold_keeps _ read.2 compared).bind fun read limited => ?_
  exact (reported_built limited _).bind fun _ _ => .ok limited

theorem readModifier_keeps (e : Expr) : (readModifier e).Keeps P := by
  intro stream allows
  unfold readModifier
  split
  next => exact allows.reported_advance.bind fun _ after => readSelection_keeps _ _ _ after
  next => exact allows.reported_advance.bind fun _ after => readExplosion_keeps _ _ after
  next => exact .ok allows

theorem readOperators_keeps (count : Nat) (e : Expr) : (readOperators count e).Keeps P := by
  intro stream allows
  induction count generalizing e stream with
  | zero => exact .ok allows
  | succ count ih =>
    unfold readOperators
    split
    next =>
      refine allows.reported_advance.bind fun _ marked => ?_
      split
      next =>
        refine marked.reported_advance.bind fun _ after => ?_
        split
        next => exact after.reported_fail trivial
        next => exact (reported_built after _).bind fun _ _ => ih _ _ after
      next => exact marked.reported_fail trivial
    next => exact .ok allows

/-- Modifiers are read to the end of the stream, or a fault is reported that the
stream allows. -/
theorem readModifiers_keeps (e : Expr) (allows : stream.Allows P) :
    Reported P (fun _ => True) (readModifiers e stream) := by
  unfold readModifiers
  refine (readModifier_keeps e stream allows).bind fun read modified => ?_
  refine (readOperators_keeps 2 _ read.2 modified).bind fun read operated => ?_
  dsimp only
  split
  next => exact .ok trivial
  next => exact operated.reported_fail trivial

/-- A segment of dice is read to the end of the stream, or a fault is reported
that the stream allows. -/
theorem readSegment_keeps (allows : stream.Allows P) :
    Reported P (fun _ => True) (readSegment stream) := by
  unfold readSegment
  exact (readDice_keeps stream allows).bind fun read counted => readModifiers_keeps _ counted

/-! ## Streams of a text -/

/-- A token takes no more characters than there are. So its position is not
behind the end of the text. -/
theorem Lexeme.width_le {first : Char} {rest : Text} {token : Token} {width : Nat}
    (read : Lexeme.read first rest = .token token width) : width ≤ rest.length + 1 := by
  unfold Lexeme.read at read
  split at read
  next => cases read
  next =>
    split at read
    next =>
      dsimp only at read
      split at read
      next =>
        cases read
        exact (List.takeWhile_sublist _).length_le
      next => cases read
    next =>
      split at read
      next =>
        split at read
        next found width letters =>
          cases read
          -- only the two letters of a selection rule are more than one character
          unfold Token.ofLetters? at letters
          cases rest with
          | nil =>
            rw [List.head?_nil, Option.map_none] at letters
            split at letters <;> simp_all
          | cons second rest =>
            rw [List.length_cons]
            split at letters <;> cases letters <;> omega
        next => cases read
      next =>
        split at read
        next =>
          cases read
          omega
        next => cases read

/-- What makes no token takes no more characters than there are, and is a fault
of the text. -/
theorem Lexeme.lexical_of_broken {first : Char} {rest : Text} {fault : Fault} {width : Nat}
    (read : Lexeme.read first rest = .broken fault width) :
    fault.Lexical ∧ width ≤ rest.length + 1 := by
  unfold Lexeme.read at read
  split at read
  next => cases read
  next =>
    split at read
    next =>
      dsimp only at read
      split at read
      next => cases read
      next =>
        cases read
        exact ⟨trivial, (List.takeWhile_sublist _).length_le⟩
    next =>
      split at read
      next =>
        split at read
        next => cases read
        next =>
          cases read
          refine ⟨?_, (List.takeWhile_sublist _).length_le⟩
          -- a stray word is taken for a rule or not, and both faults are lexical
          unfold strayWord
          split <;> trivial
      next =>
        split at read
        next => cases read
        next =>
          cases read
          exact ⟨trivial, Nat.zero_le _⟩

namespace TokenStream

/-- Whether faults of a segment may be reported up to a position. A reader that
stays in its segment stays below the limit. -/
def UpTo (P : Fault → Nat → Prop) (limit : Nat) : Prop :=
  ∀ fault : Fault, fault.Grammatical ∨ fault.Lexical → ∀ position ≤ limit, P fault position

/-- Reading on through a text places its tokens, and its fault if there is one,
at most as far on as there are characters. -/
theorem allows_scan {limit : Nat} (upTo : UpTo P limit) (text : Text) :
    ∀ (skip position : Nat) {seen : List PlacedToken}, position + text.length ≤ limit →
      (∀ placed ∈ seen, placed.stop ≤ limit) → (scan skip position seen text).Allows P := by
  -- wherever the scan stops, the positions are those of tokens seen and of the stop
  have stopped : ∀ {stop : Nat} {seen : List PlacedToken} {fault : Option Fault}, stop ≤ limit →
      (∀ placed ∈ seen, placed.stop ≤ limit) → (∀ own ∈ fault, own.Lexical) →
        Allows P ⟨seen.reverse, fault, stop⟩ := by
    intro stop seen fault le before lexical
    refine ⟨fun own mem => upTo own (.inr (lexical own mem)) _ le, fun position mem own holds =>
      upTo own (.inl holds) position ?_⟩
    rcases List.mem_cons.1 mem with rfl | mem
    · exact le
    · obtain ⟨placed, met, rfl⟩ := List.mem_map.1 mem
      exact before placed (List.mem_reverse.1 met)
  induction text with
  | nil =>
    intro skip position seen le before
    exact stopped le before (by simp)
  | cons c rest ih =>
    intro skip position seen le before
    have next : position + 1 + rest.length ≤ limit := by
      rw [List.length_cons] at le
      omega
    cases skip with
    | succ skip => exact ih skip _ next before
    | zero =>
      unfold scan
      cases read : Lexeme.read c rest with
      | blank => exact ih 0 _ next before
      | token found width =>
        have fits := Lexeme.width_le read
        exact ih _ _ next (List.forall_mem_cons.2 ⟨by dsimp only; omega, before⟩)
      | broken fault width =>
        obtain ⟨lexical, fits⟩ := Lexeme.lexical_of_broken read
        exact stopped (by omega) before (by simpa using lexical)

/-- The positions of a segment are in it, as far as a character is no more than
a byte. -/
theorem allows_ofText {position : Nat} {text : Text}
    (upTo : UpTo P (position + text.length)) : (ofText position text).Allows P :=
  allows_scan upTo text 0 position (Nat.le_refl _) (by simp)

end TokenStream

end Dice.Notation
