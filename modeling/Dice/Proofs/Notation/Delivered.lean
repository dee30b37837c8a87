import Dice.Proofs.Notation.Faces

/-!
# Tokens one after the other

What a reader comes upon as it goes on in a stream. `Delivers stream tokens`
says that it gets the tokens in order and then finds the end, however often it
goes on from there. That is so exactly for a stream that has these tokens and
no fault, and hence for a text that is spelt by them (`delivers_iff_spelt`).

So spelling is undone by reading. Each token is written in one of its ways
(`Token.WrittenIn`), a number in digits and the others by their symbol or in
letters of either case, and what is written is put together. With blanks
between each two of them (`Spaced`) the tokens always come back. With nothing
in between they come back exactly if no number follows another: the digits of
two numbers would be those of one, while no other token begins with what the
one before it could go on with.

Digits are given their value without the reader of scores (`Decimal`), so that
neither the statement nor what a token is written in depends on it.

Main statement: `delivers_of_written`.
-/

namespace Dice.Notation

open Text

variable {stream later : TokenStream} {token : Token} {tokens : List Token} {text : Text}
  {pieces : List Text} {value : Score} {n : Nat}

/-! ## Going on in a stream -/

namespace TokenStream

/-- The stream whose reader has gone on a number of times. With none it is the
stream as it is handed out. -/
def after (stream : TokenStream) : Nat → Except ParseError TokenStream
  | 0 => stream.ready
  | n + 1 => do (← stream.after n).advance

/-- Whether a reader gets the given tokens in order, and then finds the end for
ever. -/
def Delivers (stream : TokenStream) (tokens : List Token) : Prop :=
  ∀ n, ∃ later, stream.after n = .ok later ∧ later.current = tokens[n]?

/-- A reader that meets no fault has the rest of the tokens in front of it, and
at the end the end, however often it goes on. -/
theorem Holds.after (holds : stream.Holds tokens) (n : Nat) :
    ∃ later, stream.after n = .ok later ∧ later.Holds (tokens.drop n) := by
  induction n with
  | zero => exact ⟨stream, holds.ready, holds⟩
  | succ n ih =>
    obtain ⟨later, ok, left⟩ := ih
    refine ⟨{ later with tokens := later.tokens.tail }, ?_, left.sound, ?_⟩
    · rw [TokenStream.after, ok]
      exact advance_of_sound left.sound
    · rw [List.map_tail, left.tokens_eq, List.tail_drop]

/-- Going on takes tokens away from the front, and goes no further than can be
read. -/
theorem eq_drop_of_after (ok : stream.after n = .ok later) :
    later = { stream with tokens := stream.tokens.drop n } ∧ later.ready = .ok later := by
  induction n generalizing later with
  | zero =>
    obtain rfl := eq_of_ready ok
    exact ⟨rfl, ok⟩
  | succ n ih =>
    obtain ⟨before, gone, ok⟩ := bind_ok ok
    obtain ⟨rfl, -⟩ := ih gone
    obtain rfl := eq_of_ready ok
    exact ⟨by rw [List.tail_drop], ok⟩

/-- At the end of a stream nothing is in the way but a fault. -/
theorem sound_of_ready {fault : Option Fault} {stop : Nat}
    (ok : ready ⟨[], fault, stop⟩ = .ok later) : fault = none := by
  cases fault with
  | none => rfl
  | some fault => cases ok

/-- A stream delivers what it holds. If it delivers tokens it has no others, and
having come to the end it has no fault either. -/
theorem delivers_iff_holds : stream.Delivers tokens ↔ stream.Holds tokens := by
  constructor
  · intro delivers
    constructor
    · -- the reader has gone past all tokens, so nothing stands in its way
      obtain ⟨later, ok, -⟩ := delivers stream.tokens.length
      obtain ⟨rfl, ready⟩ := eq_drop_of_after ok
      rw [List.drop_length] at ready
      exact sound_of_ready ready
    · refine List.ext_getElem? fun n => ?_
      obtain ⟨later, ok, current⟩ := delivers n
      obtain ⟨rfl, -⟩ := eq_drop_of_after ok
      rw [← current, TokenStream.current, List.head?_drop, List.getElem?_map]
  · intro holds n
    obtain ⟨later, ok, left⟩ := holds.after n
    exact ⟨later, ok, by rw [left.current_eq, List.head?_drop]⟩

end TokenStream

/-- **A text delivers exactly the tokens that it is spelt by.** So what can be
seen from outside is the same as what the spelling says. -/
theorem delivers_iff_spelt (position : Nat) :
    (TokenStream.ofText position text).Delivers tokens ↔ Spelt text tokens := by
  rw [TokenStream.delivers_iff_holds, holds_ofText_iff, lexes_iff_spelt]

/-! ## Written tokens -/

/-- Whether a text is one of the ways to write a token: a number in digits that
have its value, any other token by its symbol or in its letters, each of either
case. -/
def Token.WrittenIn : Token → Text → Prop
  | number value, text => ∃ n : Nat, Decimal text n ∧ value.val = n
  | token, text => text.map Char.toLower = token.spelling.map Char.toLower

/-- Digits have the value that they are read as. For all other tokens there is
nothing to compare. -/
theorem Token.writtenIn_iff_spelledBy : token.WrittenIn text ↔ token.SpelledBy text := by
  cases token with
  | number value =>
    constructor
    · intro written
      obtain ⟨n, decimal, same⟩ := written
      exact ⟨decimal.all, (Score.read_eq_ok_iff decimal.all).2 ⟨n, decimal, same⟩⟩
    · intro spelled
      obtain ⟨all, read⟩ := spelled
      exact (Score.read_eq_ok_iff all).1 read
  | _ => exact Iff.rfl

/-- Every token can be written but negative numbers. These are never read
either. -/
theorem Token.exists_writtenIn_iff : (∃ text, token.WrittenIn text) ↔ token.Spellable := by
  constructor
  · intro written
    obtain ⟨text, written⟩ := written
    cases token with
    | number value =>
      obtain ⟨n, -, same⟩ := written
      show 0 ≤ value.val
      omega
    | _ => trivial
  · intro spellable
    exact ⟨token.spelling, writtenIn_iff_spelledBy.2 (spelledBy_spelling spellable)⟩

/-! ## Spellings with blanks between them -/

/-- Whether a text is some pieces in order, with a run of blanks between each
two of them. -/
inductive Spaced : List Text → Text → Prop
  | nil : Spaced [] []
  | last (piece : Text) : Spaced [piece] piece
  | cons {piece gap next text : Text} {pieces : List Text} (some : gap ≠ [])
    (blank : gap.blank = true) (after : Spaced (next :: pieces) text) :
    Spaced (piece :: next :: pieces) (piece ++ (gap ++ text))

/-- Pieces that spell tokens do so with blanks between them, as every token ends
in front of a blank. -/
theorem Spaced.spelt (spaced : Spaced pieces text)
    (spelled : List.Forall₂ Token.SpelledBy tokens pieces) : Spelt text tokens := by
  induction spaced generalizing tokens with
  | nil =>
    cases spelled
    exact .nil
  | last piece =>
    obtain ⟨token, rest, own, none, rfl⟩ := List.forall₂_cons_right_iff.1 spelled
    cases none
    simpa using Spelt.token own (separate_nil.ends token) .nil
  | @cons piece gap next text pieces some blank after ih =>
    obtain ⟨token, rest, own, others, rfl⟩ := List.forall₂_cons_right_iff.1 spelled
    have separate : Separate (gap ++ text) := by
      obtain ⟨c, gap, rfl⟩ := List.exists_cons_of_ne_nil some
      exact separate_blank (List.all_eq_true.1 blank c (by simp)) _
    exact .token own (separate.ends token) (.behind_blanks blank (ih others))

/-! ## Spellings with nothing between them -/

theorem solid_flatten (spelled : List.Forall₂ Token.SpelledBy tokens pieces) :
    Solid pieces.flatten := by
  induction spelled with
  | nil => simp [Solid]
  | cons own others ih => exact Solid.append (fun c mem => (own.of_mem c mem).1) ih

/-- Where there are no blanks, a number begins with the first character. -/
theorem Spelt.isDigit_of_number (spelt : Spelt text (.number value :: tokens))
    (solid : Solid text) : ∃ c ∈ text.head?, c.isDigit = true := by
  cases spelt with
  | @blank c rest _ blank _ =>
    rw [solid c (by simp)] at blank
    cases blank
  | @token front rest _ _ spelled _ _ =>
    cases front with
    | nil => exact absurd rfl spelled.ne_nil
    | cons first tail => exact ⟨first, rfl, spelled.1 first (by simp)⟩

/-- Where there are no blanks, no number follows another: it would go on with
the digits of the other one. -/
theorem Spelt.apart (spelt : Spelt text tokens) (solid : Solid text) : Apart tokens := by
  induction spelt with
  | nil => exact .nil
  | @blank c rest tokens blank after ih =>
    rw [solid c (by simp)] at blank
    cases blank
  | @token front rest token tokens spelled ends after ih =>
    have left : Solid rest := fun c mem => solid c (by simp [mem])
    refine List.isChain_cons.2 ⟨fun next head number => ?_, ih left⟩
    obtain ⟨more, rfl⟩ := List.head?_eq_some_iff.1 head
    cases next with
    | number other =>
      cases token with
      | number value =>
        obtain ⟨c, first, digit⟩ := after.isDigit_of_number left
        rw [ends c first] at digit
        cases digit
      | _ => cases number
    | _ => rfl

/-! ## Reading what is written -/

/-- **Reading undoes spelling.** Tokens that are written with blanks between
each two of them come back, one after the other, and then there is the end for
ever. With nothing between them they come back exactly if no number follows
another. -/
theorem delivers_of_written (written : List.Forall₂ Token.WrittenIn tokens pieces)
    (position : Nat) :
    (∀ text, Spaced pieces text → (TokenStream.ofText position text).Delivers tokens) ∧
      ((TokenStream.ofText position pieces.flatten).Delivers tokens ↔ Apart tokens) := by
  have spelled : List.Forall₂ Token.SpelledBy tokens pieces :=
    written.imp fun _ _ => Token.writtenIn_iff_spelledBy.1
  constructor
  · intro text spaced
    exact (delivers_iff_spelt position).2 (spaced.spelt spelled)
  · rw [delivers_iff_spelt]
    exact ⟨fun spelt => spelt.apart (solid_flatten spelled), spelt_flatten spelled⟩

/-- The greatest number, a letter that could be taken for the one behind it, and
leading zeros. -/
def crowdedPieces : List Text :=
  ["9223372036854775807".toList, ['d'], ['d', 'L'], ['0', '0', '7']]

/-- The tokens that these pieces spell. -/
def crowdedTokens : List Token := [.number .highest, .dice, .selection .dropLowest, .number 7]

/-- The blanks are a space, a tab, and a line break behind a blank of three
bytes. -/
theorem delivers_of_written_crowded :
    (TokenStream.ofText 0 "9223372036854775807 d\tdL\u3000\n007".toList).Delivers crowdedTokens ∧
      (TokenStream.ofText 0 "9223372036854775807ddL007".toList).Delivers crowdedTokens ∧
      ¬ (TokenStream.ofText 0 "47".toList).Delivers [.number 4, .number 7] := by
  have seven : Decimal ['0', '0', '7'] 7 := ⟨by simp, forall_mem (by decide), rfl⟩
  have crowded : List.Forall₂ Token.WrittenIn crowdedTokens crowdedPieces :=
    .cons ⟨9223372036854775807, decimal_ofNat 9223372036854775807, rfl⟩
      (.cons rfl (.cons rfl (.cons ⟨7, seven, rfl⟩ .nil)))
  have spaced : Spaced crowdedPieces ("9223372036854775807".toList ++ ([' '] ++ (['d'] ++
      (['\t'] ++ (['d', 'L'] ++ (['\u3000', '\n'] ++ ['0', '0', '7'])))))) :=
    .cons (by decide) (by decide) (.cons (by decide) (by decide)
      (.cons (by decide) (by decide) (.last _)))
  have apart : Apart crowdedTokens := by
    unfold Apart
    decide
  have touching : List.Forall₂ Token.WrittenIn [.number 4, .number 7] [['4'], ['7']] :=
    .cons ⟨4, decimal_ofNat 4, rfl⟩ (.cons ⟨7, decimal_ofNat 7, rfl⟩ .nil)
  refine ⟨(delivers_of_written crowded 0).1 _ spaced, (delivers_of_written crowded 0).2.2 apart, ?_⟩
  intro delivers
  have apart := (delivers_of_written touching 0).2.1 delivers
  cases (List.isChain_cons_cons.1 apart).1 rfl

end Dice.Notation
