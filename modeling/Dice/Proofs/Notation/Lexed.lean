import Dice.Proofs.Notation.Spelling

/-!
# The tokens of a text

`Lexes text tokens` says that a text consists of the given tokens, with
nothing at fault. Where the text begins makes no difference to its tokens, and
neither do the blanks around it: a blank in front of a token is passed over,
and a blank behind a token is nothing that the token could go on with. No
token is a negative number, since the minus sign is a token of its own.

Streams are compared by `Agrees`, which looks at tokens and the fault and
forgets positions. Both facts are inductions over the characters of the text,
where the reader is either inside of a token, whose characters it passes over,
or looks at what stands at the front of the rest.

What blanks are is a list of characters, so a property of all of them is
decided by going through the list (`forall_isBlank`).

Main statements: `holds_ofText_iff`, `lexes_trim_iff` and `unsigned_ofText`.
-/

namespace Dice.Notation

open Text

variable {text rest : Text} {tokens : List Token}

/-- Whether a text consists of the given tokens, and nothing in it is at fault.
Where the text begins makes no difference. -/
def Lexes (text : Text) (tokens : List Token) : Prop := (TokenStream.ofText 0 text).Holds tokens

namespace TokenStream

/-- Whether two streams have the same tokens and the same fault after them,
wherever they are. -/
structure Agrees (stream other : TokenStream) : Prop where
  tokens_eq : stream.tokens.map (·.token) = other.tokens.map (·.token)
  fault_eq : stream.fault = other.fault

/-- Streams that agree hold the same tokens. -/
theorem Agrees.holds_iff {stream other : TokenStream} (agrees : stream.Agrees other) :
    stream.Holds tokens ↔ other.Holds tokens := by
  constructor
  · intro holds
    exact ⟨agrees.fault_eq ▸ holds.sound, agrees.tokens_eq ▸ holds.tokens_eq⟩
  · intro holds
    exact ⟨agrees.fault_eq ▸ holds.sound, agrees.tokens_eq ▸ holds.tokens_eq⟩

theorem Agrees.trans {a b c : TokenStream} (first : a.Agrees b) (second : b.Agrees c) :
    a.Agrees c :=
  ⟨first.tokens_eq.trans second.tokens_eq, first.fault_eq.trans second.fault_eq⟩

/-- Positions do not decide what is read. The induction is on the text, with
what was `seen` so far on both sides. -/
theorem agrees_scan (text : Text) : ∀ (skip position other : Nat) {seen seen' : List PlacedToken},
    seen.map (·.token) = seen'.map (·.token) →
      (scan skip position seen text).Agrees (scan skip other seen' text) := by
  induction text with
  | nil =>
    intro skip position other seen seen' same
    exact ⟨by simp [scan, same], by simp [scan]⟩
  | cons c rest ih =>
    intro skip position other seen seen' same
    cases skip with
    | succ skip => exact ih skip _ _ same
    | zero =>
      unfold scan
      cases Lexeme.read c rest with
      | blank => exact ih 0 _ _ same
      | token found width => exact ih (width - 1) _ _ (by simp [same])
      | broken fault width => exact ⟨by simp [same], rfl⟩

end TokenStream

/-- A text has the same tokens wherever it begins. -/
theorem holds_ofText_iff (position : Nat) :
    (TokenStream.ofText position text).Holds tokens ↔ Lexes text tokens :=
  (TokenStream.agrees_scan text 0 position 0 rfl).holds_iff

/-! ## Blanks behind a token -/

/-- What holds of the listed characters holds of every blank. There are
twenty-five of them, so each can be looked at. -/
theorem forall_isBlank {p : Char → Prop} [DecidablePred p]
    (each : (Text.blanks.all fun n => decide (p (Char.ofNat n))) = true) :
    ∀ c, isBlank c = true → p c := by
  intro c blank
  have mem : c.toNat ∈ Text.blanks := List.contains_iff_mem.1 blank
  have holds := of_decide_eq_true (List.all_eq_true.1 each c.toNat mem)
  rwa [Char.ofNat_toNat] at holds

/-- A blank is nothing that a number, a word or the letter of a die could go on
with. -/
theorem ends_at_blank : ∀ c, isBlank c = true →
    c.isDigit = false ∧ isAlphabetic c = false ∧ c.toLower ≠ 'h' ∧ c.toLower ≠ 'l' :=
  forall_isBlank (by decide +kernel)

/-- What is taken from the front of a text ends at blanks behind it at the
latest. -/
theorem takeWhile_append_blanks {p : Char → Bool} (ends : ∀ c, isBlank c = true → p c = false)
    (blanks : rest.blank = true) (text : Text) :
    (text ++ rest).takeWhile p = text.takeWhile p := by
  induction text with
  | nil =>
    cases rest with
    | nil => rfl
    | cons c rest =>
      have blank : isBlank c = true := List.all_eq_true.1 blanks c (by simp)
      simp [ends c blank]
  | cons c text ih => by_cases more : p c = true <;> simp [more, ih]

theorem ofLetters?_append_blanks (blanks : rest.blank = true) (first : Char) (text : Text) :
    Token.ofLetters? first (text ++ rest) = Token.ofLetters? first text := by
  cases text with
  | cons c text => rfl
  | nil =>
    cases rest with
    | nil => rfl
    | cons c rest =>
      have blank : isBlank c = true := List.all_eq_true.1 blanks c (by simp)
      obtain ⟨-, -, h, l⟩ := ends_at_blank c blank
      unfold Token.ofLetters?
      rw [List.nil_append, List.head?_cons, List.head?_nil, Option.map_some, Option.map_none]
      split <;> simp_all

/-- What stands at the front of a text does not depend on blanks behind it. No
token ends in a blank or needs one. -/
theorem read_append_blanks (blanks : rest.blank = true) (first : Char) (text : Text) :
    Lexeme.read first (text ++ rest) = Lexeme.read first text := by
  have digits := takeWhile_append_blanks (fun c blank => (ends_at_blank c blank).1) blanks
    (first :: text)
  have word := takeWhile_append_blanks (fun c blank => (ends_at_blank c blank).2.1) blanks
    (first :: text)
  rw [List.cons_append] at digits word
  simp only [Lexeme.read, digits, word, ofLetters?_append_blanks blanks]

/-- A blank text has no tokens, also if the reader begins inside of one. It has
no fault either. -/
theorem agrees_scan_blanks (text : Text) : ∀ (skip position : Nat) (seen : List PlacedToken),
    text.blank = true →
      (TokenStream.scan skip position seen text).Agrees ⟨seen.reverse, none, position⟩ := by
  induction text with
  | nil =>
    intro skip position seen blanks
    exact ⟨by simp [TokenStream.scan], by simp [TokenStream.scan]⟩
  | cons c rest ih =>
    intro skip position seen blanks
    have both : isBlank c = true ∧ blank rest = true := by simpa [blank] using blanks
    cases skip with
    | succ skip => exact (ih skip (position + 1) seen both.2).trans ⟨rfl, rfl⟩
    | zero =>
      have passed : Lexeme.read c rest = .blank := by simp [Lexeme.read, both.1]
      unfold TokenStream.scan
      rw [passed]
      exact (ih 0 (position + 1) seen both.2).trans ⟨rfl, rfl⟩

/-- Reading on with blanks behind the text gives the same tokens, and the same
fault. -/
theorem agrees_scan_append_blanks (blanks : rest.blank = true) (text : Text) :
    ∀ (skip position : Nat) (seen : List PlacedToken),
      (TokenStream.scan skip position seen (text ++ rest)).Agrees
        (TokenStream.scan skip position seen text) := by
  induction text with
  | nil =>
    intro skip position seen
    exact agrees_scan_blanks rest skip position seen blanks
  | cons c text ih =>
    intro skip position seen
    cases skip with
    | succ skip => exact ih skip _ _
    | zero =>
      rw [List.cons_append]
      unfold TokenStream.scan
      rw [read_append_blanks blanks]
      cases Lexeme.read c text with
      | blank => exact ih 0 _ _
      | token found width => exact ih (width - 1) _ _
      | broken fault width => exact ⟨rfl, rfl⟩

/-! ## Blanks around a text -/

/-- Blanks behind a text are no part of its tokens. -/
theorem lexes_append_blanks_iff (blanks : rest.blank = true) :
    Lexes (text ++ rest) tokens ↔ Lexes text tokens :=
  (agrees_scan_append_blanks blanks text 0 0 []).holds_iff

theorem lexes_trimEnd_iff : Lexes text.trimEnd tokens ↔ Lexes text tokens := by
  obtain ⟨rest, blanks, whole⟩ := exists_trimEnd_append text
  rw [← lexes_append_blanks_iff blanks, whole]

theorem lexes_trimStart_iff : Lexes text.trimStart tokens ↔ Lexes text tokens := by
  induction text with
  | nil => exact Iff.rfl
  | cons c rest ih =>
    by_cases blank : isBlank c = true
    · have passed : Lexeme.read c rest = .blank := by simp [Lexeme.read, blank]
      have step : (TokenStream.ofText 0 (c :: rest)).Agrees (TokenStream.ofText 1 rest) := by
        rw [TokenStream.ofText, TokenStream.scan, passed]
        exact ⟨rfl, rfl⟩
      rw [show trimStart (c :: rest) = trimStart rest by simp [trimStart, blank], ih]
      exact (holds_ofText_iff 1).symm.trans step.holds_iff.symm
    · rw [show trimStart (c :: rest) = c :: rest by simp [trimStart, blank]]

/-- **The blanks around a text are no part of its tokens.** So it makes no
difference that segments are trimmed before they are read. -/
theorem lexes_trim_iff : Lexes text.trimStart.trimEnd tokens ↔ Lexes text tokens :=
  lexes_trimEnd_iff.trans lexes_trimStart_iff

/-! ## Numbers -/

/-- Whether no number among some tokens is negative. Signs are tokens of their
own, so this holds of whatever is read. -/
def Unsigned (tokens : List PlacedToken) : Prop :=
  ∀ placed ∈ tokens, ∀ value, placed.token = .number value → 0 ≤ value.val

theorem ofLetters?_ne_number (first : Char) (rest : Text) (value : Score) (width : Nat) :
    Token.ofLetters? first rest ≠ some (.number value, width) := by
  unfold Token.ofLetters?
  split <;> simp

theorem ofSymbol?_ne_number (c : Char) (value : Score) :
    Token.ofSymbol? c ≠ some (.number value) := by
  unfold Token.ofSymbol?
  split
  all_goals first | (split <;> simp) | simp

/-- A number that is read was written with digits, and is not negative. Neither
letters nor symbols are read as one. -/
theorem nonneg_of_read {first : Char} {rest : Text} {value : Score} {width : Nat}
    (read : Lexeme.read first rest = .token (.number value) width) : 0 ≤ value.val := by
  unfold Lexeme.read at read
  split at read
  next => cases read
  next =>
    split at read
    -- only a digit begins a number, and then there is no sign in front of it
    next digit =>
      dsimp only at read
      split at read
      next ok =>
        cases read
        rw [List.takeWhile_cons_of_pos digit] at ok
        exact Score.nonneg_of_read digit ok
      next => cases read
    next =>
      split at read
      next =>
        split at read
        next letters =>
          cases read
          exact absurd letters (ofLetters?_ne_number first rest value width)
        next => cases read
      next =>
        split at read
        next symbol =>
          cases read
          exact absurd symbol (ofSymbol?_ne_number first value)
        next => cases read

theorem unsigned_scan {skip position : Nat} {seen : List PlacedToken} {text : Text}
    (unsigned : Unsigned seen) : Unsigned (TokenStream.scan skip position seen text).tokens := by
  have back : ∀ {tokens}, Unsigned tokens → Unsigned tokens.reverse := fun h placed hp =>
    h placed (List.mem_reverse.1 hp)
  induction text generalizing skip position seen with
  | nil => exact back unsigned
  | cons c rest ih =>
    unfold TokenStream.scan
    split
    next => exact ih unsigned
    next =>
      split
      next => exact ih unsigned
      next found width read =>
        refine ih (List.forall_mem_cons.2 ⟨fun value number => ?_, unsigned⟩)
        have same : found = .number value := number
        exact nonneg_of_read (same ▸ read)
      next => exact back unsigned

/-- No number among the tokens of a text is negative. The least score can
therefore not be written as a face or a threshold. -/
theorem unsigned_ofText (position : Nat) (text : Text) :
    Unsigned (TokenStream.ofText position text).tokens := unsigned_scan (by simp [Unsigned])

end Dice.Notation
