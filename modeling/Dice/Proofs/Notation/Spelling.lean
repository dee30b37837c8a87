import Mathlib.Data.List.Chain
import Dice.Notation.TokenStream
import Dice.Proofs.Score.Decimal

/-!
# Spelling tokens

Every token but a negative number has a spelling. A number takes all digits
that there are, but nothing else is spelled with digits, and no spelling
begins with the letter that would turn the letter of a die into a rule.

So the only tokens that run together when nothing is put between them are two
numbers, and lists without those are `Apart`. Numbers are also the only tokens
that digits can fail to be: past the range of scores they are at fault.

What a stream still holds is stated without positions (`TokenStream.Holds`),
as most of what follows does not depend on where a token stands.

Main statements: `Token.spelling_eq_cons`, and `ofText_of_lt`, a number past
the range of scores is no token.
-/

namespace Dice.Notation

namespace Token

/-- Whether a token is a number, which is what no number may follow. -/
def isNumber : Token → Bool
  | number _ => true
  | _ => false

/-- A token as it is written: a number in digits, and everything else with the
symbol or the letters that expressions are written with. -/
def spelling : Token → Text
  | number value => Text.ofNat value.val.natAbs
  | dice => ['D']
  | fudge => ['F']
  | percent => ['%']
  | leftBracket => ['[']
  | rightBracket => [']']
  | comma => [',']
  | operator op => [op.symbol]
  | explode => ['!']
  | comparator c => [c.symbol]
  | selection rule => rule.text

/-- Whether a token can be written: there are no digits for a negative number.
All other tokens have a spelling. -/
def Spellable : Token → Prop
  | number value => 0 ≤ value.val
  | _ => True

/-- A token begins with a digit only if it is a number, and never with a letter
that belongs to the one before it, or with a parenthesis. -/
theorem spelling_eq_cons (token : Token) : ∃ first rest, token.spelling = first :: rest ∧
    (first.isDigit = true → token.isNumber = true) ∧
    first.toLower ≠ 'h' ∧ first.toLower ≠ 'l' ∧ first ≠ '(' := by
  cases token with
  | number value =>
    cases digits : Text.ofNat value.val.natAbs with
    | nil => exact absurd digits (Text.ofNat_ne_nil _)
    | cons first rest =>
      have digit : first.isDigit = true := Text.isDigit_of_mem_ofNat (by rw [digits]; simp)
      have other : ∀ c, c.isDigit = true → c.toLower ≠ 'h' ∧ c.toLower ≠ 'l' ∧ c ≠ '(' :=
        Text.forall_isDigit (by decide)
      exact ⟨first, rest, digits, fun _ => rfl, other first digit⟩
  | operator op => cases op <;> exact ⟨_, _, rfl, by decide⟩
  | comparator c => cases c <;> exact ⟨_, _, rfl, by decide⟩
  | selection rule => cases rule <;> exact ⟨_, _, rfl, by decide⟩
  | _ => exact ⟨_, _, rfl, by decide⟩

/-- No token is written with a blank or a parenthesis, and only one with a plus
sign. -/
theorem of_mem_spelling (token : Token) : ∀ c ∈ token.spelling,
    Text.isBlank c = false ∧ c ≠ '(' ∧ c ≠ ')' ∧ (c = '+' → token = .operator .add) := by
  cases token with
  | number value =>
    have other : ∀ c, c.isDigit = true →
        Text.isBlank c = false ∧ c ≠ '(' ∧ c ≠ ')' ∧ c ≠ '+' := Text.forall_isDigit (by decide)
    intro c mem
    obtain ⟨blank, opens, closes, plus⟩ := other c (Text.isDigit_of_mem_ofNat mem)
    exact ⟨blank, opens, closes, fun h => absurd h plus⟩
  | operator op => cases op <;> exact Text.forall_mem (by decide)
  | comparator comparison => cases comparison <;> exact Text.forall_mem (by decide)
  | selection rule => cases rule <;> exact Text.forall_mem (by decide)
  | _ => exact Text.forall_mem (by decide)

end Token

/-- Digits are taken together, up to the first character that is none. If their
number is too large, the fault is that of the number. -/
theorem read_digits {first : Char} {tail rest : Text}
    (all : ∀ c ∈ first :: tail, c.isDigit = true) (after : ∀ c ∈ rest.head?, c.isDigit = false) :
    Lexeme.read first (tail ++ rest) =
      match Score.read (first :: tail) with
      | .ok value => .token (.number value) (tail.length + 1)
      | .error fault => .broken (.number fault) (tail.length + 1) := by
  have digit := all first (by simp)
  have taken : (first :: (tail ++ rest)).takeWhile Char.isDigit = first :: tail :=
    Text.takeWhile_digits all after
  have other : ∀ c, c.isDigit = true → Text.isBlank c = false := Text.forall_isDigit (by decide)
  have blank := other first digit
  cases read : Score.read (first :: tail) <;> simp [Lexeme.read, blank, digit, taken, read]

/-- The tokens that are still to be read from a stream in which nothing is at
fault. -/
structure TokenStream.Holds (stream : TokenStream) (tokens : List Token) : Prop where
  sound : stream.fault = none
  tokens_eq : stream.tokens.map (·.token) = tokens

/-- The rest of a token is passed over. Its characters were looked at with the
first one. -/
theorem scan_skip (passed rest : Text) (position : Nat) (seen : List PlacedToken) :
    TokenStream.scan passed.length position seen (passed ++ rest) =
      TokenStream.scan 0 (position + passed.length) seen rest := by
  induction passed generalizing position with
  | nil => rfl
  | cons c passed ih =>
    rw [List.length_cons, List.cons_append, TokenStream.scan, ih, Nat.add_assoc, Nat.add_comm 1]

/-- Whether no number follows another. Two numbers without a blank between them
are one number. -/
def Apart (tokens : List Token) : Prop :=
  tokens.IsChain fun a b => a.isNumber = true → b.isNumber = false

/-- A text that begins with a number past the range has no token to begin with.
The stream is at fault there, and nothing behind it is read. -/
theorem ofText_of_lt {n : Nat} (past : Score.highest.val < n) {rest : Text}
    (after : ∀ c ∈ rest.head?, c.isDigit = false) (position : Nat) :
    ∃ fault stop, TokenStream.ofText position (Text.ofNat n ++ rest) = ⟨[], some fault, stop⟩ := by
  obtain ⟨fault, failed⟩ := Score.read_ofNat_of_lt past
  cases digits : Text.ofNat n with
  | nil => exact absurd digits (Text.ofNat_ne_nil n)
  | cons first tail =>
    have all : ∀ c ∈ first :: tail, c.isDigit = true := fun c mem =>
      Text.isDigit_of_mem_ofNat (digits ▸ mem)
    rw [digits] at failed
    refine ⟨.number fault, position + (first :: tail).length, ?_⟩
    rw [List.cons_append, TokenStream.ofText, TokenStream.scan, read_digits all after, failed]
    rfl

end Dice.Notation
