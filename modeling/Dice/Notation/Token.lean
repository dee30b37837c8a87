import Dice.Comparator
import Dice.Operator
import Dice.Selection
import Dice.Notation.Fault
import Dice.Text.Alphabetic
import Dice.Text.Blank

/-!
# Tokens

The smallest parts of a notation: numbers, the letters of dice and of
selection rules, and symbols. `Lexeme.read` finds what stands at the front of
a text. A number goes on as long as there are digits; `d` is the letter of a
die unless it begins `dh` or `dl`; letters that begin no token are taken
together as one stray word.

Reading looks at the first character and decides by its class: a blank, a
digit, a letter of ASCII, or anything else. Each class has one lemma in the
modules that need it. How many characters a token takes is part of what is
read, so that a stream can pass over them without looking at them again.

A stray word of two letters that looks like the name of a selection rule is
reported as an unknown rule, any other one as something unexpected. The word
is taken in full, with letters of any alphabet behind the first one.

Main statements: `ofSymbol?_symbol` and `ofSymbol?_comparator`, every symbol
reads as the token it spells.
-/

namespace Dice.Notation

/-- A token of a notation. Letters of either case give the same token, and
blanks give none. -/
inductive Token
  | number (value : Score)
  /-- The letter `d`. -/
  | dice
  /-- The letter `f`. -/
  | fudge
  | percent
  | leftBracket
  | rightBracket
  | comma
  | operator (op : Operator)
  /-- The mark of an explosion. -/
  | explode
  | comparator (c : Comparator)
  | selection (rule : Selection)
deriving DecidableEq

namespace Token

/-- The name of a token in the wording of a fault. It names the kind of the
token, and for a number its value. -/
def name : Token → String
  | number value => "Number(" ++ String.ofList value.text ++ ")"
  | dice => "Dice"
  | fudge => "Fudge"
  | percent => "Percent"
  | leftBracket => "LeftBracket"
  | rightBracket => "RightBracket"
  | comma => "Comma"
  | operator .add => "Plus"
  | operator .subtract => "Minus"
  | operator .multiply => "Multiply"
  | operator .divide => "Divide"
  | operator .power => "Power"
  | explode => "Explode"
  | comparator .greaterThan => "Greater"
  | comparator .lessThan => "Less"
  | comparator .equals => "Equals"
  | selection .keepHighest => "KeepHighest"
  | selection .keepLowest => "KeepLowest"
  | selection .dropHighest => "DropHighest"
  | selection .dropLowest => "DropLowest"

/-- The name of the end of a segment in the wording of a fault. -/
def endName : String := "Eof"

/-- The token that is a single symbol. The symbols of operators and comparators
are looked up where these are defined. -/
def ofSymbol? (c : Char) : Option Token :=
  match c with
  | '!' => some explode
  | '%' => some percent
  | '[' => some leftBracket
  | ']' => some rightBracket
  | ',' => some comma
  | c =>
    match Operator.ofSymbol? c, Comparator.ofSymbol? c with
    | some op, _ => some (operator op)
    | none, some comparison => some (comparator comparison)
    | none, none => none

/-- The symbol of an operator reads as that operator, and as no other token. -/
theorem ofSymbol?_symbol (op : Operator) : ofSymbol? op.symbol = some (operator op) := by
  cases op <;> rfl

/-- The symbol of a comparator reads as that comparator, and as no other token. -/
theorem ofSymbol?_comparator (c : Comparator) : ofSymbol? c.symbol = some (comparator c) := by
  cases c <;> rfl

/-- The token that a text begins with when its first character is a letter,
with the number of its letters. -/
def ofLetters? (first : Char) (rest : Text) : Option (Token × Nat) :=
  match first.toLower, rest.head?.map Char.toLower with
  | 'd', some 'h' => some (selection .dropHighest, 2)
  | 'd', some 'l' => some (selection .dropLowest, 2)
  | 'k', some 'h' => some (selection .keepHighest, 2)
  | 'k', some 'l' => some (selection .keepLowest, 2)
  | 'd', _ => some (dice, 1)
  | 'f', _ => some (fudge, 1)
  | _, _ => none

end Token

/-- What stands at the front of a text. The width says where to read on. -/
inductive Lexeme
  /-- A blank. -/
  | blank
  /-- A token, and how many characters it takes. -/
  | token (token : Token) (width : Nat)
  /-- No token: the fault, and how many characters were looked at. -/
  | broken (fault : Fault) (width : Nat)

namespace Lexeme

/-- Whether a word is shaped like the name of a selection rule: two letters of
ASCII, of which the first or the second would fit. -/
def ruleShaped (word : Text) : Bool :=
  match word.map Char.toLower with
  | [first, second] =>
    word.byteLength == 2 && (first == 'd' || first == 'k' || second == 'h' || second == 'l')
  | _ => false

/-- The fault of a stray word. A word that comes close to the name of a rule is
taken for a misspelled one. -/
def strayWord (word : Text) : Fault :=
  if ruleShaped word then .unknownAlgorithm (String.ofList word)
  else .unexpectedToken (String.ofList word)

/-- What stands at the front of a text. Blanks, numbers, letters and symbols are
told apart by the first character. -/
def read (first : Char) (rest : Text) : Lexeme :=
  if Text.isBlank first then blank
  else if first.isDigit then
    let digits := (first :: rest).takeWhile Char.isDigit
    match Score.read digits with
    | .ok value => token (.number value) digits.length
    | .error fault => broken (.number fault) digits.length
  else if first.isAlpha then
    match Token.ofLetters? first rest with
    | some (found, width) => token found width
    -- a word may go on with letters of any alphabet
    | none =>
      let word := (first :: rest).takeWhile Text.isAlphabetic
      broken (strayWord word) word.length
  else
    match Token.ofSymbol? first with
    | some found => token found 1
    | none => broken (.invalidToken first) 0

end Lexeme

end Dice.Notation
