import Dice.Score
import Dice.Text

/-!
# Scores in decimal

`Score.text` writes a score with the fewest digits and a minus sign in front
of a negative one. `Score.read` accepts a decimal number with an optional sign
and any number of leading zeros. It goes through the digits from the left and
stops at the first trouble: a character that is no digit, or a digit that
takes the number out of the range. Which fault is reported is therefore
decided by which comes first.

The range has one negative number more than it has positive ones. A reader
that is given the sign can read all of them; one that takes the digits alone
and puts the sign in front afterwards cannot read the least score, since its
digits are one past the greatest score. `readDigits` has the limit as a
parameter for this reason.

Main statement: `readDigits_le`, what was read respects the limit, so the
clamp in `read` never changes anything. That reading undoes writing is proved
with the other facts about decimal numbers.
-/

namespace Dice

namespace Score

/-- The decimal form of a score. It has no leading zeros, and a sign only below
zero. -/
def text (a : Score) : Text :=
  if a.val < 0 then '-' :: Text.ofNat a.val.natAbs else Text.ofNat a.val.natAbs

/-- A score that is not negative is written without a sign. -/
theorem text_of_nonneg {a : Score} (h : 0 ≤ a.val) : a.text = Text.ofNat a.val.natAbs := by
  rw [text, if_neg (by omega)]

end Score

/-- Why a text is not the decimal form of a score. The first thing that is wrong
with the text is reported, read from the left. -/
inductive NumberFault
  /-- There is no text at all. -/
  | empty
  /-- A character is not a digit, or a sign has no digit after it. -/
  | invalidDigit
  /-- The number is above the greatest score. -/
  | tooLarge
  /-- The number is below the least score. -/
  | tooSmall
deriving DecidableEq

namespace NumberFault

/-- The wording of the fault. -/
def message : NumberFault → String
  | empty => "cannot parse integer from empty string"
  | invalidDigit => "invalid digit found in string"
  | tooLarge => "number too large to fit in target type"
  | tooSmall => "number too small to fit in target type"

end NumberFault

namespace Score

/-- The magnitude written by the digits of a text after those that gave
`soFar`, as long as it does not exceed `limit`. -/
def readDigits (limit : Nat) (overflow : NumberFault) (soFar : Nat) :
    Text → Except NumberFault Nat
  | [] => .ok soFar
  | c :: rest =>
    if c.isDigit then
      let next := soFar * 10 + (c.toNat - '0'.toNat)
      if next ≤ limit then readDigits limit overflow next rest else .error overflow
    else .error .invalidDigit

/-- The score that a decimal number with an optional sign stands for. Digits
below zero are read against a limit that is larger by one, since the least score
has no counterpart above zero. -/
def read : Text → Except NumberFault Score
  | [] => .error .empty
  | ['+'] | ['-'] => .error .invalidDigit
  | '-' :: digits =>
    return clamp (-(← readDigits 9223372036854775808 .tooSmall 0 digits))
  | '+' :: digits => return clamp (← readDigits 9223372036854775807 .tooLarge 0 digits)
  | digits => return clamp (← readDigits 9223372036854775807 .tooLarge 0 digits)

/-- Reading stays within the limit, so the clamp in `read` changes nothing: what
is too large is an error and not a score at the end of the range. -/
theorem readDigits_le {limit soFar n : Nat} {overflow : NumberFault} {digits : Text}
    (start : soFar ≤ limit) (h : readDigits limit overflow soFar digits = .ok n) :
    n ≤ limit := by
  induction digits generalizing soFar with
  | nil => simp only [readDigits, Except.ok.injEq] at h; omega
  | cons c rest ih =>
    simp only [readDigits] at h
    split at h
    · split at h
      next hle => exact ih hle h
      next => cases h
    · cases h

end Score

end Dice
