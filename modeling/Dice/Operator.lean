import Dice.Score

/-!
# Operators

An operator combines a score with a constant. The result is the exact integer
result, brought back into the range once; division rounds toward zero and a
power keeps the sign of its base, so that every operator keeps the order of
scores.

The constants are natural numbers of 32 bits. A power of a score with such an
exponent can have billions of digits, and it is never carried out: from an
exponent of 63 on, every base above 1 is past the greatest score, so the
result is known. Division has no exact result for the constant zero; no
expression is built with it, and `apply` gives zero so as to be total.

Operators are written with one symbol each, and no two share one
(`ofSymbol?_symbol`).

Main statement: `boundedPower_eq` says that the power is cut at the greatest
score, although large exponents are never carried out. What each operator
gives exactly, and that all of them keep the order, is proved apart from the
definitions.
-/

namespace Dice

/-- What is done to a score with a constant. The constant is always on the
right, and never negative. -/
inductive Operator
  | add
  | subtract
  | multiply
  | divide
  | power
deriving DecidableEq

namespace Operator

/-- The symbol an operator is written with. Notations and formulas use the same
symbols. -/
def symbol : Operator → Char
  | add => '+'
  | subtract => '-'
  | multiply => '*'
  | divide => '/'
  | power => '^'

/-- The operator written with a symbol, if the symbol is that of an operator at
all. -/
def ofSymbol? : Char → Option Operator
  | '+' => some add
  | '-' => some subtract
  | '*' => some multiply
  | '/' => some divide
  | '^' => some power
  | _ => none

/-- The symbol of an operator names that operator and no other. -/
@[simp] theorem ofSymbol?_symbol (op : Operator) : ofSymbol? op.symbol = some op := by
  cases op <;> rfl

/-- `base ^ exponent`, cut at the greatest score. From an exponent of 63 on
every base above 1 is past it, so no power that large is computed. -/
def boundedPower (base exponent : Nat) : Nat :=
  if exponent = 0 then 1
  else if base ≤ 1 then base
  else if 63 ≤ exponent then 9223372036854775807
  else min (Nat.pow base exponent) 9223372036854775807

/-- The power is the exact one, cut at the greatest score. The shortcuts for an
exponent of 0, a base up to 1 and an exponent past 62 all agree with that. -/
theorem boundedPower_eq (base exponent : Nat) :
    boundedPower base exponent = min (Nat.pow base exponent) 9223372036854775807 := by
  unfold boundedPower
  split
  next h => subst h; rfl
  next h =>
    split
    next hb =>
      rcases Nat.le_one_iff_eq_zero_or_eq_one.1 hb with rfl | rfl
      · have zero : Nat.pow 0 exponent = 0 := Nat.zero_pow (Nat.pos_of_ne_zero h)
        rw [zero]
        rfl
      · have one : Nat.pow 1 exponent = 1 := Nat.one_pow exponent
        rw [one]
        rfl
    next hb =>
      split
      next he =>
        -- 2 ^ 63 is already past the greatest score
        have h63 : 9223372036854775808 ≤ Nat.pow base exponent :=
          calc Nat.pow 2 63
            _ ≤ Nat.pow base 63 := Nat.pow_le_pow_left (by omega) 63
            _ ≤ Nat.pow base exponent := Nat.pow_le_pow_right (by omega) he
        omega
      next => rfl

/-- The result of the operator on a score and a constant. Dividing by zero
gives zero. -/
def apply (op : Operator) (a : Score) (operand : UInt32) : Score :=
  match op with
  | add => .clamp (a.val + operand.toNat)
  | subtract => .clamp (a.val - operand.toNat)
  | multiply => .clamp (a.val * operand.toNat)
  | divide => .clamp (a.val.tdiv operand.toNat)
  | power =>
    -- the sign is put back on the magnitude, whatever the exponent is
    if 0 ≤ a.val then .clamp (boundedPower a.val.natAbs operand.toNat)
    else .clamp (-boundedPower a.val.natAbs operand.toNat)

/-- The value that keeps `apply` total. No expression that was built divides by
zero. -/
theorem apply_divide_zero (a : Score) : apply divide a 0 = 0 := by
  show Score.clamp (a.val.tdiv 0) = 0
  rw [Int.tdiv_zero]
  rfl

end Operator

end Dice
