import Dice.Operator
import Dice.Proofs.Score.Order

/-!
# Operators are exact and keep the order

An operator gives the exact integer result, brought back into the range. Only
a power stops short of the least score: its sign is put back on a magnitude
that was cut at the greatest one.

Every operator is monotone in the score it is applied to, whatever its
constant. For sums, differences and products that is so of the exact integers
and clamping keeps it; division rounds toward zero and a power keeps the sign
of its base, so both sides of zero are looked at on their own.

That operators keep the order is what bounds rest on: the bounds of arithmetic
are its operator applied to the bounds of what is inside. It also says that no
operator can be put to use to turn a result around. There is no negative
constant, and the sign of a power is that of its base even for an even
exponent.

The exact results are written down once more (`exact`), with the rounding of
division spelled out by magnitude and sign, so that the statement does not
rest on the way in which operators are computed.

Main statements: `apply_mono` and `apply_exact`.
-/

namespace Dice.Operator

/-- Division rounded toward zero keeps the order. It changes its direction at
zero, so the signs of the two numbers decide which rounding is compared with
which. -/
theorem tdiv_mono {a b : Int} (n : Nat) (h : a ≤ b) : a.tdiv n ≤ b.tdiv n := by
  rcases Nat.eq_zero_or_pos n with rfl | pos
  · simp
  · have pos' : (0 : Int) < n := by omega
    -- above zero this is division rounded down, and below it the same after a change of sign
    rcases Int.le_total 0 a with ha | ha
    · rw [Int.tdiv_eq_ediv_of_nonneg ha, Int.tdiv_eq_ediv_of_nonneg (Int.le_trans ha h)]
      exact Int.ediv_le_ediv pos' h
    · rcases Int.le_total 0 b with hb | hb
      · have low : a.tdiv n ≤ 0 := by
          have := Int.tdiv_nonneg (Int.neg_nonneg_of_nonpos ha) (Int.natCast_nonneg n)
          rw [Int.neg_tdiv] at this
          omega
        exact Int.le_trans low (Int.tdiv_nonneg hb (Int.natCast_nonneg n))
      · have flipped : (-b).tdiv n ≤ (-a).tdiv n := by
          rw [Int.tdiv_eq_ediv_of_nonneg (by omega), Int.tdiv_eq_ediv_of_nonneg (by omega)]
          exact Int.ediv_le_ediv pos' (by omega)
        rw [Int.neg_tdiv, Int.neg_tdiv] at flipped
        omega

/-- Cutting at the greatest score keeps the order of powers, as the cut powers
are compared with the same limit. -/
theorem boundedPower_mono {a b : Nat} (exponent : Nat) (h : a ≤ b) :
    boundedPower a exponent ≤ boundedPower b exponent := by
  rw [boundedPower_eq, boundedPower_eq]
  have : Nat.pow a exponent ≤ Nat.pow b exponent := Nat.pow_le_pow_left h exponent
  omega

/-- **Every operator keeps the order of scores.** -/
theorem apply_mono (op : Operator) (operand : UInt32) {a b : Score} (h : a ≤ b) :
    op.apply a operand ≤ op.apply b operand := by
  rw [Score.le_def] at h
  cases op with
  | add => exact Score.clamp_mono (by omega)
  | subtract => exact Score.clamp_mono (by omega)
  | multiply => exact Score.clamp_mono (Int.mul_le_mul_of_nonneg_right h (by omega))
  | divide => exact Score.clamp_mono (tdiv_mono _ h)
  | power =>
    -- a power of a negative base is never positive, one of another base never negative
    simp only [apply]
    by_cases ha : 0 ≤ a.val
    · rw [if_pos ha, if_pos (Int.le_trans ha h)]
      have := boundedPower_mono operand.toNat (show a.val.natAbs ≤ b.val.natAbs by omega)
      exact Score.clamp_mono (by omega)
    · rw [if_neg ha]
      by_cases hb : 0 ≤ b.val
      · rw [if_pos hb]
        exact Score.clamp_mono (by omega)
      · rw [if_neg hb]
        have := boundedPower_mono operand.toNat (show b.val.natAbs ≤ a.val.natAbs by omega)
        exact Score.clamp_mono (by omega)

/-! ## Exact results -/

/-- The exact result of an operator on integers. Division rounds toward zero and
gives zero for zero, and a power keeps the sign of its base. -/
def exact (op : Operator) (a : Int) (n : Nat) : Int :=
  match op with
  | add => a + n
  | subtract => a - n
  | multiply => a * n
  | divide => a.sign * (a.natAbs / n : Nat)
  | power => if 0 ≤ a then a.pow n else -(-a).pow n

/-- The least result of an operator on scores: only a power does not go down to
the least score, which has no counterpart above zero. -/
def least : Operator → Int
  | power => -Score.highest.val
  | _ => Score.lowest.val

/-- Division rounded toward zero divides the magnitude and keeps the sign. -/
theorem sign_mul_natAbs_div (a : Int) (n : Nat) : a.sign * (a.natAbs / n : Nat) = a.tdiv n := by
  cases a with
  | ofNat m =>
    cases m with
    | zero => simp
    | succ m => exact Int.one_mul _
  | negSucc m => exact Int.neg_one_mul _

/-- Cutting the magnitude of a power and giving it the sign of its base is
cutting the exact power. -/
theorem val_apply_power (a : Score) (operand : UInt32) : (power.apply a operand).val =
    max power.least (min Score.highest.val (power.exact a.val operand.toNat)) := by
  have magnitude : (Nat.pow a.val.natAbs operand.toNat : Int) =
      Int.pow a.val.natAbs operand.toNat := Int.natCast_pow _ _
  simp only [apply, boundedPower_eq, exact, least]
  split
  next nonneg =>
    rw [Int.natAbs_of_nonneg nonneg] at magnitude
    simp only [Score.val_clamp, Score.lowest, Score.highest]
    omega
  next negative =>
    have flipped : (a.val.natAbs : Int) = -a.val := by omega
    rw [flipped] at magnitude
    simp only [Score.val_clamp, Score.lowest, Score.highest]
    omega

/-- **An operator gives the exact result, brought back into the range, and keeps
the order of scores.** -/
theorem apply_exact (op : Operator) (a : Score) (operand : UInt32) :
    (op.apply a operand).val =
        max op.least (min Score.highest.val (op.exact a.val operand.toNat)) ∧
      ∀ b, a ≤ b → op.apply a operand ≤ op.apply b operand := by
  refine ⟨?_, fun b => apply_mono op operand⟩
  cases op with
  | add => rfl
  | subtract => rfl
  | multiply => rfl
  | divide =>
    rw [exact, sign_mul_natAbs_div]
    rfl
  | power => exact val_apply_power a operand

/-- The square of the least score is cut at the negative of the greatest one.
Its exact value is far below the range, and clamping that would give the least
score. -/
theorem apply_exact_lowest : Score.lowest ≤ .clamp (-1) ∧
    power.exact Score.lowest.val 2 = -85070591730234615865843651857942052864 ∧
    (power.apply .lowest 2).val = -9223372036854775807 ∧
    power.apply .lowest 2 ≤ power.apply (.clamp (-1)) 2 := by
  have below : Score.lowest ≤ .clamp (-1) := by decide
  obtain ⟨value, ordered⟩ := apply_exact .power .lowest 2
  exact ⟨below, rfl, value, ordered _ below⟩

end Dice.Operator
