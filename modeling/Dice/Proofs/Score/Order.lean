import Mathlib.Order.Defs.LinearOrder
import Mathlib.Data.List.Forall2
import Mathlib.Data.List.Induction
import Dice.Score

/-!
# The order of scores

Scores are ordered as the integers they are, and a saturating sum keeps that
order summand by summand. Saturation costs the sum its associativity, so what
is said here is said of one fold from the left at a time.

The order is made a `LinearOrder` first, with the comparisons that scores came
with, so that the lemmas on linear orders speak of the same `≤`, `min` and
`max` as the definitions do.

Raising summands cannot lower a sum, since each step of the fold keeps the
order (`foldl_add_mono`). That is all that the bounds of pools need.
Explosions need a fact about sums without a raised summand: a run of rolls
adds up to no less than its last roll if no roll before that was negative. Of
the rolls before the last one nothing else is known but that they asked for
another roll, so the last one is all that can bound the sum.

Main statements: `sum_mono`, raising summands raises the sum, and
`le_sum_append`, the last summand is a lower bound of a sum whose other
summands are not negative.
-/

namespace Dice.Score

instance : LinearOrder Score where
  le_refl a := Int.le_refl a.val
  le_trans _ _ _ := Int.le_trans
  le_antisymm _ _ h h' := ext_val (Int.le_antisymm h h')
  le_total a b := Int.le_total a.val b.val
  lt_iff_le_not_ge a b := by simp only [le_def, lt_def]; omega
  toDecidableLE := inferInstance
  toDecidableLT := inferInstance
  toDecidableEq := inferInstance
  min_def _ _ := rfl
  max_def _ _ := rfl

instance : Std.MaxEqOr Score where
  max_eq_or a b := by rw [max_def]; split <;> simp

/-! ## Sums -/

/-- The last summand is added to the sum of the others. Inductions on sums go
from the end of the list for this reason. -/
theorem sum_append_singleton (as : List Score) (a : Score) : sum (as ++ [a]) = sum as + a := by
  simp [sum]

/-- Raising the summands and the start raises what they add up to. The start is
part of the statement, since each step of the fold changes it. -/
theorem foldl_add_mono {as bs : List Score} (h : List.Forall₂ (· ≤ ·) as bs) :
    ∀ {a b : Score}, a ≤ b → as.foldl (· + ·) a ≤ bs.foldl (· + ·) b := by
  induction h with
  | nil => exact id
  | cons head _ ih => exact fun start => ih (add_le_add start head)

/-- Raising summands raises the sum. -/
theorem sum_mono {as bs : List Score} (h : List.Forall₂ (· ≤ ·) as bs) : sum as ≤ sum bs :=
  foldl_add_mono h (le_refl 0)

/-- Raising the summands of a list raises their sum, for summands that are
computed from the items of the list. -/
theorem sum_map_mono {α : Type} {items : List α} {f g : α → Score}
    (h : ∀ a ∈ items, f a ≤ g a) : sum (items.map f) ≤ sum (items.map g) := by
  apply sum_mono
  rw [List.forall₂_map_left_iff, List.forall₂_map_right_iff, List.forall₂_same]
  exact h

/-- Adding something that is not negative does not lower a score, saturation
included: what is cut is cut above both. -/
theorem le_add_of_nonneg {a b : Score} (h : 0 ≤ a) : b ≤ a + b := by
  have low := b.lowest_le
  have high := b.le_highest
  simp only [le_def, val_zero, val_add, val_clamp, lowest, highest] at h ⊢
  omega

/-- A sum of scores that are not negative is not negative. No partial sum can
saturate downward. -/
theorem sum_nonneg {as : List Score} (h : ∀ a ∈ as, 0 ≤ a) : 0 ≤ sum as := by
  induction as using List.reverseRecOn with
  | nil => exact le_refl 0
  | append_singleton front last ih =>
    rw [sum_append_singleton]
    have start := ih fun a ha => h a (by simp [ha])
    exact le_trans (h last (by simp)) (le_add_of_nonneg start)

/-- The last summand bounds a sum from below if no other one is negative: the
sum in front of it is not negative, and adding that does not lower it. -/
theorem le_sum_append {front : List Score} {last : Score} (h : ∀ a ∈ front, 0 ≤ a) :
    last ≤ sum (front ++ [last]) := by
  rw [sum_append_singleton]
  exact le_add_of_nonneg (sum_nonneg h)

end Dice.Score
