import Dice.Proofs.SelectionBounds

/-!
# Sums that do not depend on the order

A saturating sum depends on the order of its summands when it can be cut at
one end and brought back by summands of the other sign. `Steady` says that
this cannot happen: what gains too much loses nothing, and what loses too much
gains nothing. Then the sum is the exact one, brought back into the range
once, and its summands may be moved and added up in groups.

The condition is on the exact gains and losses of all summands, so it does not
see their order, and it passes on to parts of a list. What carries the file is
`clamp_add_clamp`: two parts of a steady sum may be clamped before they are
added. Everything about groups and permutations follows from it and from the
exact sum, which has no order.

Nothing weaker would do. In a sum that is not steady, the summands that gain
can be put in front of those that lose, or behind them. The sum is then cut at
one end in the one order and not in the other, or at different ends, and its
value is different: `steady_iff`.

Main statements: `sum_of_steady`, `Steady.sum_flatten`, and `steady_iff`, no
other sums are independent of the order.
-/

namespace Dice.Score

variable {as bs : List Score}

/-- Whether scores that gain too much lose nothing, and scores that lose too
much gain nothing. In other words, the sum may saturate at one end, if nothing
is left to bring it back from there. -/
def Steady (scores : List Score) : Prop :=
  (gains scores ≤ highest.val ∨ losses scores = 0) ∧
    (lowest.val ≤ losses scores ∨ gains scores = 0)

instance (scores : List Score) : Decidable (Steady scores) :=
  inferInstanceAs (Decidable ((_ ∨ _) ∧ (_ ∨ _)))

/-! ## Gains and losses -/

/-- What scores add up to exactly is what they gain and what they lose. Nothing
is clamped in it. -/
theorem total_eq (scores : List Score) : total scores = gains scores + losses scores := by
  induction scores with
  | nil => rfl
  | cons a rest ih =>
    simp only [total, gains, losses, List.map_cons, List.sum_cons] at ih ⊢
    omega

theorem gains_append (as bs : List Score) : gains (as ++ bs) = gains as + gains bs := by
  simp [gains]

theorem losses_append (as bs : List Score) : losses (as ++ bs) = losses as + losses bs := by
  simp [losses]

/-- A steady sum stays so in any order: gains and losses are sums of integers.
So it is a property of what is added and not of how. -/
theorem Steady.perm (steady : Steady as) (perm : as.Perm bs) : Steady bs := by
  have up : gains as = gains bs := (perm.map _).sum_eq
  have down : losses as = losses bs := (perm.map _).sum_eq
  rwa [Steady, up, down] at steady

/-- The first part of a steady sum is steady: it neither gains nor loses more
than the whole does. -/
theorem Steady.left (steady : Steady (as ++ bs)) : Steady as := by
  have up := gains_nonneg as
  have up' := gains_nonneg bs
  have down := losses_nonpos as
  have down' := losses_nonpos bs
  simp only [Steady, gains_append, losses_append] at steady ⊢
  omega

/-- The second part is as well, as it could stand first. -/
theorem Steady.right (steady : Steady (as ++ bs)) : Steady bs :=
  (steady.perm List.perm_append_comm).left

/-! ## Steady sums -/

/-- Adding up two clamped parts of a steady sum is clamping it. A part can be
cut only at an end at which the whole is cut. -/
theorem clamp_add_clamp (steady : Steady (as ++ bs)) :
    clamp (total as) + clamp (total bs) = clamp (total (as ++ bs)) := by
  have up := gains_nonneg as
  have up' := gains_nonneg bs
  have down := losses_nonpos as
  have down' := losses_nonpos bs
  apply ext_val
  rw [val_add, total_eq, total_eq, total_eq, gains_append, losses_append]
  simp only [Steady, gains_append, losses_append, val_clamp, lowest, highest] at steady ⊢
  omega

/-- **A steady sum is the exact one, brought back into the range.** By induction
from the end: the last summand is a part of its own. -/
theorem sum_of_steady (steady : Steady as) : sum as = clamp (total as) := by
  induction as using List.reverseRecOn with
  | nil => rfl
  | append_singleton front last ih =>
    have single : clamp (total [last]) = last := by simp [total]
    rw [sum_append_singleton, ih steady.left, ← clamp_add_clamp steady, single]

/-- The summands of a steady sum may stand in any order. Without steadiness only
two summands may change places. -/
theorem Steady.sum_perm (steady : Steady as) (perm : as.Perm bs) : sum as = sum bs := by
  rw [sum_of_steady steady, sum_of_steady (steady.perm perm), total_perm perm]

/-- A steady sum may be cut in two anywhere, and its parts added up. Each part
is steady as well. -/
theorem Steady.sum_append (steady : Steady (as ++ bs)) : sum (as ++ bs) = sum as + sum bs := by
  rw [sum_of_steady steady, sum_of_steady steady.left, sum_of_steady steady.right,
    clamp_add_clamp steady]

/-- **The summands of a steady sum may be added up in groups.** The induction is
on the groups. -/
theorem Steady.sum_flatten {groups : List (List Score)} (steady : Steady groups.flatten) :
    sum (groups.map sum) = sum groups.flatten := by
  induction groups using List.reverseRecOn with
  | nil => rfl
  | append_singleton front last ih =>
    rw [List.flatten_append, List.flatten_singleton] at steady ⊢
    rw [List.map_append, List.map_singleton, sum_append_singleton, ih steady.left,
      steady.sum_append]

/-! ## Other sums -/

/-- Scores of one sign can be added to a score all at once: once they have left
the range they stay at its end, and clamping in the end does the same. -/
theorem foldl_add_eq_clamp (sign : gains as = 0 ∨ losses as = 0) (a : Score) :
    as.foldl (· + ·) a = clamp (a.val + total as) := by
  have low := a.lowest_le
  have high := a.le_highest
  induction as using List.reverseRecOn with
  | nil => simp [total]
  | append_singleton front last ih =>
    have up := gains_nonneg front
    have up' := gains_nonneg [last]
    have down := losses_nonpos front
    have down' := losses_nonpos [last]
    have single := total_eq [last]
    have whole : total (front ++ [last]) = total front + last.val := by simp [total]
    have value : total [last] = last.val := by simp [total]
    have before := total_eq front
    rw [gains_append, losses_append] at sign
    rw [List.foldl_append, ih (by omega), whole, List.foldl_cons, List.foldl_nil]
    apply ext_val
    simp only [val_add, val_clamp, lowest, highest]
    omega

/-- The scores that lose nothing, in their order. -/
def rising (scores : List Score) : List Score := scores.filter fun a => decide (0 ≤ a.val)

/-- The scores that lose, in their order. -/
def falling (scores : List Score) : List Score := scores.filter fun a => !decide (0 ≤ a.val)

/-- What loses nothing and what loses together are all the scores. -/
theorem rising_append_falling_perm (scores : List Score) :
    (rising scores ++ falling scores).Perm scores := List.filter_append_perm _ scores

/-- All that is gained is gained by the scores that lose nothing. Added up
first, they come as high as any order does. -/
theorem gains_rising (scores : List Score) :
    gains (rising scores) = gains scores ∧ losses (rising scores) = 0 := by
  induction scores with
  | nil => exact ⟨rfl, rfl⟩
  | cons a rest ih =>
    simp only [gains, losses, rising, List.filter_cons] at ih ⊢
    by_cases sign : 0 ≤ a.val
    · simp only [sign, decide_true, if_true, List.map_cons, List.sum_cons]
      omega
    · simp only [sign, decide_false, Bool.false_eq_true, if_false, List.map_cons, List.sum_cons]
      omega

/-- All that is lost is lost by the others, since nothing is lost by the former.
-/
theorem losses_falling (scores : List Score) :
    losses (falling scores) = losses scores ∧ gains (falling scores) = 0 := by
  have perm := rising_append_falling_perm scores
  have up : gains (rising scores ++ falling scores) = gains scores := (perm.map _).sum_eq
  have down : losses (rising scores ++ falling scores) = losses scores := (perm.map _).sum_eq
  have rising := gains_rising scores
  rw [gains_append] at up
  rw [losses_append] at down
  omega

/-- **Only steady sums do not depend on the order of their summands.** Of all
the orders two are enough to tell: first what gains and then what loses, and the
other way around. -/
theorem steady_iff : Steady as ↔ ∀ bs, as.Perm bs → sum bs = sum as := by
  refine ⟨fun steady bs perm => (steady.sum_perm perm).symm, fun same => ?_⟩
  -- what loses comes last in the one sum, and first in the other
  have perm := rising_append_falling_perm as
  have forth := same _ perm.symm
  have back := same _ (perm.symm.trans List.perm_append_comm)
  obtain ⟨up, none⟩ := gains_rising as
  obtain ⟨down, none'⟩ := losses_falling as
  have positive := gains_nonneg as
  have negative := losses_nonpos as
  rw [← back, sum, sum, List.foldl_append, List.foldl_append, foldl_add_eq_clamp (.inr none),
    foldl_add_eq_clamp (.inl none'), foldl_add_eq_clamp (.inr none),
    foldl_add_eq_clamp (.inl none'), total_eq, total_eq, up, down, none, none'] at forth
  have cut := congrArg val forth
  simp only [Steady, val_clamp, val_zero, lowest, highest] at cut ⊢
  omega

end Dice.Score
