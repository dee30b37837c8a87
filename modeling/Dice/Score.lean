/-!
# Scores

A score is an integer of the signed 64-bit range. Everything a die shows, a
sum adds up to or an operator gives is a score: the exact integer result is
computed first and then brought back into the range by `Score.clamp`, so a
result past either end stays at that end.

The bounds of the range are fields of the structure. No score out of the range
can be made, and no later module has to ask whether one is.

Saturation keeps the order of scores, which is what the bounds of expressions
live on. It does not keep the sums: `a + b` is commutative but not
associative, so `Score.sum` is one fold from the left, and whatever is said of
a sum is said of the scores in the order in which they stand.

Main statements: `clamp` leaves the range alone (`clamp_val`) and keeps the
order (`clamp_mono`), `a + b` is the clamped exact sum (`val_add`) and rises
with its summands (`add_le_add`), and `within` does not move what lies within
its limits (`within_of_mem`).
-/

namespace Dice

/-- An integer from `-2^63` to `2^63 - 1`. The two bounds are proofs and take
part in no computation. -/
structure Score where
  /-- The integer itself. -/
  val : Int
  lowest_le : -9223372036854775808 ≤ val
  le_highest : val ≤ 9223372036854775807
deriving DecidableEq

namespace Score

/-- The least score. -/
def lowest : Score := ⟨-9223372036854775808, by decide, by decide⟩

/-- The greatest score. -/
def highest : Score := ⟨9223372036854775807, by decide, by decide⟩

/-- Two scores with the same integer are the same: the two other fields are
proofs. -/
theorem ext_val {a b : Score} (h : a.val = b.val) : a = b := by
  cases a
  cases b
  cases h
  rfl

/-- The score nearest to an integer. Of an integer past either end of the range
that is the end. -/
def clamp (n : Int) : Score :=
  ⟨max lowest.val (min highest.val n), by simp only [lowest]; omega,
    by simp only [lowest, highest]; omega⟩

/-- What `clamp` computes, as an integer. Unfolding it here is all that `omega`
needs. -/
theorem val_clamp (n : Int) :
    (clamp n).val = max lowest.val (min highest.val n) := rfl

/-- Inside the range there is nothing to clamp, so an exact result that fits is
the result. -/
theorem val_clamp_of_mem {n : Int} (lo : -9223372036854775808 ≤ n)
    (hi : n ≤ 9223372036854775807) : (clamp n).val = n := by
  simp only [val_clamp, lowest, highest]
  omega

/-- A score is in the range already. -/
@[simp] theorem clamp_val (a : Score) : clamp a.val = a :=
  ext_val (val_clamp_of_mem a.lowest_le a.le_highest)

/-- Clamping keeps the order. It need not keep two integers apart, which is why
strict inequalities do not carry over. -/
theorem clamp_mono {m n : Int} (h : m ≤ n) : (clamp m).val ≤ (clamp n).val := by
  simp only [val_clamp, lowest, highest]
  omega

/-! ## Order -/

instance : LE Score := ⟨fun a b => a.val ≤ b.val⟩

instance : LT Score := ⟨fun a b => a.val < b.val⟩

instance (a b : Score) : Decidable (a ≤ b) := inferInstanceAs (Decidable (a.val ≤ b.val))

instance (a b : Score) : Decidable (a < b) := inferInstanceAs (Decidable (a.val < b.val))

instance : Min Score := ⟨fun a b => if a ≤ b then a else b⟩

instance : Max Score := ⟨fun a b => if a ≤ b then b else a⟩

theorem le_def {a b : Score} : a ≤ b ↔ a.val ≤ b.val := Iff.rfl

theorem lt_def {a b : Score} : a < b ↔ a.val < b.val := Iff.rfl

theorem lowest_le_self (a : Score) : lowest ≤ a := a.lowest_le

theorem self_le_highest (a : Score) : a ≤ highest := a.le_highest

/-- The score of `lo` to `hi` nearest to `a`, for `lo ≤ hi`. Answers of a source
and indices of faces are brought into their range by it. -/
def within (lo hi a : Score) : Score := if a < lo then lo else if hi < a then hi else a

/-- What `within` gives lies between its limits, wherever the score was before. -/
theorem within_mem {lo hi : Score} (h : lo ≤ hi) (a : Score) :
    lo ≤ within lo hi a ∧ within lo hi a ≤ hi := by
  unfold within
  by_cases hlo : a < lo
  · simp only [hlo, if_true]
    exact ⟨Int.le_refl _, h⟩
  · by_cases hhi : hi < a
    · simp only [hlo, hhi, if_true, if_false]
      exact ⟨h, Int.le_refl _⟩
    · simp only [hlo, hhi, if_false]
      exact ⟨Int.not_lt.1 hlo, Int.not_lt.1 hhi⟩

/-- A score of the range asked for is left alone. -/
theorem within_of_mem {lo hi a : Score} (hlo : lo ≤ a) (hhi : a ≤ hi) :
    within lo hi a = a := by
  have low : ¬ a < lo := Int.not_lt.2 hlo
  have high : ¬ hi < a := Int.not_lt.2 hhi
  rw [within, if_neg low, if_neg high]

/-! ## Sums -/

instance (n : Nat) : OfNat Score n := ⟨clamp n⟩

instance : Inhabited Score := ⟨0⟩

/-- Saturating addition. -/
instance : Add Score := ⟨fun a b => clamp (a.val + b.val)⟩

/-- Saturating subtraction. -/
instance : Sub Score := ⟨fun a b => clamp (a.val - b.val)⟩

/-- Adding computes the exact sum and clamps it once. What was cut off does not
come back with the next summand. -/
theorem val_add (a b : Score) : (a + b).val = (clamp (a.val + b.val)).val := rfl

@[simp] theorem val_zero : (0 : Score).val = 0 := rfl

/-- The order of two summands does not matter; that of three does, since the
first two may saturate before the third one is added. -/
theorem add_comm (a b : Score) : a + b = b + a := by
  apply ext_val
  rw [val_add, val_add, Int.add_comm]

@[simp] theorem zero_add (a : Score) : 0 + a = a := by
  apply ext_val
  rw [val_add, val_zero, Int.zero_add, clamp_val]

/-- Raising both summands raises the sum, or leaves it at the end of the range.
The bounds of pools rest on this. -/
theorem add_le_add {a b c d : Score} (h : a ≤ b) (h' : c ≤ d) : a + c ≤ b + d :=
  clamp_mono (by simp only [le_def] at h h'; omega)

/-- The sum of scores added one after the other from `0`. The order counts:
each step saturates on its own. -/
def sum (scores : List Score) : Score := scores.foldl (· + ·) 0

@[simp] theorem sum_nil : sum [] = 0 := rfl

theorem sum_singleton (a : Score) : sum [a] = a := zero_add a

end Score

end Dice
