import Dice.Score

/-!
# Comparators

A comparator decides whether a die of an explosion rolls again: its result is
compared with a threshold. Which thresholds are sensible follows from the
least and the greatest value that the die can show. The threshold that is
meant where none is written follows from them as well.

A threshold that every result meets would make the die roll again for ever, so
it is refused as `endless` before anything is rolled. The test looks at the
bounds alone and errs on the safe side: for `>` and `<` a threshold at the end
of the range is refused too, although a result at that end would stop the
rolls. What it never does is accept a threshold that all results between the
bounds meet.

The other question that bounds are asked is whether a negative result can ask
for another roll (`rerollsNegative`). If so, the sum of a run has no lower
end.

Main statements: `holds_iff` spells the three comparisons out, and
`endless_of_holds` says that a threshold which every result between the bounds
meets is refused as endless.
-/

namespace Dice

/-- The comparison that asks for another roll. The result is on its left, the
threshold of the explosion on its right. -/
inductive Comparator
  /-- Again while the result equals the threshold. -/
  | equals
  /-- Again while the result is above the threshold. -/
  | greaterThan
  /-- Again while the result is below the threshold. -/
  | lessThan
deriving DecidableEq

namespace Comparator

/-- The symbol a comparator is written with. -/
def symbol : Comparator → Char
  | equals => '='
  | greaterThan => '>'
  | lessThan => '<'

/-- The comparator written with a symbol, if the symbol is that of a comparator
at all. -/
def ofSymbol? : Char → Option Comparator
  | '=' => some equals
  | '>' => some greaterThan
  | '<' => some lessThan
  | _ => none

/-- The symbol of a comparator names that comparator and no other. -/
@[simp] theorem ofSymbol?_symbol (c : Comparator) : ofSymbol? c.symbol = some c := by
  cases c <;> rfl

/-- Whether a result asks for another roll. This is the test that every single
roll of a member is put to. -/
def holds (c : Comparator) (result threshold : Score) : Bool :=
  match c with
  | equals => result = threshold
  | greaterThan => threshold < result
  | lessThan => result < threshold

/-- The comparison is strict for `>` and `<`: a result at the threshold stops. -/
theorem holds_iff (c : Comparator) (result threshold : Score) :
    c.holds result threshold = true ↔
      match c with
      | equals => result = threshold
      | greaterThan => threshold < result
      | lessThan => result < threshold := by
  cases c <;> simp [holds]

/-- The threshold where none is given, for results from `low` to `high`: the
greatest result for `=`, the one next to the end for `>` and `<`. -/
def defaultThreshold (c : Comparator) (low high : Score) : Score :=
  match c with
  | equals => high
  | greaterThan => high - 1
  | lessThan => low + 1

/-- Whether a threshold is refused as endless for results from `low` to
`high`. For `>` and `<` that includes the end of the range itself, so the
default thresholds of a die with two neighbouring faces are refused. -/
def endless (c : Comparator) (low high threshold : Score) : Bool :=
  match c with
  | equals => low = high && threshold = high
  | greaterThan => threshold ≤ low
  | lessThan => high ≤ threshold

/-- A comparison that all results between the bounds meet is endless. The bounds
themselves are such results, and the test needs no others. -/
theorem endless_of_holds {c : Comparator} {low high threshold : Score} (order : low ≤ high)
    (all : ∀ result, low ≤ result → result ≤ high → c.holds result threshold = true) :
    c.endless low high threshold = true := by
  have atLow := all low (Int.le_refl _) order
  have atHigh := all high order (Int.le_refl _)
  cases c with
  | equals =>
    simp only [holds, decide_eq_true_eq] at atLow atHigh
    simp [endless, atLow, atHigh]
  | greaterThan =>
    simp only [holds, decide_eq_true_eq] at atLow
    simp only [endless, decide_eq_true_eq]
    exact Int.le_of_lt atLow
  | lessThan =>
    simp only [holds, decide_eq_true_eq] at atHigh
    simp only [endless, decide_eq_true_eq]
    exact Int.le_of_lt atHigh

/-- Whether a negative result, from `low` upward, can ask for another roll. Only
the lowest result is known here: a score below zero and not below it that meets
the comparison is enough, whether the dice can give that score or not. -/
def rerollsNegative (c : Comparator) (low threshold : Score) : Bool :=
  if 0 ≤ low then false
  else
    match c with
    | equals => threshold < 0 && low ≤ threshold
    | greaterThan => threshold.val < -1
    | lessThan => low < threshold

end Comparator

end Dice
