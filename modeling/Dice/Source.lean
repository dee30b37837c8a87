import Dice.Score

/-!
# Sources

A source hands out the random numbers that dice are rolled with. It is asked
for a number of a range and answers from its state, which it gives back
changed. A source may run dry. The answer need not lie within the range that
was asked; dice see to that themselves.

A source is a parameter of everything that rolls. What is proved of rolls
holds of every source, or under a condition that says which answers it has to
give, and nothing is assumed of how numbers are made. The simplest source
hands out a list of answers. It says which answers a result came from, so that
a result that some source can lead to is one that some list of answers leads
to.

A number that was asked is kept as a `Draw`, the range with the answer. The
draws of an evaluation show how many dice were rolled, in which order, and
what each of them was asked for.
-/

namespace Dice

/-- A source of random numbers with states in `σ`. The state is an argument and
a result, so equal states lead to equal rolls. -/
structure Source (σ : Type) where
  /-- Asks for a number from the first score to the second. `none` when the
  source has run dry. -/
  between : Score → Score → σ → Option (Score × σ)

/-- A number that was asked of a source: the range and the answer. The answer is
kept as it was given, also if it lies outside of the range. -/
structure Draw where
  low : Score
  high : Score
  answer : Score
deriving DecidableEq

namespace Source

/-- The source that hands out the listed answers, whatever it is asked, until
they are used up. -/
def answers : Source (List Score) where
  between _ _
    | [] => none
    | answer :: rest => some (answer, rest)

end Source

end Dice
