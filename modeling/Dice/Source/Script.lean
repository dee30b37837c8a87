import Dice.Source

/-!
# Scripted sources

A script hands out listed answers first and goes on by a rule of its own: the
lower end of each range, the upper end, or numbers of a linear congruential
generator. Listed answers are handed out whatever is asked, within the range
or not; what comes after them lies within.

A script never runs dry, so an evaluation with it can only fail by running out
of patience. With the upper end for every range, say, an explosion of
six-sided dice never ends.

The generator goes on by multiplying its state and adding to it, in 64 bits.
Of the state only the upper bits are used, since the lower ones repeat early,
and the remainder by the size of the range counts up from the lower end.

Main statement: `congruential_mem`, the generator stays within the range.
-/

namespace Dice

/-- How a script goes on when its answers are used up. Only the last way has a
state that changes. -/
inductive ScriptTail
  /-- With the lower end of every range. -/
  | low
  /-- With the upper end of every range. -/
  | high
  /-- With the numbers of a generator in the given state. -/
  | congruential (state : UInt64)
deriving DecidableEq

/-- Answers in order, and how to go on after them. With answers one can say what
the dice show, and with a tail that they show something. -/
structure Script where
  answers : List Score
  tail : ScriptTail
deriving DecidableEq

namespace Script

/-- The next state of the generator. -/
def nextState (state : UInt64) : UInt64 := state * 6364136223846793005 + 1442695040888963407

/-- The number from `low` to `high` that a state of the generator stands for,
from its upper bits. -/
def congruential (low high : Score) (state : UInt64) : Score :=
  .clamp (low.val + (state >>> 33).toNat % (high.val - low.val + 1))

/-- The numbers of the generator lie within the range, for every state: a
remainder is below the size of the range. -/
theorem congruential_mem {low high : Score} (order : low ≤ high) (state : UInt64) :
    low ≤ congruential low high state ∧ congruential low high state ≤ high := by
  have hlow := low.lowest_le
  have hhigh := high.le_highest
  simp only [Score.le_def] at order
  have hmod := Int.emod_nonneg ((state >>> 33).toNat : Int)
    (b := high.val - low.val + 1) (by omega)
  have hlt := Int.emod_lt_of_pos ((state >>> 33).toNat : Int)
    (b := high.val - low.val + 1) (by omega)
  simp only [Score.le_def, congruential, Score.val_clamp, Score.lowest, Score.highest]
  omega

/-- The next answer of a script. Listed answers are given whatever the range is;
those of the tail lie within it. -/
def next (low high : Score) (script : Script) : Score × Script :=
  match script.answers with
  | answer :: rest => (answer, { script with answers := rest })
  | [] =>
    match script.tail with
    | .low => (low, script)
    | .high => (high, script)
    | .congruential state =>
      let state := nextState state
      (congruential low high state, { script with tail := .congruential state })

end Script

namespace Source

/-- The source that follows a script. It never runs dry. -/
def script : Source Script where
  between low high s := some (s.next low high)

end Source

end Dice
