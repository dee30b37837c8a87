import Dice.Source.Script

/-!
# Sources over a generator

Dice are mostly rolled with the numbers of a generator that is made elsewhere.
How it makes them is its own affair: a `Generator` is known here by what it
draws from a range, and what is said of the sources over it holds whatever
generator they are given. A source asks its generator only where there is a
choice. A range whose ends meet, or cross, gives its lower end and leaves the
generator as it is.

The one thing that is relied on is `Lawful`: where there is a choice, what is
drawn lies within the range. It makes the answer of the source lie within every
range that is not empty.

Programs have to run with something. Two generators come with the library, and
both are lawful: one that makes its numbers out of 64-bit words, which are read
off a list, and one that goes on by the rule of congruential scripts.

Main statements: `uniform_of_le`, nothing is drawn where there is no choice,
`uniform_mem`, the answer lies within the range, and `lawful_ofWords` and
`lawful_scrambled` for the two generators.
-/

namespace Dice

/-- A generator of random numbers with states in `σ`, known by the number it
draws from a range that leaves it a choice. -/
structure Generator (σ : Type) where
  /-- Draws from the range between two scores, the first below the second. -/
  draw : Score → Score → σ → Score × σ

namespace Generator

variable {σ : Type} {generator : Generator σ} {low high : Score}

/-- Whether what a generator draws always lies within the range it was drawn
from. -/
def Lawful (generator : Generator σ) : Prop :=
  ∀ low high state, low < high →
    low ≤ (generator.draw low high state).1 ∧ (generator.draw low high state).1 ≤ high

/-- A number from `low` to `high`; `low` if there is no choice, and then the
generator is not asked. -/
def uniform (generator : Generator σ) (low high : Score) (state : σ) : Score × σ :=
  if high ≤ low then (low, state) else generator.draw low high state

/-- Where there is no choice the generator stays as it is. -/
theorem uniform_of_le (h : high ≤ low) (state : σ) :
    generator.uniform low high state = (low, state) := if_pos h

/-- The answer lies within the range, drawn or not. So dice rolled with it never
have to bring an answer into their range. -/
theorem uniform_mem (lawful : generator.Lawful) (order : low ≤ high) (state : σ) :
    low ≤ (generator.uniform low high state).1 ∧ (generator.uniform low high state).1 ≤ high := by
  by_cases choice : high ≤ low
  · rw [uniform_of_le choice]
    exact ⟨Int.le_refl _, order⟩
  · rw [uniform, if_neg choice]
    exact lawful low high state (Int.not_le.1 choice)

end Generator

namespace Source

/-- The source that draws from a generator. It never runs dry. -/
def words {σ : Type} (generator : Generator σ) : Source σ where
  between low high state := some (generator.uniform low high state)

end Source

/-! ## Draws out of words

A word times the size of the range, divided by `2^64`, counts up from the lower
end. Where the remainder of that product is so large that one more word could
still change the quotient, a second word settles the carry, so every number of
the range is as likely as any other up to a part in `2^128`. -/

namespace Generator

variable {σ : Type}

/-- The offset below `size` that the next words stand for, where `size` is at
most `2^64 - 1`. -/
def offset (next : σ → UInt64 × σ) (size : Nat) (state : σ) : Nat × σ :=
  let (word, state) := next state
  let product := word.toNat * size
  let quotient := product / UInt64.size
  let remainder := product % UInt64.size
  if UInt64.size - size < remainder then
    let (second, state) := next state
    let carry := (remainder + second.toNat * size / UInt64.size) / UInt64.size
    (quotient + carry, state)
  else (quotient, state)

/-- The generator that makes its numbers out of words. For the whole range of
scores the word itself is the number, as a signed one. -/
def ofWords (next : σ → UInt64 × σ) : Generator σ where
  draw low high state :=
    let size := (high.val - low.val + 1).toNat
    if size = UInt64.size then
      let (word, state) := next state
      (.clamp word.toInt64.toInt, state)
    else
      let (steps, state) := offset next size state
      (.clamp (low.val + steps), state)

/-- A product of a word and the size, with the carry out of a second such
product, divides to less than the size. -/
theorem quotient_add_carry_lt {first second size : Nat} (hfirst : first < UInt64.size)
    (hsecond : second < UInt64.size) (pos : 0 < size) :
    first * size / UInt64.size +
      (first * size % UInt64.size + second * size / UInt64.size) / UInt64.size < size := by
  have whole : first * size ≤ (UInt64.size - 1) * size :=
    Nat.mul_le_mul_right size (Nat.le_pred_of_lt hfirst)
  have small : second * size / UInt64.size < size := by
    rw [Nat.div_lt_iff_lt_mul (by decide), Nat.mul_comm size]
    exact Nat.mul_lt_mul_of_pos_right hsecond pos
  generalize first * size = product at whole
  generalize second * size / UInt64.size = carried at small
  simp only [UInt64.size] at whole ⊢
  omega

/-- The offset stays below the size, with the second word and without it. So
adding it to the lower end cannot leave the range. -/
theorem offset_lt (next : σ → UInt64 × σ) (size : Nat) (pos : 0 < size) (state : σ) :
    (offset next size state).1 < size := by
  have hfirst := (next state).1.toNat_lt_size
  have hsecond := (next (next state).2).1.toNat_lt_size
  unfold offset
  dsimp only
  split
  · exact quotient_add_carry_lt hfirst hsecond pos
  · rw [Nat.div_lt_iff_lt_mul (by decide), Nat.mul_comm size]
    exact Nat.mul_lt_mul_of_pos_right hfirst pos

/-- What is made out of words lies within the range, whatever the words are. -/
theorem lawful_ofWords (next : σ → UInt64 × σ) : (ofWords next).Lawful := by
  intro low high state choice
  simp only [Score.lt_def] at choice
  have hlow := low.lowest_le
  have hhigh := high.le_highest
  unfold ofWords
  dsimp only
  split
  next whole =>
    -- only the two ends of all scores are that far apart, and between them lies every score
    simp only [UInt64.size] at whole
    have ends : low.val = -9223372036854775808 ∧ high.val = 9223372036854775807 := by omega
    simp only [Score.le_def, Score.val_clamp, Score.lowest, Score.highest]
    omega
  next =>
    have steps := offset_lt next (high.val - low.val + 1).toNat (by omega) state
    simp only [Score.le_def, Score.val_clamp, Score.lowest, Score.highest]
    omega

end Generator

/-- Words handed out in order, then zeros, with a count of those used. The count
tells how far a generator has been drawn on. -/
structure WordList where
  words : List UInt64
  used : Nat

/-- The next word of a list. -/
def WordList.next : WordList → UInt64 × WordList
  | ⟨[], used⟩ => (0, ⟨[], used + 1⟩)
  | ⟨word :: rest, used⟩ => (word, ⟨rest, used + 1⟩)

/-- The generator that makes its numbers out of listed words. -/
def WordGenerator.list : Generator WordList := .ofWords WordList.next

/-! ## Draws by a rule -/

namespace Generator

/-- The generator that goes on from a seed by the rule of congruential scripts. -/
def scrambled : Generator UInt64 where
  draw low high state :=
    let state := Script.nextState state
    (Script.congruential low high state, state)

theorem lawful_scrambled : scrambled.Lawful := fun _ _ state choice =>
  Script.congruential_mem (Int.le_of_lt choice) (Script.nextState state)

end Generator

end Dice
