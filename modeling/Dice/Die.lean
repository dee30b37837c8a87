import Dice.BuildError

/-!
# Dice

A die has at least two faces. The ordinary kinds show one of a range of
scores; a custom die lists its faces, which may repeat and stand in any order.
To be rolled, a die asks a source for one number: a score of its range, or the
place of a face. Whatever the answer, a face of the die is shown.

That a die has two faces is a field of it. A die without a choice cannot be
made, so no evaluation has to ask for a number of an empty range, and the
faces of a custom die are never picked from an empty list.

Sources are not trusted to stay within the range they were asked. An answer
outside counts as the nearest end, which makes every answer show a face. The
faces that a custom die lists are found by place, so answers pick repeated
faces as often as they are listed.

Main statements: `asked_ordered` (every range that is asked leaves a choice)
and `low_le_face_and_face_le_high` (a die shows nothing outside of its
bounds), the latter by `place_lt` for the custom die and `Score.within_mem`
for the others.
-/

namespace Dice

/-- A single die. The proofs in it see to it that there is a choice: no die has
fewer than two sides or lists fewer than two faces. -/
inductive Die
  /-- A die numbered from 1. -/
  | sided (sides : Score) (atLeastTwo : 2 ≤ sides.val)
  /-- A die with the faces -1, 0 and 1. -/
  | fudge
  /-- A die numbered from 1 to 100. -/
  | percentile
  /-- A die with the listed faces. -/
  | custom (faces : List Score) (atLeastTwo : 2 ≤ faces.length)
deriving DecidableEq

namespace Die

/-- The die numbered from 1 to `sides`. Fewer than two sides are refused, and a
negative number is as few as zero. -/
def ofSides (sides : Score) : Except BuildError Die :=
  if h : 2 ≤ sides.val then .ok (sided sides h) else .error (.tooFewSides sides)

/-- The die with six sides, the one that is meant where no size is given. -/
def sixSided : Die := sided 6 (by decide)

/-- The die with the given faces. Faces may repeat and stand in any order, and
two of them are enough. -/
def ofFaces (faces : List Score) : Except BuildError Die :=
  if h : 2 ≤ faces.length then .ok (custom faces h) else .error (.tooFewValues faces.length)

/-- The lowest face. For listed faces it is the least of the list, wherever that
stands. -/
def low : Die → Score
  | sided _ _ | percentile => 1
  | fudge => .clamp (-1)
  | custom faces _ => faces.min?.getD 0

/-- The highest face. For listed faces it is the greatest of the list, wherever
that stands. -/
def high : Die → Score
  | sided sides _ => sides
  | percentile => 100
  | fudge => 1
  | custom faces _ => faces.max?.getD 0

/-- The range asked of the source: the scores of the die, or the places of
the faces that it lists. -/
def asked : Die → Score × Score
  | custom faces _ => (0, .clamp (faces.length - 1))
  | die => (die.low, die.high)

/-- The place among `count` faces that an answer picks. An answer that is out of
range picks the first face or the last one. -/
def place (count : Nat) (answer : Score) : Nat :=
  (Score.within 0 (.clamp (count - 1)) answer).val.toNat

/-- The face shown for an answer of the source. An answer outside of the range
that was asked counts as the nearest end of it. -/
def face (die : Die) (answer : Score) : Score :=
  match die with
  | custom faces _ => faces.getD (place faces.length answer) 0
  | die => .within die.low die.high answer

/-- The written form of a die. Letters are capital, and the faces of a listed
die stand in brackets in their order. -/
def text : Die → Text
  | sided sides _ => 'D' :: sides.text
  | fudge => ['D', 'F']
  | percentile => ['D', '%']
  | custom faces _ => 'D' :: '[' :: Text.join [','] (faces.map Score.text) ++ [']']

/-! ## Faces and bounds -/

/-- The least of a list and a start is below all of them. -/
theorem foldl_min_le (a : Score) (faces : List Score) :
    faces.foldl min a ≤ a ∧ ∀ f ∈ faces, faces.foldl min a ≤ f := by
  induction faces generalizing a with
  | nil => exact ⟨Int.le_refl _, by simp⟩
  | cons b rest ih =>
    obtain ⟨start, tail⟩ := ih (min a b)
    have ends : min a b ≤ a ∧ min a b ≤ b := by
      simp only [Min.min, Score.le_def]
      split
      next h => exact ⟨Int.le_refl _, h⟩
      next h => exact ⟨by omega, Int.le_refl _⟩
    rw [List.foldl_cons]
    refine ⟨Int.le_trans start ends.1, fun f hf => ?_⟩
    rcases List.mem_cons.1 hf with rfl | hf
    · exact Int.le_trans start ends.2
    · exact tail f hf

/-- The greatest of a list and a start is above all of them. -/
theorem le_foldl_max (a : Score) (faces : List Score) :
    a ≤ faces.foldl max a ∧ ∀ f ∈ faces, f ≤ faces.foldl max a := by
  induction faces generalizing a with
  | nil => exact ⟨Int.le_refl _, by simp⟩
  | cons b rest ih =>
    obtain ⟨start, tail⟩ := ih (max a b)
    have ends : a ≤ max a b ∧ b ≤ max a b := by
      simp only [Max.max, Score.le_def]
      split
      next h => exact ⟨h, Int.le_refl _⟩
      next h => exact ⟨Int.le_refl _, by omega⟩
    rw [List.foldl_cons]
    refine ⟨Int.le_trans ends.1 start, fun f hf => ?_⟩
    rcases List.mem_cons.1 hf with rfl | hf
    · exact Int.le_trans ends.2 start
    · exact tail f hf

/-- No listed face is below the lowest or above the highest. With `place_lt`
this puts every roll of such a die between its bounds. -/
theorem low_le_and_le_high_of_mem {faces : List Score} {atLeastTwo : 2 ≤ faces.length}
    {f : Score} (mem : f ∈ faces) :
    (custom faces atLeastTwo).low ≤ f ∧ f ≤ (custom faces atLeastTwo).high := by
  cases faces with
  | nil => simp at mem
  | cons a rest =>
    obtain ⟨lowStart, lowTail⟩ := foldl_min_le a rest
    obtain ⟨highStart, highTail⟩ := le_foldl_max a rest
    simp only [low, high, List.min?_cons', List.max?_cons', Option.getD_some]
    rcases List.mem_cons.1 mem with rfl | hf
    · exact ⟨lowStart, highStart⟩
    · exact ⟨lowTail f hf, highTail f hf⟩

/-- Whatever a source answers, the place picked is one of the list. So picking a
face cannot fail. -/
theorem place_lt {count : Nat} (h : 0 < count) (answer : Score) : place count answer < count := by
  have ends : (0 : Score) ≤ .clamp (count - 1) := by
    simp only [Score.le_def, Score.val_zero, Score.val_clamp, Score.lowest, Score.highest]
    omega
  obtain ⟨lo, hi⟩ := Score.within_mem ends answer
  simp only [Score.le_def, Score.val_zero, Score.val_clamp, Score.lowest, Score.highest] at lo hi
  unfold place
  omega

/-- A die that lists no faces has more than one score in its range. Listed faces
may all be the same. -/
theorem low_lt_high (die : Die)
    (unlisted : ∀ faces atLeastTwo, die ≠ custom faces atLeastTwo) : die.low < die.high := by
  cases die with
  | sided sides atLeastTwo =>
    show (1 : Score).val < sides.val
    rw [show (1 : Score).val = 1 from rfl]
    omega
  | fudge => decide
  | percentile => decide
  | custom faces atLeastTwo => exact absurd rfl (unlisted faces atLeastTwo)

/-- Every range that is asked of a source leaves a choice. For listed faces it
is the range of their places, not of their scores. -/
theorem asked_ordered (die : Die) : die.asked.1 < die.asked.2 := by
  cases die with
  | custom faces atLeastTwo =>
    show (0 : Score).val < (Score.clamp (faces.length - 1)).val
    simp only [Score.val_zero, Score.val_clamp, Score.lowest, Score.highest]
    omega
  | sided sides atLeastTwo => exact low_lt_high (sided sides atLeastTwo) (by simp)
  | fudge => exact low_lt_high fudge (by simp)
  | percentile => exact low_lt_high percentile (by simp)

/-- What a die shows lies between its bounds: a listed face does, and any other
answer was brought into the range. -/
theorem low_le_face_and_face_le_high (die : Die) (answer : Score) :
    die.low ≤ die.face answer ∧ die.face answer ≤ die.high := by
  cases die with
  | custom faces atLeastTwo =>
    have bound := place_lt (by omega : 0 < faces.length) answer
    have mem : faces.getD (place faces.length answer) 0 ∈ faces := by
      rw [List.getD_eq_getElem?_getD, List.getElem?_eq_getElem bound, Option.getD_some]
      exact List.getElem_mem bound
    exact low_le_and_le_high_of_mem mem
  | sided sides atLeastTwo =>
    have order : (sided sides atLeastTwo).low < (sided sides atLeastTwo).high :=
      low_lt_high _ (by simp)
    exact Score.within_mem (Int.le_of_lt order) answer
  | fudge => exact Score.within_mem (show low fudge ≤ high fudge by decide) answer
  | percentile => exact Score.within_mem (show low percentile ≤ high percentile by decide) answer

end Die

end Dice
