import Dice.Die
import Dice.Proofs.Score.Order

/-!
# What a die can show

A die shows a score if some answer within the range that it asks for gives
that score. Answers outside of the range add nothing. What is shown is on a
face, and both bounds of a die are. All faces are shown as long as their
places are scores.

There are thus three notions: what a die has for its bounds, what is on a
face, and what it can show. They agree as far as one would think: a bound is
on a face (`hasFace_low`, `hasFace_high`), a face is shown
(`shows_of_hasFace`), and what is shown lies between the bounds
(`between_of_shows`). The faces of a custom die are found by place, and a
place past the greatest score cannot be asked for; `Fits` says that there is
none. It is a condition on the length of a list, and no list in a machine
fails it.

The dice that do not list faces show every score of their range, and the
statements about them follow from what clamping to a range does.

Main statements: `shows_face`, `hasFace_low`, `hasFace_high` and
`shows_of_hasFace`.
-/

namespace Dice.Die

/-- Whether an answer of the range asked makes a die show a score. Answers
outside of that range make it show nothing else. -/
def Shows (d : Die) (score : Score) : Prop :=
  ∃ answer, d.asked.1 ≤ answer ∧ answer ≤ d.asked.2 ∧ d.face answer = score

/-- Whether the places of all faces are scores. No list that fits into memory is
longer. -/
def Fits : Die → Prop
  | custom faces _ => (faces.length : Int) ≤ Score.highest.val
  | _ => True

/-- Whether a score is on a face of a die: on one that it lists, or within its
range. Answers play no part in it. -/
def HasFace : Die → Score → Prop
  | custom faces _, score => score ∈ faces
  | d, score => d.low ≤ score ∧ score ≤ d.high

instance : (d : Die) → (score : Score) → Decidable (d.HasFace score)
  | custom faces _, score => inferInstanceAs (Decidable (score ∈ faces))
  | sided sides _, score => inferInstanceAs (Decidable (1 ≤ score ∧ score ≤ sides))
  | fudge, score => inferInstanceAs (Decidable (fudge.low ≤ score ∧ score ≤ fudge.high))
  | percentile, score =>
    inferInstanceAs (Decidable (percentile.low ≤ score ∧ score ≤ percentile.high))

theorem low_le_high (d : Die) : d.low ≤ d.high :=
  le_trans (d.low_le_face_and_face_le_high 0).1 (d.low_le_face_and_face_le_high 0).2

/-- What a die can show lies between its bounds. -/
theorem between_of_shows {d : Die} {score : Score} (h : d.Shows score) :
    d.low ≤ score ∧ score ≤ d.high := by
  obtain ⟨answer, -, -, rfl⟩ := h
  exact d.low_le_face_and_face_le_high answer

/-- An answer counts as the nearest one within the range asked. So for what a
die shows such answers are enough. -/
theorem face_within (d : Die) (answer : Score) :
    d.face (Score.within d.asked.1 d.asked.2 answer) = d.face answer := by
  have mem := Score.within_mem (le_of_lt d.asked_ordered) answer
  cases d with
  | custom faces atLeastTwo =>
    simp only [face, place, asked] at mem ⊢
    rw [Score.within_of_mem mem.1 mem.2]
  | sided sides atLeastTwo => exact Score.within_of_mem mem.1 mem.2
  | fudge => exact Score.within_of_mem mem.1 mem.2
  | percentile => exact Score.within_of_mem mem.1 mem.2

/-- Whatever the answer is, what the die then shows is a face that it can show:
an answer outside of the range counts as one within it. -/
theorem shows_face (d : Die) (answer : Score) : d.Shows (d.face answer) := by
  have mem := Score.within_mem (le_of_lt d.asked_ordered) answer
  exact ⟨_, mem.1, mem.2, d.face_within answer⟩

/-! ## Faces -/

/-- No face is below the lowest or above the highest, on any kind of die. -/
theorem between_of_hasFace {d : Die} {score : Score} (on : d.HasFace score) :
    d.low ≤ score ∧ score ≤ d.high := by
  cases d with
  | custom faces atLeastTwo => exact low_le_and_le_high_of_mem on
  | sided sides atLeastTwo => exact on
  | fudge => exact on
  | percentile => exact on

theorem hasFace_face (d : Die) (answer : Score) : d.HasFace (d.face answer) := by
  cases d with
  | custom faces atLeastTwo =>
    have bound := place_lt (by omega : 0 < faces.length) answer
    show faces.getD (place faces.length answer) 0 ∈ faces
    rw [List.getD_eq_getElem?_getD, List.getElem?_eq_getElem bound, Option.getD_some]
    exact List.getElem_mem bound
  | sided sides atLeastTwo => exact low_le_face_and_face_le_high _ answer
  | fudge => exact low_le_face_and_face_le_high _ answer
  | percentile => exact low_le_face_and_face_le_high _ answer

/-- The lower bound is on a face: the least of a list is in it. There is a least
one, since a list has two faces or more. -/
theorem hasFace_low (d : Die) : d.HasFace d.low := by
  cases d with
  | custom faces atLeastTwo =>
    obtain ⟨least, eq⟩ := Option.isSome_iff_exists.1
      (List.isSome_min?_of_ne_nil (l := faces) (by rintro rfl; simp at atLeastTwo))
    have value : (custom faces atLeastTwo).low = least := by rw [low, eq, Option.getD_some]
    rw [value]
    exact List.min?_mem eq
  | sided sides atLeastTwo => exact ⟨le_refl _, low_le_high _⟩
  | fudge => exact ⟨le_refl _, low_le_high _⟩
  | percentile => exact ⟨le_refl _, low_le_high _⟩

/-- The upper bound is on a face: the greatest of a list is in it. -/
theorem hasFace_high (d : Die) : d.HasFace d.high := by
  cases d with
  | custom faces atLeastTwo =>
    obtain ⟨greatest, eq⟩ := Option.isSome_iff_exists.1
      (List.isSome_max?_of_ne_nil (l := faces) (by rintro rfl; simp at atLeastTwo))
    have value : (custom faces atLeastTwo).high = greatest := by rw [high, eq, Option.getD_some]
    rw [value]
    exact List.max?_mem eq
  | sided sides atLeastTwo => exact ⟨low_le_high _, le_refl _⟩
  | fudge => exact ⟨low_le_high _, le_refl _⟩
  | percentile => exact ⟨low_le_high _, le_refl _⟩

/-- A die shows the faces that it lists: the place of a face is an answer that
shows it. -/
theorem shows_of_mem {faces : List Score} {atLeastTwo : 2 ≤ faces.length}
    (fits : (custom faces atLeastTwo).Fits) {score : Score} (mem : score ∈ faces) :
    (custom faces atLeastTwo).Shows score := by
  obtain ⟨i, bound, rfl⟩ := List.mem_iff_getElem.1 mem
  simp only [Fits, Score.highest] at fits
  have exact : (Score.clamp i).val = i := Score.val_clamp_of_mem (by omega) (by omega)
  have last : (Score.clamp (faces.length - 1)).val = faces.length - 1 :=
    Score.val_clamp_of_mem (by omega) (by omega)
  have lo : (0 : Score) ≤ Score.clamp i := by rw [Score.le_def, exact, Score.val_zero]; omega
  have hi : Score.clamp i ≤ Score.clamp (faces.length - 1) := by
    rw [Score.le_def, exact, last]
    omega
  refine ⟨Score.clamp i, lo, hi, ?_⟩
  simp only [face, place]
  rw [Score.within_of_mem lo hi, exact, Int.toNat_natCast, List.getD_eq_getElem?_getD,
    List.getElem?_eq_getElem bound, Option.getD_some]

/-- A die shows what is on its faces. A die without a list is asked for its
faces directly. -/
theorem shows_of_hasFace {d : Die} (fits : d.Fits) {score : Score} (on : d.HasFace score) :
    d.Shows score := by
  cases d with
  | custom faces atLeastTwo => exact shows_of_mem fits on
  | sided sides atLeastTwo => exact ⟨score, on.1, on.2, Score.within_of_mem on.1 on.2⟩
  | fudge => exact ⟨score, on.1, on.2, Score.within_of_mem on.1 on.2⟩
  | percentile => exact ⟨score, on.1, on.2, Score.within_of_mem on.1 on.2⟩

/-- The least face is shown, so the lower bound is reached. A list that is too
long for its places to be scores is ruled out. -/
theorem shows_low {d : Die} (fits : d.Fits) : d.Shows d.low := shows_of_hasFace fits d.hasFace_low

/-- The greatest face is shown, so the upper bound is reached. -/
theorem shows_high {d : Die} (fits : d.Fits) : d.Shows d.high :=
  shows_of_hasFace fits d.hasFace_high

end Dice.Die
