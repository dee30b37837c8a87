import Dice.Proofs.Bounds
import Dice.Proofs.Finishing

/-!
# Explosions of dice

An explosion sees the bounds of its members and nothing else of them. Of a die
the faces are known as well, so here is what the bounds come to.

The least value of an explosion is that of its pool, unless a negative result
asks for another roll. The bounds tell of every negative score from the least
face on, and a die may not have it: where faces leave a gap, an explosion can
be reported as bottomless although no roll ever falls.

An explosion is refused for a die that no face would stop from being rolled
again. For `>` and `<` a face that is the threshold itself counts along with
those, although it would.

Both are stated for a pool of any number of dice. `SinksByScore` and
`SinksByFace` are the two readings of the first, and `LeastBy` says what the
least value is by either of them; `Relentless` is what is refused.

Main statements: `leastBy_scores_and_faces` and `refused_for_die`.
-/

namespace Dice

variable {d : Die} {c : Comparator} {threshold : Option Score} {dice : List Die} {inner e : Expr}

namespace Die

/-- The threshold of a die that explodes: the one given, or the one that follows
from its least and its greatest face. -/
def limit (d : Die) (c : Comparator) (threshold : Option Score) : Score :=
  threshold.getD (c.defaultThreshold d.low d.high)

/-- Whether a score asks for another roll of a die that explodes. -/
def Again (d : Die) (c : Comparator) (threshold : Option Score) (score : Score) : Prop :=
  c.holds score (d.limit c threshold) = true

instance (d : Die) (c : Comparator) (threshold : Option Score) (score : Score) :
    Decidable (d.Again c threshold score) :=
  inferInstanceAs (Decidable (c.holds score (d.limit c threshold) = true))

/-- Whether a negative score from the least face on asks for another roll. The
die need not have it on a face. -/
def SinksByScore (c : Comparator) (threshold : Option Score) (d : Die) : Prop :=
  ∃ score, d.low ≤ score ∧ score < 0 ∧ d.Again c threshold score

/-- Whether a negative face asks for another roll, so that a roll can fall as
low as the answers want. -/
def SinksByFace (c : Comparator) (threshold : Option Score) (d : Die) : Prop :=
  ∃ face, d.HasFace face ∧ face < 0 ∧ d.Again c threshold face

/-- A negative face is a negative score from the least face on. -/
theorem sinksByScore_of_sinksByFace (sinks : d.SinksByFace c threshold) :
    d.SinksByScore c threshold := by
  obtain ⟨face, on, negative, again⟩ := sinks
  exact ⟨face, (between_of_hasFace on).1, negative, again⟩

/-- A die that lists no faces has all scores from its least face up to zero on
its faces. -/
theorem hasFace_of_negative (unlisted : ∀ faces atLeastTwo, d ≠ custom faces atLeastTwo)
    {score : Score} (above : d.low ≤ score) (negative : score < 0) : d.HasFace score := by
  have below := le_of_lt negative
  cases d with
  | custom faces atLeastTwo => exact absurd rfl (unlisted faces atLeastTwo)
  | sided sides atLeastTwo =>
    have high : 0 ≤ sides := by rw [Score.le_def, Score.val_zero]; omega
    exact ⟨above, le_trans below high⟩
  | fudge => exact ⟨above, le_trans below (by decide)⟩
  | percentile => exact ⟨above, le_trans below (by decide)⟩

/-- For `<` it is the least face that asks first, and of a die that lists no
faces nothing is missing. -/
theorem sinksByFace_of_sinksByScore
    (solid : c = .lessThan ∨ ∀ faces atLeastTwo, d ≠ custom faces atLeastTwo)
    (sinks : d.SinksByScore c threshold) : d.SinksByFace c threshold := by
  obtain ⟨score, above, negative, again⟩ := sinks
  rcases solid with rfl | unlisted
  · refine ⟨d.low, d.hasFace_low, lt_of_le_of_lt above negative, ?_⟩
    simp only [Again, Comparator.holds, decide_eq_true_eq] at again ⊢
    exact lt_of_le_of_lt above again
  · exact ⟨score, hasFace_of_negative unlisted above negative, negative, again⟩

/-- Whether no face of a die ends its rolls, but for a threshold that is a face
itself. -/
def Relentless (c : Comparator) (threshold : Option Score) (d : Die) : Prop :=
  ∀ face, d.HasFace face →
    d.Again c threshold face ∨ c ≠ .equals ∧ face = d.limit c threshold

/-- What is refused as endless is a die without a face that would end its rolls.
The check looks at the bounds only, which are faces, and the comparison is
monotone between them. -/
theorem endless_iff_relentless :
    c.endless d.low d.high (d.limit c threshold) = true ↔ d.Relentless c threshold := by
  cases c with
  | equals =>
    simp only [Comparator.endless, Relentless, Again, Comparator.holds, Bool.and_eq_true,
      decide_eq_true_eq, ne_eq, not_true, false_and, or_false]
    constructor
    -- a die of one score shows nothing but that score
    · rintro ⟨flat, same⟩ face on
      obtain ⟨low, high⟩ := between_of_hasFace on
      rw [same]
      exact le_antisymm high (flat ▸ low)
    · intro all
      have low := all _ d.hasFace_low
      have high := all _ d.hasFace_high
      exact ⟨low.trans high.symm, high.symm⟩
  -- the lowest face decides, and it is on the die
  | greaterThan =>
    simp only [Comparator.endless, Relentless, Again, Comparator.holds, decide_eq_true_eq, ne_eq,
      reduceCtorEq, not_false_eq_true, true_and, @eq_comm Score _ (d.limit _ _), ← le_iff_lt_or_eq]
    exact ⟨fun least face on => le_trans least (between_of_hasFace on).1,
      fun all => all _ d.hasFace_low⟩
  -- here the highest one does
  | lessThan =>
    simp only [Comparator.endless, Relentless, Again, Comparator.holds, decide_eq_true_eq, ne_eq,
      reduceCtorEq, not_false_eq_true, true_and, ← le_iff_lt_or_eq]
    exact ⟨fun greatest face on => le_trans (between_of_hasFace on).2 greatest,
      fun all => all _ d.hasFace_high⟩

/-- All faces of such a die ask for another roll, unless one is the threshold of
`>` or `<`. -/
theorem forall_again_iff (relentless : d.Relentless c threshold) :
    (∀ face, d.HasFace face → d.Again c threshold face) ↔
      c = .equals ∨ ¬ d.HasFace (d.limit c threshold) := by
  constructor
  · intro all
    by_contra both
    obtain ⟨other, on⟩ := not_or.1 both
    have again := all _ (not_not.1 on)
    cases c with
    | equals => exact other rfl
    | greaterThan => simp [Again, Comparator.holds] at again
    | lessThan => simp [Again, Comparator.holds] at again
  · intro off face on
    rcases relentless face on with again | ⟨other, rfl⟩
    · exact again
    · rcases off with equals | off
      · exact absurd equals other
      · exact absurd on off

end Die

namespace Expr

/-! ## The least value -/

/-- Whether the least value of an explosion of dice is that of their pool,
unless some of them sink: then it is the least score. -/
def LeastBy (sinks : Die → Prop) (dice : List Die) (e : Expr) : Prop :=
  ((∃ d ∈ dice, sinks d) → e.minimum = .lowest) ∧
    ((¬ ∃ d ∈ dice, sinks d) → e.minimum = (pool (dice.map die)).minimum)

/-- If fewer dice sink, the least value stays what it is wherever one of them
does, and wherever the pool itself has the least score. -/
theorem LeastBy.leastBy_iff {sinks less : Die → Prop} (least : LeastBy sinks dice e)
    (fewer : ∀ d ∈ dice, less d → sinks d) : LeastBy less dice e ↔
      (pool (dice.map die)).minimum = .lowest ∨ ((∃ d ∈ dice, sinks d) → ∃ d ∈ dice, less d) := by
  have some : (∃ d ∈ dice, less d) → ∃ d ∈ dice, sinks d :=
    fun ⟨d, mem, own⟩ => ⟨d, mem, fewer d mem own⟩
  constructor
  · intro same
    by_contra neither
    obtain ⟨above, gap⟩ := not_or.1 neither
    obtain ⟨all, none⟩ := Classical.not_imp.1 gap
    exact above ((same.2 none).symm.trans (least.1 all))
  · rintro (flat | enough)
    · refine ⟨fun own => least.1 (some own), fun none => ?_⟩
      by_cases all : ∃ d ∈ dice, sinks d
      · exact (least.1 all).trans flat.symm
      · exact least.2 all
    · exact ⟨fun own => least.1 (some own), fun none => least.2 (mt enough none)⟩

/-- The test for a bottomless explosion asks for a score by which one of the
dice sinks. -/
theorem bottomless_iff : Bounds.bottomless c threshold ((dice.map die).map bounds) = true ↔
    ∃ d ∈ dice, d.SinksByScore c threshold := by
  rw [Bounds.bottomless, List.map_map, List.any_map, List.any_eq_true]
  exact exists_congr fun d => and_congr_right fun _ => Comparator.rerollsNegative_iff

/-- The least value is what it is by the scores, for every explosion of dice
that is accepted. -/
theorem leastBy_scores (made : inner.explode c threshold = .ok e)
    (members : inner.members = dice.map die) : LeastBy (Die.SinksByScore c threshold) dice e := by
  obtain ⟨rfl, -⟩ := accepted_explode made
  rw [members]
  refine ⟨fun sinks => ?_, fun holds => ?_⟩
  · rw [minimum_explosion, if_pos (bottomless_iff.2 sinks)]
  · rw [minimum_explosion, if_neg (mt bottomless_iff.1 holds), minimum_pool]

/-- **What the least value of an explosion of dice is.** Every negative score
from the least face of a die on that asks for another roll makes it the least
score. By the faces that the dice have it would be the same wherever a negative
face asks as well, or the pool already reaches the least score; and so it is for
`<` and for dice that list no faces. -/
theorem leastBy_scores_and_faces (made : inner.explode c threshold = .ok e)
    (members : inner.members = dice.map die) :
    LeastBy (Die.SinksByScore c threshold) dice e ∧
    (LeastBy (Die.SinksByFace c threshold) dice e ↔
      (pool (dice.map die)).minimum = .lowest ∨
      ((∃ d ∈ dice, d.SinksByScore c threshold) → ∃ d ∈ dice, d.SinksByFace c threshold)) ∧
    ((c = .lessThan ∨ ∀ d ∈ dice, ∀ faces atLeastTwo, d ≠ .custom faces atLeastTwo) →
      LeastBy (Die.SinksByFace c threshold) dice e) := by
  have scores := leastBy_scores made members
  have fewer : ∀ d ∈ dice, d.SinksByFace c threshold → d.SinksByScore c threshold :=
    fun d _ => Die.sinksByScore_of_sinksByFace
  have iff := scores.leastBy_iff fewer
  refine ⟨scores, iff, fun solid => iff.2 (.inr ?_)⟩
  rintro ⟨d, mem, sinks⟩
  exact ⟨d, mem, Die.sinksByFace_of_sinksByScore (solid.imp_right fun each => each d mem) sinks⟩

/-- Two dice of which the second has a face in the gap that the first leaves. -/
def overlapping : List Die :=
  [.custom [.clamp (-5), 3] (by decide), .custom [.clamp (-4), .clamp (-2)] (by decide)]

/-- A threshold in the gap is a face of the second die, so the faces tell of a
sinking die too. -/
theorem leastBy_scores_and_faces_overlapping :
    (pool (overlapping.map die)).explode .equals (some (.clamp (-2))) =
        .ok (explosion (overlapping.map die) .equals (some (.clamp (-2)))) ∧
      LeastBy (Die.SinksByFace .equals (some (.clamp (-2)))) overlapping
        (explosion (overlapping.map die) .equals (some (.clamp (-2)))) := by
  have made : (pool (overlapping.map die)).explode .equals (some (.clamp (-2))) =
      .ok (explosion (overlapping.map die) .equals (some (.clamp (-2)))) := by decide +kernel
  obtain ⟨-, iff, -⟩ := leastBy_scores_and_faces made rfl
  refine ⟨made, iff.2 (.inr fun _ => ?_)⟩
  exact ⟨_, List.mem_cons_of_mem _ (List.mem_singleton.2 rfl), .clamp (-2), by decide⟩

/-- A die with nothing between -5 and 3 on its faces. -/
def gapped : Die := .custom [.clamp (-5), 3] (by decide)

/-- No negative face of this die asks for another roll, and still its explosion
is reported as bottomless. -/
theorem not_leastBy_faces_gapped :
    (die gapped).explode .equals (some (.clamp (-2))) =
        .ok (explosion [die gapped] .equals (some (.clamp (-2)))) ∧
      (¬ ∃ d ∈ [gapped], d.SinksByFace .equals (some (.clamp (-2)))) ∧
      (explosion [die gapped] .equals (some (.clamp (-2)))).minimum = .lowest ∧
      (pool [die gapped]).minimum = .clamp (-5) ∧
      ¬ LeastBy (Die.SinksByFace .equals (some (.clamp (-2)))) [gapped]
        (explosion [die gapped] .equals (some (.clamp (-2)))) := by
  -- between the faces -5 and 3 there are scores below zero, but no faces
  have none : ¬ ∃ d ∈ [gapped], d.SinksByFace .equals (some (.clamp (-2))) := by
    rintro ⟨d, mem, face, on, -, again⟩
    rw [List.mem_singleton] at mem
    subst mem
    have only : face = .clamp (-5) ∨ face = 3 := by simpa [gapped, Die.HasFace] using on
    rcases only with rfl | rfl
    · exact absurd again (by decide)
    · exact absurd again (by decide)
  have least : (explosion [die gapped] .equals (some (.clamp (-2)))).minimum = .lowest := by
    decide +kernel
  have own : (pool [die gapped]).minimum = .clamp (-5) := by decide +kernel
  refine ⟨by decide +kernel, none, least, own, fun same => ?_⟩
  have flat := same.2 none
  rw [least, List.map_singleton, own] at flat
  exact absurd flat (by decide)

/-! ## Refusals -/

/-- A die all of whose faces ask for another roll keeps every roll of its
explosion from ending, with any patience and any answers. -/
theorem roll_eq_none {d : Die} (mem : d ∈ dice)
    (all : ∀ face, d.HasFace face → d.Again c threshold face) (patience : Nat)
    (answers : List Score) :
    (explosion (dice.map die) c threshold).roll .answers patience answers = none := by
  refine Option.eq_none_iff_forall_not_mem.2 fun ⟨toss, run⟩ rolled => ?_
  obtain ⟨report, rolls, -⟩ := rolls_of_roll_answers rolled
  obtain ⟨own, shown, stop⟩ := rolls.exists_stop _ (List.mem_map_of_mem mem)
  cases shown with
  | die d answer =>
    have again := all _ (d.hasFace_face answer)
    exact absurd again (Bool.not_eq_true _ ▸ stop)

/-- An explosion of dice is refused if one of them would never end its rolls,
and only then. -/
theorem refused_iff_relentless (members : inner.members = dice.map die) :
    (∃ refused, inner.explode c threshold = .error (.endless refused)) ↔
      ∃ d ∈ dice, d.Relentless c threshold := by
  have found : ((inner.members.find? (endless c threshold)).isSome = true) ↔
      ∃ d ∈ dice, d.Relentless c threshold := by
    simp only [List.find?_isSome, members, List.mem_map, exists_exists_and_eq_and]
    exact exists_congr fun d => and_congr_right fun _ => Die.endless_iff_relentless
  rw [← found]
  unfold explode
  cases inner.members.find? (endless c threshold) with
  | none => simp
  | some member => simp

/-- **An explosion of dice is refused for a die that no face would stop.** A
face that is the threshold of `>` or `<` is counted as if it would not. Where
there is no such face on the die, all of its faces ask for another roll, and no
answers end it. -/
theorem refused_for_die (members : inner.members = dice.map die) :
    ((∃ refused, inner.explode c threshold = .error (.endless refused)) ↔
      ∃ d ∈ dice, d.Relentless c threshold) ∧
    ∀ d ∈ dice, d.Relentless c threshold →
      ((∀ face, d.HasFace face → d.Again c threshold face) ↔
        c = .equals ∨ ¬ d.HasFace (d.limit c threshold)) ∧
      (c = .equals ∨ ¬ d.HasFace (d.limit c threshold) →
        ∀ patience answers,
          (explosion inner.members c threshold).roll .answers patience answers = none) := by
  refine ⟨refused_iff_relentless members, fun d mem relentless => ?_⟩
  have iff := Die.forall_again_iff relentless
  refine ⟨iff, fun off patience answers => ?_⟩
  rw [members]
  exact roll_eq_none mem (iff.2 off) patience answers

/-- A die that can stop, and one with both faces above the threshold. -/
def halfStopping : List Die := [.sixSided, .custom [3, 5] (by decide)]

/-- The second die keeps a roll of both from ending. -/
theorem refused_for_die_halfStopping :
    (pool (halfStopping.map die)).members = halfStopping.map die ∧
      (∃ refused, (pool (halfStopping.map die)).explode .greaterThan (some 2) =
        .error (.endless refused)) ∧
      ∀ patience answers, (explosion (halfStopping.map die) .greaterThan (some 2)).roll .answers
        patience answers = none := by
  have members : (pool (halfStopping.map die)).members = halfStopping.map die := rfl
  have mem : .custom [3, 5] (by decide) ∈ halfStopping :=
    List.mem_cons_of_mem _ (List.mem_singleton.2 rfl)
  have relentless : Die.Relentless .greaterThan (some 2) (.custom [3, 5] (by decide)) :=
    Die.endless_iff_relentless.1 (by decide)
  have off : ¬ Die.HasFace (.custom [3, 5] (by decide)) 2 := by decide
  exact ⟨members, (refused_for_die members).1.2 ⟨_, mem, relentless⟩,
    ((refused_for_die members).2 _ mem relentless).2 (.inr off)⟩

/-- A die with two sides. -/
def coin : Die := .sided 2 (by decide)

/-- Where no threshold is given, `>` refuses it for the threshold 1, and a 1
would stop it. -/
theorem not_forall_again_coin :
    (die coin).explode .greaterThan none = .error (.endless "D2!>1") ∧
      (¬ ∃ d ∈ [coin], ∀ face, d.HasFace face → d.Again .greaterThan none face) ∧
      ((explosion [die coin] .greaterThan none).roll .answers 1 [1]).isSome = true := by
  refine ⟨by decide +kernel, ?_, by decide +kernel⟩
  rintro ⟨d, mem, all⟩
  rw [List.mem_singleton] at mem
  subst mem
  exact absurd (all 1 (by decide)) (by decide)

end Expr

end Dice
