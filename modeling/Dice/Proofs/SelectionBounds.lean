import Dice.Proofs.Bounds
import Dice.Proofs.Selection

/-!
# Bounds of a selection of dice

What a selection counts changes from roll to roll, and saturation makes a sum
depend on the order of its summands. So the bounds of a selection can fail:
raising a die can bring it among those that count, in front of others that the
sum has then already cut.

The results of dice are independent, so what a selection of dice can give is
known exactly: what counts of any faces of them (`rolls_selection_iff`). The
bounds hold if all of that lies between what counts of the least faces and
what counts of the greatest ones; `Encloses` says so without a word about
evaluation, and no weaker condition would do.

A condition that can be checked is that the dice cannot saturate together:
what the greatest faces gain and what the least ones lose, all dice taken
together, stays in the range. Then all partial sums are exact, whatever is
kept, and exact sums of what counts rise with the results.

Main statements: `boundsHold_selection_iff`, when the bounds of a selection of
dice hold, and `not_boundsHold_crossing`, dice for which they do not.
-/

namespace Dice

namespace Score

/-- What the positive ones of some scores add up to exactly. No sum of some of
them gets higher. -/
def gains (scores : List Score) : Int := (scores.map fun a => max 0 a.val).sum

/-- What the negative ones of some scores add up to exactly. No sum of some of
them gets lower. -/
def losses (scores : List Score) : Int := (scores.map fun a => min 0 a.val).sum

theorem gains_nonneg (scores : List Score) : 0 ≤ gains scores := by
  induction scores with
  | nil => exact Int.le_refl 0
  | cons a rest ih => simp only [gains, List.map_cons, List.sum_cons] at ih ⊢; omega

theorem losses_nonpos (scores : List Score) : losses scores ≤ 0 := by
  induction scores with
  | nil => exact Int.le_refl 0
  | cons a rest ih => simp only [losses, List.map_cons, List.sum_cons] at ih ⊢; omega

/-- Within these limits no partial sum leaves the range. What is still to come
is part of the limits, so each step leaves limits for the rest. -/
theorem foldl_add_eq_total {scores : List Score} :
    ∀ {a : Score}, a.val + gains scores ≤ highest.val → lowest.val ≤ a.val + losses scores →
      (scores.foldl (· + ·) a).val = a.val + total scores := by
  induction scores with
  | nil => intro a _ _; simp [total]
  | cons b rest ih =>
    intro a high low
    have up := gains_nonneg rest
    have down := losses_nonpos rest
    simp only [gains, losses, List.map_cons, List.sum_cons] at high low up down
    -- what is left to add can bring no partial sum back, so none of them was cut
    have exact : (a + b).val = a.val + b.val := by
      rw [val_add]
      exact val_clamp_of_mem (by simp only [lowest] at low; omega)
        (by simp only [highest] at high; omega)
    rw [List.foldl_cons, ih (by rw [exact]; simp only [gains]; omega)
      (by rw [exact]; simp only [losses]; omega), exact]
    simp only [total, List.map_cons, List.sum_cons]
    omega

/-- Scores whose gains and losses stay in the range add up exactly, in any
order. -/
theorem val_sum_eq_total {scores : List Score} (high : gains scores ≤ highest.val)
    (low : lowest.val ≤ losses scores) : (sum scores).val = total scores := by
  have exact : (scores.foldl (· + ·) 0).val = (0 : Score).val + total scores :=
    foldl_add_eq_total (by rwa [val_zero, Int.zero_add]) (by rwa [val_zero, Int.zero_add])
  rwa [val_zero, Int.zero_add] at exact

theorem gains_mono {as bs : List Score} (h : List.Forall₂ (· ≤ ·) as bs) :
    gains as ≤ gains bs := by
  induction h with
  | nil => exact Int.le_refl 0
  | cons head _ ih =>
    have := le_def.1 head
    simp only [gains, List.map_cons, List.sum_cons] at ih ⊢
    omega

theorem losses_mono {as bs : List Score} (h : List.Forall₂ (· ≤ ·) as bs) :
    losses as ≤ losses bs := by
  induction h with
  | nil => exact Int.le_refl 0
  | cons head _ ih =>
    have := le_def.1 head
    simp only [losses, List.map_cons, List.sum_cons] at ih ⊢
    omega

end Score

namespace Selection

/-- What counts gains no more and loses no more than all of it: what is dropped
has gains and losses of its own. -/
theorem gains_kept_le (rule : Selection) (threshold : Nat) (scores : List Score) :
    Score.gains (rule.kept threshold id scores) ≤ Score.gains scores ∧
      Score.losses scores ≤ Score.losses (rule.kept threshold id scores) := by
  have whole := rule.kept_append_dropped_perm threshold id scores
  have up := (whole.map fun a => max 0 a.val).sum_eq
  have down := (whole.map fun a => min 0 a.val).sum_eq
  rw [List.map_append, List.sum_append] at up down
  have rest := Score.gains_nonneg (rule.dropped threshold id scores)
  have rest' := Score.losses_nonpos (rule.dropped threshold id scores)
  simp only [Score.gains, Score.losses] at rest rest' ⊢
  omega

/-- Without saturation, raising results does not lower the sum of those that
count. The sums are exact then, and exact sums of what counts rise. -/
theorem sum_kept_mono (rule : Selection) (threshold : Nat) {as bs : List Score}
    (h : List.Forall₂ (· ≤ ·) as bs) (high : Score.gains bs ≤ Score.highest.val)
    (low : Score.lowest.val ≤ Score.losses as) :
    Score.sum (rule.kept threshold id as) ≤ Score.sum (rule.kept threshold id bs) := by
  have up := Score.gains_mono h
  have down := Score.losses_mono h
  have as_kept := rule.gains_kept_le threshold as
  have bs_kept := rule.gains_kept_le threshold bs
  rw [Score.le_def, Score.val_sum_eq_total (by omega) (by omega),
    Score.val_sum_eq_total (by omega) (by omega)]
  exact total_kept_mono rule threshold h

end Selection

/-! ## Selections of dice -/

namespace Expr

variable {dice : List Die} {shown : List Score}

theorem shows_of_rolls {d : Die} {report : Report} (rolls : (die d).Rolls report) :
    d.Shows report.toss.value := by
  cases rolls with
  | die d answer => exact d.shows_face answer

/-- Dice rolled one after the other give results that they can show, in their
order. -/
theorem shows_of_parts {parts : List (Expr × Report)} (same : parts.map (·.1) = dice.map die)
    (each : ∀ part ∈ parts, Rolls part.1 part.2) :
    List.Forall₂ Die.Shows dice (parts.map (·.2.toss.value)) := by
  induction dice generalizing parts with
  | nil => simp_all
  | cons d rest ih =>
    obtain ⟨part, parts, rfl, head, tail⟩ := List.map_eq_cons_iff.1 same
    exact .cons (shows_of_rolls (head ▸ each part (by simp)))
      (ih tail fun x hx => each x (by simp [hx]))

/-- Any results that dice can show come up in some rolls of them: each die is
given the answer that shows its result. -/
theorem parts_of_shows (each : List.Forall₂ Die.Shows dice shown) :
    ∃ parts : List (Expr × Report), parts.map (·.1) = dice.map die ∧
      (∀ part ∈ parts, Rolls part.1 part.2) ∧ parts.map (·.2.toss.value) = shown := by
  induction each with
  | nil => exact ⟨[], rfl, by simp, rfl⟩
  | @cons d score rest scores head _ ih =>
    obtain ⟨answer, -, -, rfl⟩ := head
    obtain ⟨parts, same, rolls, values⟩ := ih
    exact ⟨(die d, _) :: parts, by simp [same],
      List.forall_mem_cons.2 ⟨.die d answer, rolls⟩, by rw [List.map_cons, values]; rfl⟩

/-- Rolling a selection of dice gives what counts of some faces of theirs, and
nothing else; every choice of faces is rolled by some answers. -/
theorem rolls_selection_iff (rule : Selection) (threshold : Nat) (value : Score) :
    (∃ report, (selection (dice.map die) rule threshold).Rolls report ∧
      report.toss.value = value) ↔
    ∃ shown, List.Forall₂ Die.Shows dice shown ∧
      .sum (rule.kept threshold id shown) = value := by
  constructor
  · rintro ⟨report, rolls, rfl⟩
    generalize same : dice.map die = members at rolls
    cases rolls with
    | selection parts rule threshold each =>
      refine ⟨_, shows_of_parts same.symm each, ?_⟩
      rw [Report.ofOutcome, Outcome.toss, Outcome.value_ofSelection, List.map_map]
      rfl
  · rintro ⟨shown, each, rfl⟩
    obtain ⟨parts, same, rolls, rfl⟩ := parts_of_shows each
    refine ⟨_, same ▸ Rolls.selection parts rule threshold rolls, ?_⟩
    rw [Report.ofOutcome, Outcome.toss, Outcome.value_ofSelection, List.map_map]
    rfl

theorem exists_shows (dice : List Die) : ∃ shown, List.Forall₂ Die.Shows dice shown := by
  induction dice with
  | nil => exact ⟨[], .nil⟩
  | cons d rest ih =>
    obtain ⟨shown, each⟩ := ih
    exact ⟨_, .cons (d.shows_face 0) each⟩

/-- Whether what counts of any faces of some dice adds up to something between
what counts of their least faces and what counts of their greatest ones. -/
def Encloses (rule : Selection) (threshold : Nat) (dice : List Die) : Prop :=
  ∀ shown, List.Forall₂ Die.Shows dice shown →
    Score.sum (rule.kept threshold id (dice.map Die.low)) ≤
        Score.sum (rule.kept threshold id shown) ∧
      Score.sum (rule.kept threshold id shown) ≤
        Score.sum (rule.kept threshold id (dice.map Die.high))

/-- The bounds of a selection of dice hold if what counts of any faces lies
between what counts of the least and of the greatest ones. -/
theorem boundsHold_iff_encloses (dice : List Die) (rule : Selection) (threshold : Nat) :
    (selection (dice.map die) rule threshold).BoundsHold ↔ Encloses rule threshold dice := by
  have low : (selection (dice.map die) rule threshold).minimum =
      .sum (rule.kept threshold id (dice.map Die.low)) := by
    rw [minimum_selection, List.map_map]
    rfl
  have high : (selection (dice.map die) rule threshold).maximum =
      .sum (rule.kept threshold id (dice.map Die.high)) := by
    rw [maximum_selection, List.map_map]
    rfl
  rw [boundsHold_iff, low, high]
  constructor
  · rintro ⟨-, between⟩ shown each
    -- any faces are rolled by some answers, so the bounds hold of what counts of them
    obtain ⟨report, rolls, value⟩ := (rolls_selection_iff rule threshold _).2 ⟨shown, each, rfl⟩
    exact value ▸ between report rolls
  · refine fun between => ⟨?_, fun report rolls => ?_⟩
    · obtain ⟨shown, each⟩ := exists_shows dice
      exact le_trans (between shown each).1 (between shown each).2
    · obtain ⟨shown, each, value⟩ := (rolls_selection_iff rule threshold _).1 ⟨report, rolls, rfl⟩
      exact value ▸ between shown each

/-- Dice whose faces cannot saturate together enclose what counts of them. The
faces shown lie between the least and the greatest ones, die by die. -/
theorem encloses_of_unsaturated {rule : Selection} {threshold : Nat} {dice : List Die}
    (gain : Score.gains (dice.map Die.high) ≤ Score.highest.val)
    (loss : Score.lowest.val ≤ Score.losses (dice.map Die.low)) : Encloses rule threshold dice := by
  intro shown each
  -- the faces shown lie between the least and the greatest ones, die by die
  have above : List.Forall₂ (· ≤ ·) (dice.map Die.low) shown :=
    List.forall₂_map_left_iff.2 (each.imp fun _ _ h => (Die.between_of_shows h).1)
  have below : List.Forall₂ (· ≤ ·) shown (dice.map Die.high) :=
    List.forall₂_map_right_iff.2 (each.imp fun _ _ h => (Die.between_of_shows h).2).flip
  have gain' := Score.gains_mono below
  have loss' := Score.losses_mono above
  exact ⟨rule.sum_kept_mono threshold above (by omega) loss,
    rule.sum_kept_mono threshold below gain (by omega)⟩

/-- **When the bounds of a selection of dice hold.** What counts of any faces
must add up to something between them. That is so whenever all that the faces
can gain or lose together stays in the range of scores. -/
theorem boundsHold_selection_iff (dice : List Die) (rule : Selection) (threshold : Nat) :
    ((selection (dice.map die) rule threshold).BoundsHold ↔ Encloses rule threshold dice) ∧
    (Score.gains (dice.map Die.high) ≤ Score.highest.val →
      Score.lowest.val ≤ Score.losses (dice.map Die.low) →
        (selection (dice.map die) rule threshold).BoundsHold) :=
  have iff := boundsHold_iff_encloses dice rule threshold
  ⟨iff, fun gain loss => iff.2 (encloses_of_unsaturated gain loss)⟩

/-- Four dice of which the first counts among the three highest only while the
last one is low. The two between them always show the greatest score. -/
def crossing : List Die :=
  [.custom [.clamp (-9223372036854775806), .clamp (-9223372036854775806)] (by decide),
    .custom [.highest, .highest] (by decide),
    .custom [.highest, .highest] (by decide),
    .custom [.clamp (-9223372036854775807), .clamp (-9223372036854775805)] (by decide)]

/-- The bounds of the selection are out of order. The least faces that count
come to 1 before the sum is cut at the greatest score; of the greatest ones the
sum is cut first and then drops to 2. -/
theorem not_boundsHold_crossing :
    ¬ (selection (crossing.map die) .keepHighest 3).BoundsHold := by
  intro holds
  have low : (selection (crossing.map die) .keepHighest 3).minimum = .highest := by
    rw [minimum_selection]
    simp +decide [crossing, Selection.kept, Selection.keptPlaces, Selection.ranking,
      Selection.inPlace, Selection.stretch, List.mergeSort, List.MergeSort.Internal.splitInTwo]
  have high : (selection (crossing.map die) .keepHighest 3).maximum = 2 := by
    rw [maximum_selection]
    simp +decide [crossing, Selection.kept, Selection.keptPlaces, Selection.ranking,
      Selection.inPlace, Selection.stretch, List.mergeSort, List.MergeSort.Internal.splitInTwo]
  have ordered := holds.ordered
  rw [low, high] at ordered
  exact absurd ordered (by decide)

end Expr

end Dice
