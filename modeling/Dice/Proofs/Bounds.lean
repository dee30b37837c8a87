import Dice.Proofs.BoundEvaluation
import Dice.Proofs.Die
import Dice.Proofs.Expr.Every
import Dice.Proofs.Operator
import Dice.Proofs.Rolling

/-!
# Rolls stay between the bounds

The least and the greatest value that an expression reports bound its rolls.
Sums and operators keep the order of scores, so bounds of the members bound
the whole. The one case with an argument of its own is the lower end of an
explosion: unless it is reported as bottomless, a value that asks for another
roll is not negative (`nonneg_of_holds`), so however long a member goes on,
its total is at least its last value.

The upper end of an explosion is the end of the range of scores, and there is
nothing to show for it. Selections are left out here: which members they keep
depends on the values, and a sum of kept values need not stay between the sums
of kept bounds once sums saturate.

What is shown is `BoundsHold`, for every source and any patience. By
`boundsHold_iff` it comes down to the reports of the relation `Rolls`, and the
proof is an induction over how a report came about.

Main statement: `boundsHold_of_free`, for expressions without selections.
-/

namespace Dice

/-- An explosion is reported as bottomless for a negative score from the least
value on that asks for another roll, no matter if the member has that value. -/
theorem Comparator.rerollsNegative_iff {c : Comparator} {low limit : Score} :
    c.rerollsNegative low limit = true ↔
      ∃ score, low ≤ score ∧ score < 0 ∧ c.holds score limit = true := by
  unfold rerollsNegative
  split
  next start =>
    have none : ¬ ∃ score, low ≤ score ∧ score < 0 ∧ c.holds score limit = true := by
      rintro ⟨score, above, negative, -⟩
      exact absurd negative (le_trans start above).not_gt
    simp only [none, Bool.false_eq_true]
  next below =>
    have negative : low < 0 := not_le.1 below
    -- the threshold itself, the greatest negative score and the least value are the ones to look at
    cases c with
    | equals => simp [holds, and_comm, and_left_comm]
    | greaterThan =>
      have last : (Score.clamp (-1)).val = -1 := rfl
      simp only [holds, decide_eq_true_eq, Score.le_def, Score.lt_def, Score.val_zero] at negative ⊢
      constructor
      · exact fun above => ⟨.clamp (-1), by omega, by omega, by omega⟩
      · rintro ⟨score, -, small, above⟩
        omega
    | lessThan =>
      simp only [holds, decide_eq_true_eq]
      constructor
      · exact fun below => ⟨low, le_refl _, negative, below⟩
      · rintro ⟨score, above, -, below⟩
        exact lt_of_le_of_lt above below

/-- Where an explosion is not bottomless, only values that are not negative ask
for another roll. -/
theorem Comparator.nonneg_of_holds {c : Comparator} {low limit value : Score}
    (quiet : c.rerollsNegative low limit = false) (above : low ≤ value)
    (again : c.holds value limit = true) : 0 ≤ value := by
  by_contra negative
  -- otherwise the value itself is one that the test for bottomless looks for
  have flagged := rerollsNegative_iff.2 ⟨value, above, not_le.1 negative, again⟩
  rw [quiet] at flagged
  cases flagged

/-- However often a member is rolled again, its total is not below its least
value unless the explosion is reported as bottomless. -/
theorem le_sum_of_settles {c : Comparator} {low limit : Score} {values : List Score}
    (quiet : c.rerollsNegative low limit = false) (above : ∀ v ∈ values, low ≤ v)
    (settles : Settles (c.holds · limit) values) : low ≤ Score.sum values := by
  -- all values but the last asked for another roll, so none of them is negative
  obtain ⟨front, last, rfl, again, -⟩ := exists_last_of_settles settles
  have least : low ≤ last := above last (by simp)
  exact le_trans least (Score.le_sum_append fun v hv =>
    Comparator.nonneg_of_holds quiet (above v (by simp [hv])) (again v hv))

namespace Expr

/-- The bounds of an expression without selections are in order. -/
theorem minimum_le_maximum {e : Expr} (free : e.Every fun node => node.isSelection = false) :
    e.minimum ≤ e.maximum := by
  induction e using ind with
  | die d => exact d.low_le_high
  | pool members ih =>
    rw [minimum_pool, maximum_pool]
    exact Score.sum_map_mono fun m hm => ih m hm ((Every.pool_iff.1 free).2 m hm)
  | arithmetic inner op operand ih =>
    exact op.apply_mono operand (ih (Every.arithmetic_iff.1 free).2)
  | selection members rule threshold ih => simp [isSelection] at free
  | explosion members c threshold ih =>
    exact Score.self_le_highest _

/-- What a report of the relation holds for the expression lies between its
bounds. The induction is over the report, so each reroll of an explosion has its
own hypothesis. -/
theorem Rolls.between_bounds {e : Expr} {report : Report} (rolls : e.Rolls report) :
    (e.Every fun node => node.isSelection = false) →
      e.minimum ≤ report.toss.value ∧ report.toss.value ≤ e.maximum := by
  induction rolls with
  | die d answer => exact fun _ => d.low_le_face_and_face_le_high answer
  | pool parts each ih =>
    intro free
    have inside : ∀ part ∈ parts, part.1.minimum ≤ part.2.toss.value ∧
        part.2.toss.value ≤ part.1.maximum := fun part hp =>
      ih part hp ((Every.pool_iff.1 free).2 _ (List.mem_map_of_mem hp))
    simp only [minimum_pool, maximum_pool, Report.ofOutcome, Outcome.toss, Outcome.ofSum,
      List.map_map]
    exact ⟨Score.sum_map_mono fun part hp => (inside part hp).1,
      Score.sum_map_mono fun part hp => (inside part hp).2⟩
  | arithmetic inner op operand report inside ih =>
    intro free
    obtain ⟨low, high⟩ := ih (Every.arithmetic_iff.1 free).2
    exact ⟨op.apply_mono operand low, op.apply_mono operand high⟩
  | selection parts rule threshold each ih => intro free; simp [isSelection] at free
  | explosion parts c threshold each settles ih =>
    intro free
    simp only [minimum_explosion, Report.ofOutcome, Outcome.toss, Outcome.ofChains, List.map_map]
    refine ⟨?_, Score.self_le_highest _⟩
    -- a bottomless explosion reports the least score, and of the others each chain is bounded
    split
    next => exact Score.lowest_le_self _
    next quiet =>
      rw [Bounds.bottomless, Bool.not_eq_true, List.any_eq_false] at quiet
      refine Score.sum_map_mono fun part hp => ?_
      have member := (Every.explosion_iff.1 free).2 _ (List.mem_map_of_mem hp)
      have own := quiet part.1.bounds (List.mem_map.2 ⟨part, hp, rfl⟩)
      rw [Bool.not_eq_true] at own
      simp only [Function.comp_apply, List.map_map]
      refine le_sum_of_settles own (fun v hv => ?_) (settles part hp)
      obtain ⟨report, hr, rfl⟩ := List.mem_map.1 hv
      exact (ih part hp report hr member).1

/-- Evaluating the bounds gives them, they are in order, and every roll that
ends lies between them, for every source and every patience. -/
structure BoundsHold (e : Expr) : Prop where
  least : ∀ {σ : Type} (source : Source σ) (patience : Nat),
    e.Tells source patience .minimum e.minimum
  greatest : ∀ {σ : Type} (source : Source σ) (patience : Nat),
    e.Tells source patience .maximum e.maximum
  ordered : e.minimum ≤ e.maximum
  between : ∀ {σ : Type} (source : Source σ) (patience : Nat) (run : Run σ) (toss : Toss)
    (final : Run σ), e.evaluate source patience .roll run = some (toss, final) →
      e.minimum ≤ toss.value ∧ toss.value ≤ e.maximum

/-- It is enough to look at the reports that a roll can leave, and no source is
needed for that: the answers in a report are a source that leads to it. -/
theorem boundsHold_iff {e : Expr} : e.BoundsHold ↔ e.minimum ≤ e.maximum ∧
    ∀ report, e.Rolls report → e.minimum ≤ report.toss.value ∧ report.toss.value ≤ e.maximum := by
  constructor
  · refine fun holds => ⟨holds.ordered, fun report rolls => ?_⟩
    obtain ⟨patience, rolled⟩ := rolls.roll_answers
    exact holds.between _ _ _ _ _ (rolled patience (Nat.le_refl _) [])
  · rintro ⟨ordered, h⟩
    refine ⟨fun source patience => tells_minimum source patience e,
      fun source patience => tells_maximum source patience e, ordered,
      fun source patience run toss final evaluated => ?_⟩
    obtain ⟨report, rolls, rfl, -⟩ := reported source patience e run toss final evaluated
    exact h report rolls

/-- **Bounds hold without selections.** No sum needs to stay clear of the ends
of the range for that, since saturating keeps the order. -/
theorem boundsHold_of_free {e : Expr} (free : e.Every fun node => node.isSelection = false) :
    e.BoundsHold :=
  boundsHold_iff.2 ⟨minimum_le_maximum free, fun _ rolls => rolls.between_bounds free⟩

/-- Bounds of an explosion of powers, with faces on both sides of zero. -/
theorem boundsHold_explodedPower :
    (explosion [arithmetic (die (.custom [.clamp (-3), 8] (by decide))) .power 3] .greaterThan
      (some 20)).Every (fun node => node.isSelection = false) ∧
    (explosion [arithmetic (die (.custom [.clamp (-3), 8] (by decide))) .power 3] .greaterThan
      (some 20)).BoundsHold :=
  have free : Every (fun node => node.isSelection = false) _ := by simp [isSelection]
  ⟨free, boundsHold_of_free free⟩

end Expr

end Dice
