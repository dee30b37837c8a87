import Dice.Proofs.BoundEvaluation
import Dice.Proofs.Expr.Built
import Dice.Proofs.Rolling

/-!
# Bounds that are attained

Every die shows its least and its greatest face, so an expression without
explosions gives its least and its greatest value: the members give theirs at
the same time, and the node makes of them what it makes of their bounds. An
explosion gives neither in general. Its greatest value is the end of the range
of scores, and its least one may ask for another roll.

This is stated for reports of the relation `Rolls`, with answers that lie
within the ranges that were asked for. Members do not get in each other's way
there, since their draws follow each other (`parts_of_attains`). What a source
has to answer for it is read off the report in `Dice.Proofs.Reached`.

Selections need no care here. The values of the members are all at the same
bound, and the bound of the selection is made from them in the same way.

Main statement: `attains_bounds`.
-/

namespace Dice

/-- The answer lies within the range asked. Sources need not keep to that, but
the rolls counted here do. -/
def Draw.InRange (d : Draw) : Prop := d.low ≤ d.answer ∧ d.answer ≤ d.high

namespace Expr

/-- Whether some answers within the ranges asked give a value. The answers are
those of a roll, one for each die. -/
def Attains (e : Expr) (value : Score) : Prop :=
  ∃ report, e.Rolls report ∧ (∀ d ∈ report.draws, d.InRange) ∧ report.toss.value = value

/-- A die attains every score that it shows, with the answer that leads to it. -/
theorem attains_die {d : Die} {score : Score} (shows : d.Shows score) : (die d).Attains score := by
  obtain ⟨answer, low, high, rfl⟩ := shows
  refine ⟨_, .die d answer, fun draw hd => ?_, rfl⟩
  obtain rfl : draw = ⟨d.asked.1, d.asked.2, answer⟩ := by simpa [Report.ofOutcome] using hd
  exact ⟨low, high⟩

variable {members : List Expr} {value : Expr → Score}

/-- Members that attain values do so together: their reports are put side by
side, and the draws are those of one after those of the other. -/
theorem parts_of_attains (each : ∀ m ∈ members, m.Attains (value m)) :
    ∃ parts : List (Expr × Report), parts.map (·.1) = members ∧
      (∀ part ∈ parts, Rolls part.1 part.2) ∧
      (∀ d ∈ parts.flatMap (·.2.draws), d.InRange) ∧
      parts.map (·.2.toss.value) = members.map value := by
  induction members with
  | nil => exact ⟨[], rfl, by simp, by simp, rfl⟩
  | cons m rest ih =>
    obtain ⟨report, rolls, inRange, attained⟩ := each m (by simp)
    obtain ⟨parts, rfl, rolled, inRange', attained'⟩ := ih fun x hx => each x (by simp [hx])
    refine ⟨(m, report) :: parts, rfl, List.forall_mem_cons.2 ⟨rolls, rolled⟩, fun d hd => ?_,
      by simp [attained, attained']⟩
    rcases List.mem_append.1 (List.flatMap_cons ▸ hd) with hd | hd
    · exact inRange d hd
    · exact inRange' d hd

/-- A pool attains the sum of what its members attain. The rolls of the members
are put one behind the other, as no member sees what another one rolled. -/
theorem attains_pool (each : ∀ m ∈ members, m.Attains (value m)) :
    (pool members).Attains (.sum (members.map value)) := by
  obtain ⟨parts, rfl, rolls, inRange, attained⟩ := parts_of_attains each
  refine ⟨_, .pool parts rolls, inRange, ?_⟩
  rw [Report.ofOutcome, Outcome.toss, Outcome.ofSum, List.map_map, ← attained]
  rfl

theorem attains_arithmetic {inner : Expr} {score : Score} (op : Operator) (operand : UInt32)
    (inside : inner.Attains score) :
    (arithmetic inner op operand).Attains (op.apply score operand) := by
  obtain ⟨report, rolls, inRange, rfl⟩ := inside
  exact ⟨_, .arithmetic inner op operand report rolls, inRange, rfl⟩

/-- A selection attains the sum of the kept ones among the values that its
members attain. -/
theorem attains_selection (rule : Selection) (threshold : Nat)
    (each : ∀ m ∈ members, m.Attains (value m)) :
    (selection members rule threshold).Attains
      (.sum (rule.kept threshold id (members.map value))) := by
  obtain ⟨parts, rfl, rolls, inRange, attained⟩ := parts_of_attains each
  refine ⟨_, .selection parts rule threshold rolls, inRange, ?_⟩
  rw [Report.ofOutcome, Outcome.toss, Outcome.value_ofSelection, List.map_map, ← attained]
  rfl

/-- **Without explosions both bounds are attained.** The dice have to be ones
that can be built, for a die with no faces in its range shows nothing. -/
theorem attains_bounds {e : Expr} (accepted : e.Every Accepted)
    (still : e.Every fun node => node.isExplosion = false) :
    e.Attains e.minimum ∧ e.Attains e.maximum := by
  induction e using ind with
  | die d =>
    have fits : d.Fits := Every.die_iff.1 accepted
    exact ⟨attains_die (Die.shows_low fits), attains_die (Die.shows_high fits)⟩
  -- at every node both bounds come from the same bound of all members
  | pool members ih =>
    have each := fun m hm => ih m hm ((Every.pool_iff.1 accepted).2 m hm)
      ((Every.pool_iff.1 still).2 m hm)
    rw [minimum_pool, maximum_pool]
    exact ⟨attains_pool fun m hm => (each m hm).1, attains_pool fun m hm => (each m hm).2⟩
  | arithmetic inner op operand ih =>
    obtain ⟨low, high⟩ := ih (Every.arithmetic_iff.1 accepted).2 (Every.arithmetic_iff.1 still).2
    exact ⟨attains_arithmetic op operand low, attains_arithmetic op operand high⟩
  | selection members rule threshold ih =>
    have each := fun m hm => ih m hm ((Every.selection_iff.1 accepted).2 m hm)
      ((Every.selection_iff.1 still).2 m hm)
    rw [minimum_selection, maximum_selection]
    exact ⟨attains_selection rule threshold fun m hm => (each m hm).1,
      attains_selection rule threshold fun m hm => (each m hm).2⟩
  -- there is no such node
  | explosion members c threshold ih => simp [isExplosion] at still

end Expr

end Dice
