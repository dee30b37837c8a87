import Dice.Evaluation
import Dice.Proofs.Selection

/-!
# Evaluating bounds

The least and the greatest value of an expression are computed in two ways: by
`Expr.bounds`, from the members upward, and by the evaluator, which leaves a
toss for every node on its way. Both give the same.

An evaluation of a bound always ends, whatever the patience is, and it asks
nothing of the source. `Tells` says all of this of one expression and one
method, and each kind of node hands it on from its members; only dice and
explosions are looked at for the two bounds separately.

`Unasked` says more: the toss and the trace are the same for all sources. It
is stated with the trace in front of the source, so that no source can have a
part in it, and is shown for both bounds at once.

Main statements: `tells_minimum` and `tells_maximum`, and `unasked`, by which
the source has no part in the tosses either.
-/

namespace Dice

/-- The value of a selection of tosses, from their values. The places that are
kept are found by the values alone, so the tosses can be forgotten first. -/
theorem Outcome.value_ofSelection (rule : Selection) (threshold : Nat) (tosses : List Toss) :
    (ofSelection rule threshold tosses).value =
      .sum (rule.kept threshold id (tosses.map (·.value))) := by
  rw [← Selection.map_kept]
  rfl

namespace Expr

variable {σ : Type} {source : Source σ} {patience : Nat} {method : Method} {members : List Expr}
  {value : Expr → Score}

/-- Evaluating an expression ends with the given value, and the source is not
asked. -/
def Tells (source : Source σ) (patience : Nat) (method : Method) (e : Expr) (value : Score) :
    Prop :=
  ∀ run, ∃ toss final, e.evaluate source patience method run = some (toss, final) ∧
    toss.value = value ∧ final.state = run.state ∧ final.draws = run.draws

/-- The value that is told is the only one that evaluating can give, as
evaluating is a function. -/
theorem Tells.value_eq {e : Expr} {score : Score} {run final : Run σ} {toss : Toss}
    (tells : e.Tells source patience method score)
    (evaluated : e.evaluate source patience method run = some (toss, final)) :
    toss.value = score := by
  obtain ⟨toss', final', same, value, -, -⟩ := tells run
  rw [evaluated] at same
  cases same
  exact value

/-- Ending a node does not touch the source: it only records the toss. The draws
stay those of its members. -/
theorem tells_conclude (e : Expr) (method : Method) (outcome : Outcome) {run mid : Run σ}
    (state : mid.state = run.state) (draws : mid.draws = run.draws) :
    ∃ toss final, some (e.conclude method outcome mid) = some (toss, final) ∧
      toss.value = outcome.value ∧ final.state = run.state ∧ final.draws = run.draws :=
  ⟨_, _, rfl, rfl, state, draws⟩

/-- Members that each tell a value leave tosses with these values, in their
order, behind those that were there already. -/
theorem evaluateMembers_of_tells
    (each : ∀ m ∈ members, m.Tells source patience method (value m)) :
    ∀ earlier run, ∃ tosses final,
      evaluateMembers source patience method members earlier run =
        some (earlier.reverse ++ tosses, final) ∧
      tosses.map (·.value) = members.map value ∧ final.state = run.state ∧
      final.draws = run.draws := by
  induction members with
  | nil => exact fun earlier run => ⟨[], run, by simp [evaluateMembers_nil], rfl, rfl, rfl⟩
  | cons m rest ih =>
    intro earlier run
    obtain ⟨toss, mid, first, same, state, draws⟩ := each m (by simp) run
    obtain ⟨tosses, final, later, values, state', draws'⟩ :=
      ih (fun x hx => each x (by simp [hx])) (toss :: earlier) mid
    refine ⟨toss :: tosses, final, ?_, by simp [same, values], state'.trans state,
      draws'.trans draws⟩
    rw [evaluateMembers_cons, first, Option.bind_some]
    simpa using later

/-- A pool tells the sum of what its members tell. The members are evaluated
from left to right, each from where the one before it ended. -/
theorem tells_pool (each : ∀ m ∈ members, m.Tells source patience method (value m)) :
    (pool members).Tells source patience method (.sum (members.map value)) := by
  intro run
  obtain ⟨tosses, mid, inside, values, state, draws⟩ := evaluateMembers_of_tells each [] run
  rw [evaluate, inside, ← values]
  exact tells_conclude _ _ (.ofSum tosses) state draws

theorem tells_arithmetic {inner : Expr} {score : Score} (op : Operator) (operand : UInt32)
    (inside : inner.Tells source patience method score) :
    (arithmetic inner op operand).Tells source patience method (op.apply score operand) := by
  intro run
  obtain ⟨toss, mid, evaluated, rfl, state, draws⟩ := inside run
  rw [evaluate, evaluated]
  exact tells_conclude _ _ (.ofArithmetic op operand toss) state draws

/-- A selection tells the sum of the kept ones among the values of its members.
These are bounds, and are ranked like any results. -/
theorem tells_selection (rule : Selection) (threshold : Nat)
    (each : ∀ m ∈ members, m.Tells source patience method (value m)) :
    (selection members rule threshold).Tells source patience method
      (.sum (rule.kept threshold id (members.map value))) := by
  intro run
  obtain ⟨tosses, mid, inside, values, state, draws⟩ := evaluateMembers_of_tells each [] run
  rw [evaluate, inside, ← values, ← Outcome.value_ofSelection]
  exact tells_conclude _ _ (.ofSelection rule threshold tosses) state draws

/-- **The least value is what evaluating it gives.** Patience plays no part, as
an explosion evaluates its members for a bound just once. -/
theorem tells_minimum (source : Source σ) (patience : Nat) (e : Expr) :
    e.Tells source patience .minimum e.minimum := by
  induction e using ind with
  | die d =>
    intro run
    simp only [evaluate]
    exact tells_conclude _ _ (.ofScore d.low) rfl rfl
  | pool members ih => exact minimum_pool members ▸ tells_pool ih
  | arithmetic inner op operand ih => exact tells_arithmetic op operand ih
  | selection members rule threshold ih =>
    exact minimum_selection members rule threshold ▸ tells_selection rule threshold ih
  | explosion members c threshold ih =>
    intro run
    simp only [minimum_explosion, evaluate, memberBounds_eq, List.reverse_nil, List.nil_append]
    -- a bottomless explosion does not ask its members
    split
    next => exact tells_conclude _ _ (.ofScore .lowest) rfl rfl
    next =>
      obtain ⟨tosses, mid, inside, values, state, draws⟩ := evaluateMembers_of_tells ih [] run
      rw [inside, ← values]
      exact tells_conclude _ _ (.ofSum tosses) state draws

/-- **The greatest value is what evaluating it gives.** An explosion does not
even ask its members for that. -/
theorem tells_maximum (source : Source σ) (patience : Nat) (e : Expr) :
    e.Tells source patience .maximum e.maximum := by
  induction e using ind with
  | die d =>
    intro run
    simp only [evaluate]
    exact tells_conclude _ _ (.ofScore d.high) rfl rfl
  | pool members ih => exact maximum_pool members ▸ tells_pool ih
  | arithmetic inner op operand ih => exact tells_arithmetic op operand ih
  | selection members rule threshold ih =>
    exact maximum_selection members rule threshold ▸ tells_selection rule threshold ih
  | explosion members c threshold ih =>
    intro run
    simp only [evaluate]
    exact tells_conclude _ _ (.ofScore .highest) rfl rfl

/-! ## What the source has no part in -/

/-- Evaluating an expression leaves the same toss and the same trace whatever
the source is, and the source as it was. -/
def Unasked (method : Method) (e : Expr) : Prop :=
  ∃ toss trace, ∀ {σ : Type} (source : Source σ) (patience : Nat) (run : Run σ),
    e.evaluate source patience method run =
      some (toss, { run with tosses := run.tosses ++ trace })

/-- A node is unasked if it ends with an outcome and a trace that were known
before the source was. -/
theorem unasked_of_conclude {e : Expr} (outcome : Outcome) (trace : Array Toss)
    (ends : ∀ {σ : Type} (source : Source σ) (patience : Nat) (run : Run σ),
      e.evaluate source patience method run =
        some (e.conclude method outcome { run with tosses := run.tosses ++ trace })) :
    e.Unasked method := by
  refine ⟨outcome.toss e.text method, trace.push (outcome.toss e.text method), ?_⟩
  intro σ source patience run
  rw [ends, conclude, Run.record, Array.append_push]

/-- Members that do not ask the source leave tosses and a trace that are known
without it. -/
theorem evaluateMembers_of_unasked (each : ∀ m ∈ members, m.Unasked method) :
    ∃ tosses trace, ∀ {σ : Type} (source : Source σ) (patience : Nat) (earlier : List Toss)
      (run : Run σ), evaluateMembers source patience method members earlier run =
        some (earlier.reverse ++ tosses, { run with tosses := run.tosses ++ trace }) := by
  induction members with
  | nil => exact ⟨[], #[], fun source patience earlier run => by simp [evaluateMembers_nil]⟩
  | cons m rest ih =>
    obtain ⟨toss, trace, first⟩ := each m (by simp)
    obtain ⟨tosses, more, later⟩ := ih fun x hx => each x (by simp [hx])
    refine ⟨toss :: tosses, trace ++ more, fun source patience earlier run => ?_⟩
    rw [evaluateMembers_cons, first, Option.bind_some]
    simp [later]

/-- **A bound is evaluated without the source.** The state of the source and the
draws are those from before. -/
theorem unasked (bound : method ≠ .roll) (e : Expr) : e.Unasked method := by
  induction e using ind with
  | die d =>
    cases method with
    | roll => exact absurd rfl bound
    | minimum => exact unasked_of_conclude (.ofScore d.low) #[] fun _ _ _ => by simp [evaluate]
    | maximum => exact unasked_of_conclude (.ofScore d.high) #[] fun _ _ _ => by simp [evaluate]
  | pool members ih =>
    obtain ⟨tosses, trace, inside⟩ := evaluateMembers_of_unasked ih
    exact unasked_of_conclude (.ofSum tosses) trace fun _ _ _ => by simp [evaluate, inside]
  | arithmetic inner op operand ih =>
    obtain ⟨toss, trace, inside⟩ := ih
    exact unasked_of_conclude (.ofArithmetic op operand toss) trace fun _ _ _ => by
      simp [evaluate, inside]
  | selection members rule threshold ih =>
    obtain ⟨tosses, trace, inside⟩ := evaluateMembers_of_unasked ih
    exact unasked_of_conclude (.ofSelection rule threshold tosses) trace fun _ _ _ => by
      simp [evaluate, inside]
  | explosion members c threshold ih =>
    cases method with
    | roll => exact absurd rfl bound
    | minimum =>
      obtain ⟨tosses, trace, inside⟩ := evaluateMembers_of_unasked ih
      -- a bottomless explosion does not ask its members
      by_cases bottomless : Bounds.bottomless c threshold (memberBounds members [])
      · exact unasked_of_conclude (.ofScore .lowest) #[] fun _ _ _ => by
          rw [evaluate, if_pos bottomless, Array.append_empty]
      · exact unasked_of_conclude (.ofSum tosses) trace fun source patience run => by
          have members := inside source patience [] run
          rw [evaluate, if_neg bottomless, members]
          rfl
    | maximum => exact unasked_of_conclude (.ofScore .highest) #[] fun _ _ _ => by simp [evaluate]

end Expr

end Dice
