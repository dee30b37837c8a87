import Dice.Expr.Build
import Dice.Proofs.Score.Order
import Dice.Session

/-!
# Sums roll as their summands

A sum leaves empty pools out, and in the place of a lone pool it has the
members of that. So it is not the tree that its summands would make, and
rolling it visits other nodes. The numbers that are asked and the value come
out the same.

An evaluation looks at the source and at nothing that was left behind before
it (`Onward`), so the members of a pool are evaluated as the steps of a
session are (`evaluateMembers_eq_session`). An empty pool is a step that asks
for nothing and adds nothing, wherever it stands. As a sum saturates at every
summand, that is said of sums from any start (`totals`).

Taking the members of a lone pool in its place needs no such care: its value
is their sum, and there is nothing in front of it or behind it to saturate
with.

Main statement: `take_sum`.
-/

namespace Dice

variable {σ : Type} {source : Source σ} {patience : Nat} {method : Method} {α : Type}

namespace Score

theorem add_zero (a : Score) : a + 0 = a := by rw [add_comm, zero_add]

/-- Scores that are zero may be left out of a sum, from whatever start. Adding
zero saturates nothing. -/
theorem foldl_map_filter {items : List α} {value : α → Score} {kept : α → Bool}
    (zero : ∀ x ∈ items, kept x = false → value x = 0) (start : Score) :
    ((items.filter kept).map value).foldl (· + ·) start =
      (items.map value).foldl (· + ·) start := by
  induction items generalizing start with
  | nil => rfl
  | cons x rest ih =>
    have tail := ih fun y mem => zero y (by simp [mem])
    cases counts : kept x with
    | true =>
      rw [List.filter_cons_of_pos counts, List.map_cons, List.map_cons, List.foldl_cons,
        List.foldl_cons, tail]
    | false =>
      rw [List.filter_cons_of_neg (by simp [counts]), List.map_cons, List.foldl_cons,
        zero x (by simp) counts, add_zero, tail]

end Score

/-! ## What was left behind before -/

namespace Run

/-- A run with what an earlier one left behind in front. The state of the source
is that of the later run. -/
def behind (earlier run : Run σ) : Run σ :=
  ⟨run.state, earlier.draws ++ run.draws, earlier.tosses ++ run.tosses⟩

theorem behind_start (run : Run σ) : run.behind (.start run.state) = run := by
  simp [behind, start]

theorem behind_record (earlier run : Run σ) (toss : Toss) :
    (earlier.behind run).record toss = earlier.behind (run.record toss) := by
  rw [record, behind, behind, record, Array.push_append]

/-- Asking the source does not look at what was left behind before. The draw is
put behind the earlier ones. -/
theorem behind_draw (earlier run : Run σ) (low high : Score) :
    (earlier.behind run).draw source low high =
      (run.draw source low high).map (Prod.map id earlier.behind) := by
  unfold draw behind
  dsimp only
  cases source.between low high run.state with
  | none => rfl
  | some given => simp

/-- Whether a part of an evaluation only adds to what was left behind before.
All parts do, so what was recorded never decides a value. -/
def Onward (part : Run σ → Option (α × Run σ)) : Prop :=
  ∀ earlier run : Run σ, part (earlier.behind run) = (part run).map (Prod.map id earlier.behind)

end Run

namespace Expr

variable {e m : Expr} {members summands : List Expr}

theorem conclude_behind (e : Expr) (method : Method) (outcome : Outcome) (earlier run : Run σ) :
    e.conclude method outcome (earlier.behind run) =
      Prod.map id earlier.behind (e.conclude method outcome run) := by
  simp only [conclude, Run.behind_record, Prod.map, id]

/-- Going through members only adds to what was left behind, if each of them
does. -/
theorem onward_evaluateMembers
    (each : ∀ m ∈ members, Run.Onward (m.evaluate source patience method)) (tosses : List Toss) :
    Run.Onward (evaluateMembers source patience method members tosses) := by
  induction members generalizing tosses with
  | nil => exact fun earlier run => by simp [evaluateMembers_nil]
  | cons m rest ih =>
    intro earlier run
    rw [evaluateMembers_cons, evaluateMembers_cons, each m (by simp)]
    cases m.evaluate source patience method run with
    | none => rfl
    | some given => exact ih (fun x hx => each x (by simp [hx])) _ earlier given.2

/-- Rolling again and again only adds to what was left behind, if a single roll
does. -/
theorem onward_rollWhile {again : Score → Bool} {roll : Run σ → Option (Toss × Run σ)}
    (onward : Run.Onward roll) (times : Nat) (tosses : List Toss) :
    Run.Onward (rollWhile again roll times tosses) := by
  induction times generalizing tosses with
  | zero => exact fun earlier run => rfl
  | succ times ih =>
    intro earlier run
    rw [rollWhile, rollWhile, onward]
    cases roll run with
    | none => rfl
    | some given =>
      obtain ⟨toss, next⟩ := given
      dsimp only [Option.map_some, Prod.map, id]
      split
      next => exact ih _ earlier next
      next => rfl

theorem onward_explodeMembers {c : Comparator} {threshold : Option Score}
    (each : ∀ m ∈ members, Run.Onward (m.evaluate source patience method))
    (chains : List (List Toss)) :
    Run.Onward (explodeMembers source patience method c threshold members chains) := by
  induction members generalizing chains with
  | nil => exact fun earlier run => by simp [explodeMembers]
  | cons m rest ih =>
    intro earlier run
    simp only [explodeMembers]
    rw [onward_rollWhile (each m (by simp))]
    cases rollWhile _ (m.evaluate source patience method) patience [] run with
    | none => rfl
    | some given => exact ih (fun x hx => each x (by simp [hx])) _ earlier given.2

/-- **An evaluation only adds to what was left behind before.** What it gives
and what it takes from the source are the same with nothing in front. -/
theorem onward_evaluate (source : Source σ) (patience : Nat) (method : Method) (e : Expr) :
    Run.Onward (e.evaluate source patience method) := by
  induction e using ind with
  | die d =>
    intro earlier run
    cases method with
    | roll =>
      simp only [evaluate, Run.behind_draw]
      cases run.draw source d.asked.1 d.asked.2 with
      | none => rfl
      | some given => exact congrArg some (conclude_behind _ _ _ _ _)
    | minimum => simp only [evaluate, conclude_behind, Option.map_some]
    | maximum => simp only [evaluate, conclude_behind, Option.map_some]
  -- a node with members adds its toss to whatever they have left behind
  | pool members ih =>
    intro earlier run
    rw [evaluate, evaluate, onward_evaluateMembers ih]
    cases evaluateMembers source patience method members [] run with
    | none => rfl
    | some given => exact congrArg some (conclude_behind _ _ _ _ _)
  | arithmetic inner op operand ih =>
    intro earlier run
    rw [evaluate, evaluate, ih]
    cases inner.evaluate source patience method run with
    | none => rfl
    | some given => exact congrArg some (conclude_behind _ _ _ _ _)
  | selection members rule threshold ih =>
    intro earlier run
    rw [evaluate, evaluate, onward_evaluateMembers ih]
    cases evaluateMembers source patience method members [] run with
    | none => rfl
    | some given => exact congrArg some (conclude_behind _ _ _ _ _)
  | explosion members c threshold ih =>
    intro earlier run
    cases method with
    | roll =>
      simp only [evaluate]
      rw [onward_explodeMembers ih]
      cases explodeMembers source patience .roll c threshold members [] run with
      | none => rfl
      | some given => exact congrArg some (conclude_behind _ _ _ _ _)
    | minimum =>
      simp only [evaluate]
      split
      next => simp only [conclude_behind, Option.map_some]
      next =>
        rw [onward_evaluateMembers ih]
        cases evaluateMembers source patience .minimum members [] run with
        | none => rfl
        | some given => exact congrArg some (conclude_behind _ _ _ _ _)
    | maximum => simp only [evaluate, conclude_behind, Option.map_some]

/-! ## Members as steps -/

/-- An evaluation leaves what a step of a session reports, behind what there
was. -/
theorem evaluate_eq_take (e : Expr) (run : Run σ) :
    e.evaluate source patience method run =
      ((Step.mk method e).take source patience run.state).map fun (report, state) =>
        (report.toss, ⟨state, run.draws ++ report.draws.toArray,
          run.tosses ++ report.trace.toArray⟩) := by
  have onward := onward_evaluate source patience method e run (.start run.state)
  rw [Run.behind_start] at onward
  rw [onward, Step.take]
  cases e.evaluate source patience method (.start run.state) with
  | none => rfl
  | some given => rfl

/-- **The members of a pool are evaluated as the steps of a session.** Their
reports are the steps' reports, put together. -/
theorem evaluateMembers_eq_session (source : Source σ) (patience : Nat) (method : Method)
    (members : List Expr) (tosses : List Toss) (run : Run σ) :
    evaluateMembers source patience method members tosses run =
      (session source patience (members.map (Step.mk method)) run.state).map
        fun (reports, state) => (tosses.reverse ++ reports.map (·.toss),
          ⟨state, run.draws ++ (reports.flatMap (·.draws)).toArray,
            run.tosses ++ (reports.flatMap (·.trace)).toArray⟩) := by
  induction members generalizing tosses run with
  | nil => simp [evaluateMembers_nil, session]
  | cons m rest ih =>
    rw [evaluateMembers_cons, List.map_cons, session_cons, evaluate_eq_take]
    cases (Step.mk method m).take source patience run.state with
    | none => rfl
    | some taken =>
      obtain ⟨report, next⟩ := taken
      simp only [Option.map_some, Option.bind_some, ih, Option.map_map]
      congr 1
      funext rest
      obtain ⟨reports, state⟩ := rest
      simp

/-! ## Draws and values -/

/-- The draws of some reports, and the sum of their values from a start. Two
sessions are compared by it. -/
def totals (start : Score) (reports : List Report) : List Draw × Score :=
  (reports.flatMap (·.draws), (reports.map (·.toss.value)).foldl (· + ·) start)

/-- What steps ask of the source, the sum of their values from a start, and the
source that is left then. -/
def accrued (source : Source σ) (patience : Nat) (steps : List Step) (start : Score) (state : σ) :
    Option ((List Draw × Score) × σ) :=
  (session source patience steps state).map (Prod.map (totals start) id)

/-- The first step adds its draws in front, and its value to the start of the
others. -/
theorem accrued_cons (step : Step) (rest : List Step) (start : Score) (state : σ) :
    accrued source patience (step :: rest) start state =
      (step.take source patience state).bind fun (report, next) =>
        (accrued source patience rest (start + report.toss.value) next).map
          (Prod.map (Prod.map (report.draws ++ ·) id) id) := by
  rw [accrued, session_cons, Option.map_bind]
  congr 1
  funext ⟨report, next⟩
  simp only [Function.comp_apply, accrued, Option.map_map]
  rfl

/-- Only the pool without members is empty. -/
theorem eq_of_isEmpty (empty : e.isEmpty = true) : e = pool [] := by
  unfold isEmpty at empty
  split at empty
  next => rfl
  next => cases empty

/-- An empty pool asks for nothing, and its value is zero. So leaving it out of
a sum changes nothing that can be drawn. -/
theorem exists_take_empty (source : Source σ) (patience : Nat) (method : Method) (state : σ) :
    ∃ report, (Step.mk method (pool [])).take source patience state = some (report, state) ∧
      report.draws = [] ∧ report.toss.value = 0 := by
  let toss := (Outcome.ofSum []).toss (pool []).text method
  have taken : (Step.mk method (pool [])).take source patience state =
      some (⟨toss, [], [toss]⟩, state) := by
    rw [Step.take, evaluate, evaluateMembers_nil]
    rfl
  exact ⟨_, taken, rfl, rfl⟩

/-- Leaving empty pools out changes neither the draws nor the sum of the values.
-/
theorem accrued_filter (source : Source σ) (patience : Nat) (method : Method)
    (summands : List Expr) (start : Score) (state : σ) :
    accrued source patience ((summands.filter (fun e => !e.isEmpty)).map (Step.mk method)) start
        state =
      accrued source patience (summands.map (Step.mk method)) start state := by
  induction summands generalizing start state with
  | nil => rfl
  | cons e rest ih =>
    rw [List.map_cons, accrued_cons]
    cases empty : e.isEmpty with
    -- an empty pool asks for nothing and adds nothing
    | true =>
      obtain rfl := eq_of_isEmpty empty
      obtain ⟨report, taken, nothing, zero⟩ := exists_take_empty source patience method state
      rw [List.filter_cons_of_neg (by simp [empty]), taken, ih, Option.bind_some]
      dsimp only
      rw [nothing, zero, Score.add_zero]
      exact Option.map_id'.symm
    | false =>
      rw [List.filter_cons_of_pos (by simp [empty]), List.map_cons, accrued_cons]
      congr 1
      funext ⟨report, next⟩
      dsimp only
      rw [ih]

/-- A pool asks what its members do in turn, and its value is the sum of theirs.
-/
theorem take_pool (members : List Expr) (state : σ) :
    ((Step.mk method (pool members)).take source patience state).map
        (fun (report, final) => ((report.draws, report.toss.value), final)) =
      accrued source patience (members.map (Step.mk method)) 0 state := by
  have inside := evaluateMembers_eq_session source patience method members [] (.start state)
  simp only [Run.start] at inside
  rw [Step.take, evaluate, Run.start, inside, accrued]
  cases session source patience (members.map (Step.mk method)) state with
  | none => rfl
  | some ended =>
    simp [conclude, Run.record, Outcome.toss, Outcome.ofSum, totals, Score.sum, Prod.map,
      Function.comp_def]

/-- The members of a sum ask what the summands do, and add up to the same.
Either empty pools were left out, or a lone pool was opened. -/
theorem accrued_sumMembers (source : Source σ) (patience : Nat) (method : Method)
    (summands : List Expr) (state : σ) :
    accrued source patience ((sumMembers summands).map (Step.mk method)) 0 state =
      accrued source patience (summands.map (Step.mk method)) 0 state := by
  rw [← accrued_filter source patience method summands, sumMembers]
  split
  next inner alone =>
    -- in the place of a lone pool stand its members, and alone it is a session of one step
    rw [alone, ← take_pool, List.map_singleton, accrued_cons]
    cases (Step.mk method (pool inner)).take source patience state with
    | none => rfl
    | some taken => simp [accrued, session, totals]
  next => rfl

/-- A bound that pools add up is the same of the members of a sum and of the
summands. -/
theorem sum_map_sumMembers {bound : Expr → Score}
    (sums : ∀ members, bound (pool members) = .sum (members.map bound)) (summands : List Expr) :
    Score.sum ((sumMembers summands).map bound) = .sum (summands.map bound) := by
  have zero : ∀ e ∈ summands, (!e.isEmpty) = false → bound e = 0 := by
    intro e _ empty
    have nothing : e = pool [] := eq_of_isEmpty (by simpa using empty)
    rw [nothing, sums, List.map_nil, Score.sum_nil]
  have kept : Score.sum ((summands.filter (fun e => !e.isEmpty)).map bound) =
      .sum (summands.map bound) := Score.foldl_map_filter zero 0
  rw [← kept, sumMembers]
  split
  next inner alone => rw [alone, List.map_singleton, Score.sum_singleton, sums]
  next => rfl

/-- **A sum is evaluated as its summands are in turn.** By any source and with
any patience it ends when they all do. It asks for the same numbers then, gets
the same answers and leaves the same source, and its value is the sum of theirs.
Its bounds are the sums of theirs. -/
theorem take_sum (source : Source σ) (patience : Nat) (method : Method) (summands : List Expr)
    (state : σ) :
    ((Step.mk method (sum summands)).take source patience state).map
        (fun (report, final) => (report.draws, report.toss.value, final)) =
      (session source patience (summands.map (Step.mk method)) state).map
        (fun (reports, final) => (reports.flatMap (·.draws), .sum (reports.map (·.toss.value)),
          final)) ∧
    (sum summands).minimum = .sum (summands.map minimum) ∧
    (sum summands).maximum = .sum (summands.map maximum) := by
  refine ⟨?_, ?_, ?_⟩
  · have whole := (take_pool (sumMembers summands) state).trans
      (accrued_sumMembers source patience method summands state)
    have flat := congrArg (Option.map fun ((draws, value), final) => (draws, value, final)) whole
    rw [accrued, Option.map_map, Option.map_map] at flat
    exact flat
  · rw [sum, minimum_pool, sum_map_sumMembers minimum_pool]
  · rw [sum, maximum_pool, sum_map_sumMembers maximum_pool]

end Expr

end Dice
