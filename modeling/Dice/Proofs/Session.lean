import Dice.Proofs.BoundEvaluation
import Dice.Session

/-!
# Bounds in a session

A step that asks for a bound leaves the source of a session as it was, so the
steps after it go on as if it had not been taken. What it reports itself does
not depend on the source either, nor on the steps before it.

The source is the only thing that steps share: each of them starts with no
draws and no tosses. So it is enough to know what one step that asks for a
bound does (`exists_leavesBound`), and the rest is an induction over the steps
that takes the reports apart in the same places.

Both parts are said of any session, also of one that does not end. Where a
roll runs dry or out of patience, it does so without the bounds as well.

Main statement: `session_without_bounds`.
-/

namespace Dice

variable {σ : Type} {source : Source σ} {patience : Nat} {state final : σ} {steps : List Step}
  {reports : List Report}

namespace Step

/-- Whether a step rolls. -/
def isRoll (step : Step) : Bool := step.method = .roll

/-- What a step that asks for a bound leaves behind: the bound, not a draw, and
the same report as from any other source. -/
structure LeavesBound (step : Step) (report : Report) : Prop where
  draws : report.draws = []
  least : step.method = .minimum → report.toss.value = step.expr.minimum
  greatest : step.method = .maximum → report.toss.value = step.expr.maximum
  take : ∀ {σ : Type} (source : Source σ) (patience : Nat) (state : σ),
    step.take source patience state = some (report, state)

/-- A step that asks for a bound has such a report, with the one toss and trace
that evaluating the bound leaves. -/
theorem exists_leavesBound {step : Step} (bound : step.isRoll = false) :
    ∃ report, step.LeavesBound report := by
  have bound : step.method ≠ .roll := of_decide_eq_false bound
  obtain ⟨toss, trace, evaluated⟩ := Expr.unasked bound step.expr
  have once := evaluated Source.answers 0 (.start [])
  refine ⟨⟨toss, [], trace.toList⟩, rfl, fun least => ?_, fun greatest => ?_, ?_⟩
  · rw [least] at once
    exact (Expr.tells_minimum _ _ step.expr).value_eq once
  · rw [greatest] at once
    exact (Expr.tells_maximum _ _ step.expr).value_eq once
  · intro σ source patience state
    rw [take, evaluated]
    simp [Run.start]

end Step

/-- The reports of the steps that roll, in their order. Steps and reports are
matched by their places. -/
def rollReports (steps : List Step) (reports : List Report) : List Report :=
  ((steps.zip reports).filter (·.1.isRoll)).map (·.2)

theorem rollReports_cons (step : Step) (report : Report) :
    rollReports (step :: steps) (report :: reports) =
      if step.isRoll then report :: rollReports steps reports else rollReports steps reports := by
  cases rolls : step.isRoll <;> simp [rollReports, rolls]

/-- Without its bounds a session leaves the reports of its rolls and the same
source. -/
theorem session_filter (source : Source σ) (patience : Nat) (steps : List Step) (state : σ) :
    session source patience (steps.filter (·.isRoll)) state =
      (session source patience steps state).map (Prod.map (rollReports steps) id) := by
  induction steps generalizing state with
  | nil => rfl
  | cons step rest ih =>
    cases rolls : step.isRoll with
    -- a step that does not roll leaves the source as it was, so the others do not notice it
    | false =>
      obtain ⟨report, leaves⟩ := Step.exists_leavesBound rolls
      rw [List.filter_cons_of_neg (by simp [rolls]), session_cons, leaves.take, ih,
        Option.bind_some, Option.map_map]
      congr 1
      funext ⟨reports, final⟩
      simp [rollReports_cons, rolls]
    | true =>
      rw [List.filter_cons_of_pos rolls, session_cons, session_cons]
      cases step.take source patience state with
      | none => rfl
      | some taken =>
        obtain ⟨report, next⟩ := taken
        simp only [Option.bind_some, ih, Option.map_map]
        congr 1
        funext ⟨reports, final⟩
        simp [rollReports_cons, rolls]

/-- In a session that ends each step that asks for a bound has left it. The
bound is that of its expression, whatever was rolled before. -/
theorem forall₂_of_session : session source patience steps state = some (reports, final) →
    List.Forall₂ (fun step report => step.isRoll = false → step.LeavesBound report)
      steps reports := by
  induction steps generalizing state reports with
  | nil =>
    intro ended
    cases ended
    exact .nil
  | cons step rest ih =>
    intro ended
    rw [session_cons, Option.bind_eq_some_iff] at ended
    obtain ⟨⟨report, next⟩, taken, later⟩ := ended
    obtain ⟨⟨others, last⟩, later, same⟩ := Option.map_eq_some_iff.1 later
    cases same
    refine .cons (fun bound => ?_) (ih later)
    obtain ⟨alone, leaves⟩ := Step.exists_leavesBound bound
    rw [leaves.take] at taken
    cases taken
    exact leaves

/-- **Bounds do not disturb the rolls of a session.** Without the steps that ask
for bounds the rolls leave the same reports and the same source, and each of
those steps reports what it reports in any place of any session. -/
theorem session_without_bounds (source : Source σ) (patience : Nat) (steps : List Step)
    (state : σ) :
    session source patience (steps.filter (·.isRoll)) state =
      (session source patience steps state).map (Prod.map (rollReports steps) id) ∧
    ∀ reports final, session source patience steps state = some (reports, final) →
      List.Forall₂ (fun step report => step.isRoll = false → step.LeavesBound report)
        steps reports :=
  ⟨session_filter source patience steps state, fun _ _ => forall₂_of_session⟩

/-- Two rolls of an exploding die with both of its bounds in between. -/
def interrupted : List Step :=
  let e := Expr.explosion [.die .sixSided] .equals none
  [⟨.roll, e⟩, ⟨.minimum, e⟩, ⟨.maximum, e⟩, ⟨.roll, e⟩]

/-- The first die rolls again, and the second one goes on with the answer after
that. -/
theorem session_without_bounds_interrupted : ∃ reports,
    session .answers 3 interrupted [6, 2, 3] = some (reports, []) ∧
    session .answers 3 (interrupted.filter (·.isRoll)) [6, 2, 3] =
      some (rollReports interrupted reports, []) ∧
    List.Forall₂ (fun step report => step.isRoll = false → step.LeavesBound report)
      interrupted reports := by
  have ends : (session .answers 3 interrupted [6, 2, 3]).map (·.2) = some [] := by decide +kernel
  obtain ⟨⟨reports, final⟩, ended, rfl⟩ := Option.map_eq_some_iff.1 ends
  obtain ⟨alone, bounds⟩ := session_without_bounds .answers 3 interrupted [6, 2, 3]
  exact ⟨reports, ended, by rw [alone, ended]; rfl, bounds _ _ ended⟩

end Dice
