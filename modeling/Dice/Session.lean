import Dice.Evaluation

/-!
# Sessions

A session evaluates expressions one after the other with one source, which
carries on from step to step. Each step reports its toss, the numbers that it
asked of the source and the tosses of all nodes.

A step starts from the state of the source that the step before it has left,
and with nothing else: what was asked and tossed before does not reach it. A
session has no result if one of its steps has none, since the source has no
state to go on from.

Steps may ask for the bounds of an expression in between rolls. They run the
same evaluator with another method, and leave the source alone.

Main statement: `session_cons`, a session is its first step and then the rest
from where that left the source. What is said of whole sessions follows from
it by induction on the steps.
-/

namespace Dice

/-- One step of a session: an expression, and whether to roll it or to ask for
one of its bounds. -/
structure Step where
  method : Method
  expr : Expr

/-- What a step left behind. All that can be seen of an evaluation from outside
is in it. -/
structure Report where
  toss : Toss
  /-- The numbers asked of the source, oldest first. -/
  draws : List Draw
  /-- The tosses of all nodes, oldest first. -/
  trace : List Toss

namespace Step

variable {σ : Type}

/-- Takes a step from the given state of the source. The run begins with nothing
recorded, so the report holds only what this step did. -/
def take (step : Step) (source : Source σ) (patience : Nat) (state : σ) :
    Option (Report × σ) :=
  match step.expr.evaluate source patience step.method (.start state) with
  | none => none
  | some (toss, run) => some (⟨toss, run.draws.toList, run.tosses.toList⟩, run.state)

end Step

/-- Takes the steps in order and gives their reports. Each step begins in the
state of the source that the one before it left, and a step without a result
ends the session without one. -/
def session {σ : Type} (source : Source σ) (patience : Nat) :
    List Step → σ → Option (List Report × σ)
  | [], state => some ([], state)
  | step :: rest, state =>
    match step.take source patience state with
    | none => none
    | some (report, state) =>
      match session source patience rest state with
      | none => none
      | some (reports, state) => some (report :: reports, state)

/-- A session takes its first step, and then is the session of the other steps
from the state that the first one left. -/
theorem session_cons {σ : Type} (source : Source σ) (patience : Nat) (step : Step)
    (rest : List Step) (state : σ) :
    session source patience (step :: rest) state =
      (step.take source patience state).bind fun (report, state) =>
        (session source patience rest state).map fun (reports, state) =>
          (report :: reports, state) := by
  rw [session]
  cases step.take source patience state with
  | none => rfl
  | some taken =>
    obtain ⟨report, next⟩ := taken
    show _ = (session source patience rest next).map _
    dsimp only
    cases session source patience rest next <;> rfl

end Dice
