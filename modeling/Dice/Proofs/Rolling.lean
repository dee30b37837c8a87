import Dice.Session

/-!
# Rolls as a relation

`Rolls e report` says that rolling `e` can leave `report`: the tosses of all
nodes, the last one for `e` itself, and the numbers that were asked with their
answers. The relation knows of no source, no state and no patience. It has one
rule for each kind of expression, with a report for every member.

A source enters only through `Source.Answers`: in some state it gives the
answers that a list of draws holds. By that the relation and the evaluator say
the same.

`Leads` puts this together for a run: the source answers the draws, and the
draws and tosses are added to what the run has left behind. It is composed at
the places where draws and tosses are appended (`leads_append`), so each loop
of the evaluator is followed by an induction that splits a run in two.

In the direction from reports to evaluations the patience is found on the way.
A chain of rolls needs as much as its rolls need, and one round for each of
them.

Main statements: `reported`, every roll that ends leaves a report of the
relation, and `evaluated_of_rolls`, every report of the relation is what an
evaluation leaves, by any source that gives the answers.
-/

namespace Dice

variable {σ : Type}

/-! ## Draws and runs -/

/-- The source goes from `state` to `final` by giving the answers of the draws.
It is asked for each range in turn. -/
def Source.Answers (source : Source σ) : List Draw → σ → σ → Prop
  | [], state, final => final = state
  | d :: rest, state, final =>
    ∃ next, source.between d.low d.high state = some (d.answer, next) ∧
      source.Answers rest next final

/-- Draws one after the other are answered from a state in between. The draws of
a pool are put together in this way. -/
theorem Source.answers_append (source : Source σ) (draws later : List Draw) (state final : σ) :
    source.Answers (draws ++ later) state final ↔
      ∃ mid, source.Answers draws state mid ∧ source.Answers later mid final := by
  induction draws generalizing state with
  | nil => simp [Answers]
  | cons d rest ih =>
    simp only [List.cons_append, Answers, ih]
    constructor
    · rintro ⟨next, first, mid, h, h'⟩
      exact ⟨mid, ⟨next, first, h⟩, h'⟩
    · rintro ⟨mid, ⟨next, first, h⟩, h'⟩
      exact ⟨next, first, mid, h, h'⟩

namespace Run

/-- What is left of a run after the given draws and tosses: the source has
answered the draws, and both are added at the end. -/
structure Leads (source : Source σ) (run : Run σ) (draws : List Draw) (trace : List Toss)
    (final : Run σ) : Prop where
  answers : source.Answers draws run.state final.state
  draws_eq : final.draws.toList = run.draws.toList ++ draws
  tosses_eq : final.tosses.toList = run.tosses.toList ++ trace

variable {source : Source σ} {run mid final : Run σ} {draws later : List Draw}
  {trace more : List Toss}

theorem leads_nil : run.Leads source [] [] final ↔ final = run := by
  constructor
  · rintro ⟨answers, draws_eq, tosses_eq⟩
    rw [List.append_nil, Array.toList_inj] at draws_eq tosses_eq
    cases final
    simp_all [Source.Answers]
  · rintro rfl
    exact ⟨rfl, by simp, by simp⟩

/-- Draws and tosses one after the other lead over a run in between. Both lists
are cut at the same point of the evaluation. -/
theorem leads_append : run.Leads source (draws ++ later) (trace ++ more) final ↔
    ∃ mid, run.Leads source draws trace mid ∧ mid.Leads source later more final := by
  constructor
  · rintro ⟨answers, draws_eq, tosses_eq⟩
    obtain ⟨state, first, second⟩ := (source.answers_append _ _ _ _).1 answers
    exact ⟨⟨state, run.draws ++ draws.toArray, run.tosses ++ trace.toArray⟩,
      ⟨first, by simp, by simp⟩, second, by simp [draws_eq], by simp [tosses_eq]⟩
  · rintro ⟨mid, ⟨answers, draws_eq, tosses_eq⟩, ⟨answers', draws_eq', tosses_eq'⟩⟩
    exact ⟨(source.answers_append _ _ _ _).2 ⟨mid.state, answers, answers'⟩,
      by rw [draws_eq', draws_eq, List.append_assoc],
      by rw [tosses_eq', tosses_eq, List.append_assoc]⟩

theorem leads_record {toss : Toss} :
    run.Leads source [] [toss] final ↔ final = run.record toss := by
  constructor
  · rintro ⟨answers, draws_eq, tosses_eq⟩
    rw [List.append_nil, Array.toList_inj] at draws_eq
    rw [← Array.toList_push, Array.toList_inj] at tosses_eq
    cases final
    simp_all [Source.Answers, record]
  · rintro rfl
    exact ⟨rfl, by simp [record], by simp [record]⟩

/-- A single draw leads to what asking the source for it gives. It leaves no
toss. -/
theorem leads_draw {d : Draw} :
    run.Leads source [d] [] final ↔ run.draw source d.low d.high = some (d.answer, final) := by
  unfold draw
  constructor
  · rintro ⟨⟨next, answer, state⟩, draws_eq, tosses_eq⟩
    rw [← Array.toList_push, Array.toList_inj] at draws_eq
    rw [List.append_nil, Array.toList_inj] at tosses_eq
    rw [answer]
    cases final
    simp_all [Source.Answers]
  · intro h
    cases answer : source.between d.low d.high run.state with
    | none => simp [answer] at h
    | some given =>
      simp only [answer, Option.some.injEq, Prod.mk.injEq] at h
      obtain ⟨same, rfl⟩ := h
      exact ⟨⟨given.2, by rw [answer, ← same], rfl⟩, by simp [same], by simp⟩

end Run

/-! ## The relation -/

/-- The report of a node, from the draws and the tosses of its members. Its own
toss comes last. -/
def Report.ofOutcome (e : Expr) (outcome : Outcome) (draws : List Draw) (trace : List Toss) :
    Report :=
  ⟨outcome.toss e.text .roll, draws, trace ++ [outcome.toss e.text .roll]⟩

/-- Whether all of the values but the last ask for another roll. There must be
one, since a member is rolled at least once. -/
def Settles (again : Score → Bool) : List Score → Prop
  | [] => False
  | [value] => again value = false
  | value :: next :: rest => again value = true ∧ Settles again (next :: rest)

/-- Values settle when the last one is the only one not to ask for another roll.
-/
theorem exists_last_of_settles {again : Score → Bool} {values : List Score}
    (settles : Settles again values) :
    ∃ front last, values = front ++ [last] ∧ (∀ v ∈ front, again v = true) ∧
      again last = false := by
  induction values with
  | nil => exact absurd settles id
  | cons first rest ih =>
    cases rest with
    | nil => exact ⟨[], first, rfl, by simp, settles⟩
    | cons next rest =>
      obtain ⟨more, settles⟩ := settles
      obtain ⟨front, last, whole, before, stop⟩ := ih settles
      exact ⟨first :: front, last, by rw [whole, List.cons_append],
        List.forall_mem_cons.2 ⟨more, before⟩, stop⟩

namespace Expr

/-- What rolling an expression can leave. Members come with their reports: one
for each member of a pool or a selection, as many as it takes for each member of
an explosion. -/
inductive Rolls : Expr → Report → Prop
  | die (d : Die) (answer : Score) :
    Rolls (.die d) (.ofOutcome (.die d) (.ofScore (d.face answer))
      [⟨d.asked.1, d.asked.2, answer⟩] [])
  | pool (parts : List (Expr × Report)) (each : ∀ part ∈ parts, Rolls part.1 part.2) :
    Rolls (.pool (parts.map (·.1))) (.ofOutcome (.pool (parts.map (·.1)))
      (.ofSum (parts.map (·.2.toss))) (parts.flatMap (·.2.draws)) (parts.flatMap (·.2.trace)))
  | arithmetic (inner : Expr) (op : Operator) (operand : UInt32) (report : Report)
    (inside : Rolls inner report) :
    Rolls (.arithmetic inner op operand) (.ofOutcome (.arithmetic inner op operand)
      (.ofArithmetic op operand report.toss) report.draws report.trace)
  | selection (parts : List (Expr × Report)) (rule : Selection) (threshold : Nat)
    (each : ∀ part ∈ parts, Rolls part.1 part.2) :
    Rolls (.selection (parts.map (·.1)) rule threshold)
      (.ofOutcome (.selection (parts.map (·.1)) rule threshold)
        (.ofSelection rule threshold (parts.map (·.2.toss)))
        (parts.flatMap (·.2.draws)) (parts.flatMap (·.2.trace)))
  | explosion (parts : List (Expr × List Report)) (c : Comparator) (threshold : Option Score)
    (each : ∀ part ∈ parts, ∀ report ∈ part.2, Rolls part.1 report)
    (settles : ∀ part ∈ parts, Settles (c.holds · (c.limit threshold part.1.bounds))
      (part.2.map (·.toss.value))) :
    Rolls (.explosion (parts.map (·.1)) c threshold)
      (.ofOutcome (.explosion (parts.map (·.1)) c threshold)
        (.ofChains (parts.map fun part => part.2.map (·.toss)))
        (parts.flatMap fun part => part.2.flatMap (·.draws))
        (parts.flatMap fun part => part.2.flatMap (·.trace)))

/-! ## From evaluations to reports -/

/-- An evaluation that ends leaves a report of the relation. The report accounts
for all that was drawn and recorded. -/
def Reported (source : Source σ) (patience : Nat) (e : Expr) : Prop :=
  ∀ run toss final, e.evaluate source patience .roll run = some (toss, final) →
    ∃ report, e.Rolls report ∧ report.toss = toss ∧
      run.Leads source report.draws report.trace final

/-- Ending a node adds its own toss to what its members left. No draw is made
for it. -/
theorem leads_conclude {source : Source σ} {run final : Run σ} {draws : List Draw}
    {trace : List Toss} {e : Expr} {outcome : Outcome} :
    run.Leads source (Report.ofOutcome e outcome draws trace).draws
        (Report.ofOutcome e outcome draws trace).trace final ↔
      ∃ mid, run.Leads source draws trace mid ∧
        e.conclude .roll outcome mid = (outcome.toss e.text .roll, final) := by
  have split : draws = draws ++ [] := (List.append_nil draws).symm
  simp only [Report.ofOutcome]
  rw [split, Run.leads_append, List.append_nil]
  simp only [Run.leads_record, conclude, Prod.mk.injEq, true_and, eq_comm]

/-- The report of a node is what it leaves after its members. -/
theorem leads_of_conclude {source : Source σ} {run mid final : Run σ} {draws : List Draw}
    {trace : List Toss} {e : Expr} {outcome : Outcome} {toss : Toss}
    (before : run.Leads source draws trace mid)
    (h : some (e.conclude .roll outcome mid) = some (toss, final)) :
    (Report.ofOutcome e outcome draws trace).toss = toss ∧
      run.Leads source (Report.ofOutcome e outcome draws trace).draws
        (Report.ofOutcome e outcome draws trace).trace final := by
  obtain ⟨rfl, rfl⟩ := Prod.mk.inj (Option.some.inj h)
  exact ⟨rfl, leads_conclude.2 ⟨mid, before, rfl⟩⟩

/-- Members that are evaluated to the end leave a report each, and the run goes
through these in their order. -/
theorem reports_of_evaluateMembers {source : Source σ} {patience : Nat} {members : List Expr}
    (each : ∀ m ∈ members, m.Reported source patience) :
    -- the tosses of members before these are handed on in reverse
    ∀ {earlier tosses : List Toss} {run final : Run σ},
      evaluateMembers source patience .roll members earlier run = some (tosses, final) →
      ∃ parts : List (Expr × Report), parts.map (·.1) = members ∧
        (∀ part ∈ parts, Rolls part.1 part.2) ∧
        tosses = earlier.reverse ++ parts.map (·.2.toss) ∧
        run.Leads source (parts.flatMap (·.2.draws)) (parts.flatMap (·.2.trace)) final := by
  induction members with
  | nil =>
    intro earlier tosses run final h
    simp only [evaluateMembers_nil, Option.some.injEq, Prod.mk.injEq] at h
    obtain ⟨rfl, rfl⟩ := h
    exact ⟨[], rfl, by simp, by simp, Run.leads_nil.2 rfl⟩
  | cons m rest ih =>
    intro earlier tosses run final h
    rw [evaluateMembers_cons, Option.bind_eq_some_iff] at h
    obtain ⟨⟨toss, mid⟩, first, later⟩ := h
    obtain ⟨report, rolls, rfl, leads⟩ := each m (by simp) _ _ _ first
    obtain ⟨parts, rfl, rolled, rfl, leads'⟩ := ih (fun x hx => each x (by simp [hx])) later
    refine ⟨(m, report) :: parts, rfl, ?_, by simp, Run.leads_append.2 ⟨mid, leads, leads'⟩⟩
    exact List.forall_mem_cons.2 ⟨rolls, rolled⟩

/-- A member that is rolled again until it stops leaves a chain of reports,
whose values settle. -/
theorem reports_of_rollWhile {source : Source σ} {patience : Nat} {m : Expr}
    {again : Score → Bool} (reported : m.Reported source patience) :
    ∀ {times : Nat} {earlier tosses : List Toss} {run final : Run σ},
      rollWhile again (m.evaluate source patience .roll) times earlier run =
        some (tosses, final) →
      ∃ reports : List Report, (∀ report ∈ reports, m.Rolls report) ∧
        Settles again (reports.map (·.toss.value)) ∧
        tosses = earlier.reverse ++ reports.map (·.toss) ∧
        run.Leads source (reports.flatMap (·.draws)) (reports.flatMap (·.trace)) final := by
  -- each round leaves one report, and the round without another one settles the chain
  intro times
  induction times with
  | zero => intro earlier tosses run final h; simp [rollWhile] at h
  | succ times ih =>
    intro earlier tosses run final h
    cases first : m.evaluate source patience .roll run with
    | none => simp [rollWhile, first] at h
    | some given =>
      obtain ⟨toss, mid⟩ := given
      rw [rollWhile_succ _ _ _ _ first] at h
      obtain ⟨report, rolls, rfl, leads⟩ := reported _ _ _ first
      split at h
      next more =>
        obtain ⟨reports, rolled, settles, rfl, leads'⟩ := ih h
        refine ⟨report :: reports, List.forall_mem_cons.2 ⟨rolls, rolled⟩, ?_, by simp,
          Run.leads_append.2 ⟨mid, leads, leads'⟩⟩
        cases reports with
        | nil => exact absurd settles id
        | cons next rest => exact ⟨more, settles⟩
      next last =>
        simp only [Option.some.injEq, Prod.mk.injEq] at h
        obtain ⟨rfl, rfl⟩ := h
        refine ⟨[report], by simpa using rolls, ?_, by simp, by simpa using leads⟩
        simpa [Settles] using last

/-- The members of an explosion leave a chain of reports each. The induction is
on the members, and each chain ends where its condition fails. -/
theorem reports_of_explodeMembers {source : Source σ} {patience : Nat} {c : Comparator}
    {threshold : Option Score} {members : List Expr}
    (each : ∀ m ∈ members, m.Reported source patience) :
    ∀ {earlier chains : List (List Toss)} {run final : Run σ},
      explodeMembers source patience .roll c threshold members earlier run =
        some (chains, final) →
      ∃ parts : List (Expr × List Report), parts.map (·.1) = members ∧
        (∀ part ∈ parts, ∀ report ∈ part.2, Rolls part.1 report) ∧
        (∀ part ∈ parts, Settles (c.holds · (c.limit threshold part.1.bounds))
          (part.2.map (·.toss.value))) ∧
        chains = earlier.reverse ++ parts.map (fun part => part.2.map (·.toss)) ∧
        run.Leads source (parts.flatMap fun part => part.2.flatMap (·.draws))
          (parts.flatMap fun part => part.2.flatMap (·.trace)) final := by
  induction members with
  | nil =>
    intro earlier chains run final h
    simp only [explodeMembers, Option.some.injEq, Prod.mk.injEq] at h
    obtain ⟨rfl, rfl⟩ := h
    exact ⟨[], rfl, by simp, by simp, by simp, Run.leads_nil.2 rfl⟩
  | cons m rest ih =>
    intro earlier chains run final h
    simp only [explodeMembers] at h
    split at h
    next => cases h
    next chain mid first =>
      -- the first member is rolled up to its last value, and the others go on from there
      obtain ⟨reports, rolls, settles, rfl, leads⟩ :=
        reports_of_rollWhile (each m (by simp)) first
      obtain ⟨parts, rfl, rolled, settled, rfl, leads'⟩ :=
        ih (fun x hx => each x (by simp [hx])) h
      exact ⟨(m, reports) :: parts, rfl, List.forall_mem_cons.2 ⟨rolls, rolled⟩,
        List.forall_mem_cons.2 ⟨settles, settled⟩, by simp,
        Run.leads_append.2 ⟨mid, leads, leads'⟩⟩

/-- Every roll that ends leaves a report of the relation, by induction over the
expression. -/
theorem reported (source : Source σ) (patience : Nat) (e : Expr) :
    e.Reported source patience := by
  induction e using ind with
  | die d =>
    intro run toss final h
    simp only [evaluate] at h
    split at h
    next => cases h
    next answer mid asked =>
      exact ⟨_, .die d answer, leads_of_conclude (Run.leads_draw.2 asked) h⟩
  -- in every case the reports of the members are put together into one of the node
  | pool members ih =>
    intro run toss final h
    simp only [evaluate] at h
    split at h
    next => cases h
    next tosses mid inside =>
      obtain ⟨parts, rfl, rolls, rfl, leads⟩ := reports_of_evaluateMembers ih inside
      exact ⟨_, .pool parts rolls, leads_of_conclude leads h⟩
  | arithmetic inner op operand ih =>
    intro run toss final h
    simp only [evaluate] at h
    split at h
    next => cases h
    next _ mid inside =>
      obtain ⟨report, rolls, rfl, leads⟩ := ih _ _ _ inside
      exact ⟨_, .arithmetic inner op operand report rolls, leads_of_conclude leads h⟩
  | selection members rule threshold ih =>
    intro run toss final h
    simp only [evaluate] at h
    split at h
    next => cases h
    next tosses mid inside =>
      obtain ⟨parts, rfl, rolls, rfl, leads⟩ := reports_of_evaluateMembers ih inside
      exact ⟨_, .selection parts rule threshold rolls, leads_of_conclude leads h⟩
  | explosion members c threshold ih =>
    intro run toss final h
    simp only [evaluate] at h
    split at h
    next => cases h
    next chains mid inside =>
      obtain ⟨parts, rfl, rolls, settles, rfl, leads⟩ := reports_of_explodeMembers ih inside
      exact ⟨_, .explosion parts c threshold rolls settles, leads_of_conclude leads h⟩

/-! ## From reports to evaluations -/

/-- With enough patience every source that gives the answers of a report leaves
it. The patience must not depend on the source. -/
def Evaluated (e : Expr) (report : Report) : Prop :=
  ∃ least, ∀ patience, least ≤ patience → ∀ {σ : Type} (source : Source σ) (run final : Run σ),
    run.Leads source report.draws report.trace final →
      e.evaluate source patience .roll run = some (report.toss, final)

/-- Members whose reports are left by evaluations leave them one after the
other, with the greatest patience that one of them needs. -/
theorem evaluateMembers_of_parts {parts : List (Expr × Report)}
    (each : ∀ part ∈ parts, Evaluated part.1 part.2) :
    ∃ least, ∀ patience, least ≤ patience → ∀ {σ : Type} (source : Source σ)
      (earlier : List Toss) (run final : Run σ),
      run.Leads source (parts.flatMap (·.2.draws)) (parts.flatMap (·.2.trace)) final →
        evaluateMembers source patience .roll (parts.map (·.1)) earlier run =
          some (earlier.reverse ++ parts.map (·.2.toss), final) := by
  induction parts with
  | nil =>
    refine ⟨0, fun patience _ σ source earlier run final leads => ?_⟩
    rw [Run.leads_nil.1 leads]
    simp [evaluateMembers_nil]
  | cons part rest ih =>
    obtain ⟨first, evaluated⟩ := each part (by simp)
    obtain ⟨others, evaluated'⟩ := ih fun x hx => each x (by simp [hx])
    refine ⟨max first others, fun patience enough σ source earlier run final leads => ?_⟩
    obtain ⟨mid, leads, leads'⟩ := Run.leads_append.1 leads
    have head := evaluated patience (by omega) source run mid leads
    have tail := evaluated' patience (by omega) source (part.2.toss :: earlier) mid final leads'
    rw [List.map_cons, evaluateMembers_cons, head, Option.bind_some]
    exact tail.trans (by simp)

/-- A chain of reports that settles is left by rolling again and again. It takes
as many rounds as there are reports. -/
theorem rollWhile_of_reports {m : Expr} {again : Score → Bool} {reports : List Report}
    (each : ∀ report ∈ reports, Evaluated m report)
    (settles : Settles again (reports.map (·.toss.value))) :
    ∃ least, ∀ patience times, least ≤ patience → least ≤ times → ∀ {σ : Type}
      (source : Source σ) (earlier : List Toss) (run final : Run σ),
      run.Leads source (reports.flatMap (·.draws)) (reports.flatMap (·.trace)) final →
        rollWhile again (m.evaluate source patience .roll) times earlier run =
          some (earlier.reverse ++ reports.map (·.toss), final) := by
  induction reports with
  | nil => exact absurd settles id
  | cons report rest ih =>
    obtain ⟨first, evaluated⟩ := each report (by simp)
    cases rest with
    | nil =>
      refine ⟨first + 1, fun patience times enough often σ source earlier run final leads => ?_⟩
      have leads : run.Leads source report.draws report.trace final := by simpa using leads
      have head := evaluated patience (by omega) source run final leads
      have last : again report.toss.value = false := settles
      obtain ⟨times, rfl⟩ := Nat.exists_eq_add_of_lt (by omega : 0 < times)
      rw [Nat.zero_add, rollWhile_succ _ _ _ _ head, last]
      simp
    | cons next rest =>
      obtain ⟨more, settles⟩ := settles
      obtain ⟨others, evaluated'⟩ := ih (fun x hx => each x (by simp [hx])) settles
      -- one round more than what is left of the chain needs
      refine ⟨max first others + 1, fun patience times enough often σ source earlier run final
        leads => ?_⟩
      obtain ⟨mid, leads, leads'⟩ := Run.leads_append.1 leads
      have head := evaluated patience (by omega) source run mid leads
      obtain ⟨times, rfl⟩ := Nat.exists_eq_add_of_lt (by omega : 0 < times)
      have tail := evaluated' patience times (by omega) (by omega) source
        (report.toss :: earlier) mid final leads'
      rw [Nat.zero_add, rollWhile_succ _ _ _ _ head, if_pos more, tail]
      simp

theorem explodeMembers_of_parts {c : Comparator} {threshold : Option Score}
    {parts : List (Expr × List Report)}
    (each : ∀ part ∈ parts, ∀ report ∈ part.2, Evaluated part.1 report)
    (settles : ∀ part ∈ parts, Settles (c.holds · (c.limit threshold part.1.bounds))
      (part.2.map (·.toss.value))) :
    ∃ least, ∀ patience, least ≤ patience → ∀ {σ : Type} (source : Source σ)
      (earlier : List (List Toss)) (run final : Run σ),
      run.Leads source (parts.flatMap fun part => part.2.flatMap (·.draws))
        (parts.flatMap fun part => part.2.flatMap (·.trace)) final →
        explodeMembers source patience .roll c threshold (parts.map (·.1)) earlier run =
          some (earlier.reverse ++ parts.map (fun part => part.2.map (·.toss)), final) := by
  induction parts with
  | nil =>
    refine ⟨0, fun patience _ σ source earlier run final leads => ?_⟩
    rw [Run.leads_nil.1 leads]
    simp [explodeMembers]
  | cons part rest ih =>
    obtain ⟨first, evaluated⟩ := rollWhile_of_reports (each part (by simp)) (settles part (by simp))
    obtain ⟨others, evaluated'⟩ := ih (fun x hx => each x (by simp [hx]))
      fun x hx => settles x (by simp [hx])
    -- the first member and the others may need different patience
    refine ⟨max first others, fun patience enough σ source earlier run final leads => ?_⟩
    obtain ⟨mid, leads, leads'⟩ := Run.leads_append.1 leads
    have head := evaluated patience patience (by omega) (by omega) source [] run mid leads
    have tail := evaluated' patience (by omega) source (part.2.map (·.toss) :: earlier) mid final
      leads'
    simp only [List.map_cons, explodeMembers]
    rw [head]
    simp only [List.reverse_nil, List.nil_append]
    rw [tail]
    simp

/-- Every report of the relation is what an evaluation leaves. Enough patience
is that of the longest chain. -/
theorem evaluated_of_rolls {e : Expr} {report : Report} (rolls : e.Rolls report) :
    e.Evaluated report := by
  induction rolls with
  | die d answer =>
    refine ⟨0, fun patience _ σ source run final leads => ?_⟩
    obtain ⟨mid, asked, concluded⟩ := leads_conclude.1 leads
    have asked := Run.leads_draw.1 asked
    simp only [evaluate]
    rw [asked]
    exact congrArg some concluded
  -- the least patience of a node is that of its members
  | pool parts each ih =>
    obtain ⟨least, evaluated⟩ := evaluateMembers_of_parts ih
    refine ⟨least, fun patience enough σ source run final leads => ?_⟩
    obtain ⟨mid, leads, concluded⟩ := leads_conclude.1 leads
    simp only [evaluate]
    rw [evaluated patience enough source [] run mid leads]
    exact congrArg some concluded
  | arithmetic inner op operand report inside ih =>
    obtain ⟨least, evaluated⟩ := ih
    refine ⟨least, fun patience enough σ source run final leads => ?_⟩
    obtain ⟨mid, leads, concluded⟩ := leads_conclude.1 leads
    simp only [evaluate]
    rw [evaluated patience enough source run mid leads]
    exact congrArg some concluded
  | selection parts rule threshold each ih =>
    obtain ⟨least, evaluated⟩ := evaluateMembers_of_parts ih
    refine ⟨least, fun patience enough σ source run final leads => ?_⟩
    obtain ⟨mid, leads, concluded⟩ := leads_conclude.1 leads
    simp only [evaluate]
    rw [evaluated patience enough source [] run mid leads]
    exact congrArg some concluded
  | explosion parts c threshold each settles ih =>
    obtain ⟨least, evaluated⟩ := explodeMembers_of_parts ih settles
    refine ⟨least, fun patience enough σ source run final leads => ?_⟩
    obtain ⟨mid, leads, concluded⟩ := leads_conclude.1 leads
    simp only [evaluate]
    rw [evaluated patience enough source [] run mid leads]
    exact congrArg some concluded

end Expr

/-! ## Lists of answers -/

/-- A list of answers gives those of some draws when it starts with them. The
ranges asked do not matter to such a source. -/
theorem Source.answers_answers_iff {draws : List Draw} {state final : List Score} :
    answers.Answers draws state final ↔ state = draws.map (·.answer) ++ final := by
  induction draws generalizing state with
  | nil => simp [Answers, eq_comm]
  | cons d rest ih =>
    simp only [Answers, ih, List.map_cons, List.cons_append]
    cases state with
    | nil => simp [answers]
    | cons answer rest => simp [answers]

namespace Expr

/-- Handing out the answers of a report leaves it, whatever comes after them. So
every report is that of some roll. -/
theorem Rolls.roll_answers {e : Expr} {report : Report} (rolls : e.Rolls report) :
    ∃ least, ∀ patience, least ≤ patience → ∀ rest : List Score,
      e.roll .answers patience (report.draws.map (·.answer) ++ rest) =
        some (report.toss, ⟨rest, report.draws.toArray, report.trace.toArray⟩) := by
  obtain ⟨least, evaluated⟩ := evaluated_of_rolls rolls
  refine ⟨least, fun patience enough rest => evaluated patience enough _ _ _ ?_⟩
  exact ⟨Source.answers_answers_iff.2 rfl, rfl, rfl⟩

/-- A roll by a list of answers leaves a report of the relation, whose answers
it used up. -/
theorem rolls_of_roll_answers {e : Expr} {patience : Nat} {state : List Score} {toss : Toss}
    {final : Run (List Score)} (h : e.roll .answers patience state = some (toss, final)) :
    ∃ report, e.Rolls report ∧ report.toss = toss ∧ report.draws = final.draws.toList ∧
      state = report.draws.map (·.answer) ++ final.state := by
  obtain ⟨report, rolls, same, leads⟩ := reported _ _ e _ _ _ h
  exact ⟨report, rolls, same, by simpa [Run.start] using leads.draws_eq.symm,
    Source.answers_answers_iff.1 leads.answers⟩

end Expr

end Dice
