import Mathlib.Algebra.Ring.Nat
import Dice.Proofs.Expr.Built
import Dice.Proofs.Rolling
import Dice.Source.Script

/-!
# The rolls of an explosion

An explosion rolls its members one after the other, and each of them again for
as long as the comparison holds of the last toss. `Turns` says of some rolls
that each begins where the one before it ended, in the source as well as in
what is left behind. By `turns_iff` these are the reports of the relation of
rolls that a run can leave, so nothing of a roll is lost or comes twice.

Which rolls belong to an explosion is said by `Exploded`, without the loop: at
least one of each member, and the comparison holds of all of its tosses but
the last one. The threshold is that of the member itself.

The statement goes both ways. A roll that ends has such a list of rolls, and
its toss, draws and trace are made of theirs; and rolls of this form that
follow each other are a roll of the explosion. Patience is no part of either:
a roll ends if it does so with some patience.

Main statement: `rollsTo_explosion`.
-/

namespace Dice

variable {σ : Type} {source : Source σ} {run mid final : Run σ}

/-- The detail of a toss under a key, if it has details and the key is among
them. -/
def Toss.detail? (toss : Toss) (key : String) : Option Text :=
  toss.context.bind (·.get? key.toList)

/-- A run tells by which draws and tosses it was reached. -/
theorem Run.Leads.unique {draws draws' : List Draw} {trace trace' : List Toss}
    (leads : run.Leads source draws trace final) (leads' : run.Leads source draws' trace' final) :
    draws = draws' ∧ trace = trace' := by
  have sameDraws := leads.draws_eq.symm.trans leads'.draws_eq
  have sameTrace := leads.tosses_eq.symm.trans leads'.tosses_eq
  exact ⟨List.append_cancel_left sameDraws, List.append_cancel_left sameTrace⟩

namespace Expr

variable {e inner m : Expr} {toss : Toss} {c : Comparator} {threshold : Option Score}

/-! ## Rolls that end -/

/-- Whether a roll ends with some patience, with a toss and the run after it. -/
def RollsTo (source : Source σ) (e : Expr) (run : Run σ) (toss : Toss) (final : Run σ) : Prop :=
  ∃ patience, e.evaluate source patience .roll run = some (toss, final)

/-- A roll that ends is one of the relation, by a source that gives its answers.
-/
theorem rollsTo_iff : e.RollsTo source run toss final ↔
    ∃ report, e.Rolls report ∧ report.toss = toss ∧
      run.Leads source report.draws report.trace final := by
  constructor
  · intro rolled
    obtain ⟨patience, ended⟩ := rolled
    exact reported source patience e run toss final ended
  · intro known
    obtain ⟨report, rolls, rfl, leads⟩ := known
    obtain ⟨least, evaluated⟩ := evaluated_of_rolls rolls
    exact ⟨least, evaluated least (Nat.le_refl _) source run final leads⟩

/-! ## One roll after the other -/

/-- Rolls of some expressions in turn, each from the run that the one before it
led to, with what each of them left behind. -/
inductive Turns (source : Source σ) : List (Expr × Report) → Run σ → Run σ → Prop
  | done (run : Run σ) : Turns source [] run run
  | next {m : Expr} {report : Report} {rest : List (Expr × Report)} {run mid final : Run σ}
    (rolled : m.RollsTo source run report.toss mid)
    (leads : run.Leads source report.draws report.trace mid) (after : Turns source rest mid final) :
    Turns source ((m, report) :: rest) run final

/-- **Rolls in turn are reports that the run leaves together.** What the run has
to say about them is a single list of draws and one of tosses. -/
theorem turns_iff {steps : List (Expr × Report)} : Turns source steps run final ↔
    (∀ step ∈ steps, Rolls step.1 step.2) ∧
      run.Leads source (steps.flatMap (·.2.draws)) (steps.flatMap (·.2.trace)) final := by
  constructor
  · intro turns
    induction turns with
    | done run => exact ⟨by simp, Run.leads_nil.2 rfl⟩
    | @next m report rest run mid final rolled leads after ih =>
      obtain ⟨each, leads'⟩ := ih
      -- the run has one report of this roll, which is then the given one
      obtain ⟨other, rolls, same, own⟩ := rollsTo_iff.1 rolled
      obtain ⟨sameDraws, sameTrace⟩ := own.unique leads
      obtain rfl : other = report := by
        cases other
        cases report
        simp_all
      exact ⟨List.forall_mem_cons.2 ⟨rolls, each⟩, Run.leads_append.2 ⟨_, leads, leads'⟩⟩
  · intro reports
    induction steps generalizing run with
    | nil =>
      rw [Run.leads_nil.1 reports.2]
      exact .done run
    | cons step rest ih =>
      obtain ⟨rolls, each⟩ := List.forall_mem_cons.1 reports.1
      obtain ⟨mid, leads, leads'⟩ := Run.leads_append.1 reports.2
      exact .next (rollsTo_iff.2 ⟨step.2, rolls, rfl, leads⟩) leads (ih ⟨each, leads'⟩)

/-! ## Members of an explosion -/

/-- The rolls of an explosion: its members in their order, and of each so many
rolls that the comparison with the threshold of the member holds of all but the
last. -/
structure Exploded (c : Comparator) (threshold : Option Score) (members : List Expr)
    (parts : List (Expr × List Report)) : Prop where
  members_eq : parts.map (·.1) = members
  settled : ∀ part ∈ parts, ∃ front last, part.2 = front ++ [last] ∧
    (∀ report ∈ front, c.holds report.toss.value
      (threshold.getD (c.defaultThreshold part.1.minimum part.1.maximum)) = true) ∧
    c.holds last.toss.value
      (threshold.getD (c.defaultThreshold part.1.minimum part.1.maximum)) = false

/-- All rolls of an explosion in the order they are made, each with its member. -/
def turnsOf (parts : List (Expr × List Report)) : List (Expr × Report) :=
  parts.flatMap fun part => part.2.map (part.1, ·)

/-- Values settle if there is a last one that stops, and all before it go on.
Here the values are those of reports. -/
theorem settles_iff {again : Score → Bool} {reports : List Report} :
    Settles again (reports.map (·.toss.value)) ↔ ∃ front last, reports = front ++ [last] ∧
      (∀ report ∈ front, again report.toss.value = true) ∧ again last.toss.value = false := by
  constructor
  · intro settles
    obtain ⟨front, last, whole, before, stop⟩ := exists_last_of_settles settles
    obtain ⟨reports', rest, rfl, rfl, ends⟩ := List.map_eq_append_iff.1 whole
    obtain ⟨last, rfl, rfl⟩ := List.map_eq_singleton_iff.1 ends
    exact ⟨reports', last, rfl, by simpa using before, stop⟩
  · intro settled
    obtain ⟨front, last, rfl, before, stop⟩ := settled
    induction front with
    | nil => exact stop
    | cons first rest ih =>
      have tail := ih fun report mem => before report (by simp [mem])
      cases rest with
      | nil => exact ⟨before first (by simp), tail⟩
      | cons second rest => exact ⟨before first (by simp), tail⟩

/-- The rerolls are added up from the lengths of the runs, each without its
first toss. -/
theorem foldl_rerolls (chains : List (List Toss)) (n : Nat) :
    chains.foldl (fun n chain => n + (chain.length - 1)) n =
      n + (chains.map fun chain => chain.length - 1).sum := by
  induction chains generalizing n with
  | nil => rfl
  | cons chain rest ih => rw [List.foldl_cons, ih, List.map_cons, List.sum_cons, Nat.add_assoc]

/-- An explosion tells how many rolls there were after the first one of each
member. -/
theorem detail?_ofChains (chains : List (List Toss)) (text : Text) (method : Method) :
    ((Outcome.ofChains chains).toss text method).detail? "rerolls" =
      some (Text.ofNat (chains.map fun chain => chain.length - 1).sum) := by
  have counted := foldl_rerolls chains 0
  rw [Nat.zero_add] at counted
  rw [← counted]
  exact Context.get?_insert_self _ _ _

/-- The draws of all rolls are those of the members, one after the other. -/
theorem draws_turnsOf (parts : List (Expr × List Report)) :
    (turnsOf parts).flatMap (·.2.draws) = parts.flatMap fun part => part.2.flatMap (·.draws) := by
  simp [turnsOf, List.flatMap_assoc, List.flatMap_map]

theorem trace_turnsOf (parts : List (Expr × List Report)) :
    (turnsOf parts).flatMap (·.2.trace) = parts.flatMap fun part => part.2.flatMap (·.trace) := by
  simp [turnsOf, List.flatMap_assoc, List.flatMap_map]

/-! ## The explosion -/

/-- A roll of an explosion that ends is made of rolls in turn. -/
theorem exists_turns_of_rollsTo {members : List Expr}
    (rolled : (explosion members c threshold).RollsTo source run toss final) :
    ∃ parts mid, Exploded c threshold members parts ∧ Turns source (turnsOf parts) run mid ∧
      toss = (Outcome.ofChains (parts.map fun part => part.2.map (·.toss))).toss
        (explosion members c threshold).text .roll ∧ final = mid.record toss := by
  obtain ⟨report, rolls, rfl, leads⟩ := rollsTo_iff.1 rolled
  cases rolls with
  | explosion parts _ _ each settles =>
    obtain ⟨mid, before, concluded⟩ := leads_conclude.1 leads
    obtain ⟨-, rfl⟩ := Prod.mk.inj concluded
    rw [← draws_turnsOf, ← trace_turnsOf] at before
    refine ⟨parts, mid, ⟨rfl, fun part mem => settles_iff.1 (settles part mem)⟩,
      turns_iff.2 ⟨?_, before⟩, rfl, rfl⟩
    intro step mem
    obtain ⟨part, inside, mem⟩ := List.mem_flatMap.1 mem
    obtain ⟨report, one, rfl⟩ := List.mem_map.1 mem
    exact each part inside report one

/-- Rolls in turn that belong to an explosion are a roll of it that ends. -/
theorem rollsTo_of_turns {members : List Expr} {parts : List (Expr × List Report)}
    (exploded : Exploded c threshold members parts) (turns : Turns source (turnsOf parts) run mid) :
    ∃ toss, (explosion members c threshold).RollsTo source run toss (mid.record toss) := by
  obtain ⟨rfl, settled⟩ := exploded
  obtain ⟨each, leads⟩ := turns_iff.1 turns
  rw [draws_turnsOf, trace_turnsOf] at leads
  have rolls := Rolls.explosion parts c threshold
    (fun part mem report one => each (part.1, report)
      (List.mem_flatMap.2 ⟨part, mem, List.mem_map_of_mem one⟩))
    fun part mem => settles_iff.2 (settled part mem)
  exact ⟨_, rollsTo_iff.2 ⟨_, rolls, rfl, leads_conclude.2 ⟨mid, leads, rfl⟩⟩⟩

/-- **An explosion rolls each member exactly as long as the comparison holds.**
A roll that ends consists of one run of tosses for each member, in their order
and each from where the one before it ended; it gives the sum of the sums of the
runs and the number of tosses after the first ones, and leaves the draws and the
tosses of the runs behind and then its own toss. Conversely such runs make a
roll that ends. -/
theorem rollsTo_explosion (made : inner.explode c threshold = .ok e) :
    (∀ toss final, e.RollsTo source run toss final →
      ∃ parts mid, Exploded c threshold inner.members parts ∧
        Turns source (turnsOf parts) run mid ∧ final = mid.record toss ∧
        toss.value = .sum (parts.map fun part => .sum (part.2.map (·.toss.value))) ∧
        toss.detail? "rerolls" =
          some (Text.ofNat (parts.map fun part => part.2.length - 1).sum) ∧
        final.draws.toList = run.draws.toList ++
          parts.flatMap (fun part => part.2.flatMap (·.draws)) ∧
        final.tosses.toList = run.tosses.toList ++
          parts.flatMap (fun part => part.2.flatMap (·.trace)) ++ [toss]) ∧
    ∀ parts mid, Exploded c threshold inner.members parts → Turns source (turnsOf parts) run mid →
      ∃ toss, e.RollsTo source run toss (mid.record toss) := by
  obtain ⟨rfl, -⟩ := accepted_explode made
  refine ⟨fun toss final rolled => ?_, fun parts mid => rollsTo_of_turns⟩
  -- the turns account for all draws and tosses but the toss of the explosion itself
  obtain ⟨parts, mid, exploded, turns, rfl, rfl⟩ := exists_turns_of_rollsTo rolled
  obtain ⟨-, leads⟩ := turns_iff.1 turns
  rw [draws_turnsOf, trace_turnsOf] at leads
  refine ⟨parts, mid, exploded, turns, rfl, ?_, ?_, leads.draws_eq, ?_⟩
  · simp only [Outcome.toss, Outcome.ofChains, List.map_map, Function.comp_def]
  · rw [detail?_ofChains, List.map_map]
    simp only [Function.comp_def, List.length_map]
  · rw [Run.record, Array.toList_push, leads.tosses_eq]

/-- A die and an explosion, both of which roll again while they stay at their
least values. -/
def chancy : Expr :=
  .pool [.die (.custom [.clamp (-1), 2, 4] (by decide)), .explosion [.die .sixSided] .equals none]

/-- The second member takes three numbers for two rolls, since it rolls its own
die again. -/
theorem rollsTo_explosion_chancy :
    chancy.explode .lessThan none = .ok (.explosion chancy.members .lessThan none) ∧
    ∃ toss final, (explosion chancy.members .lessThan none).RollsTo .answers
        (.start [0, 2, 1, 6, 3]) toss final ∧
      toss.value = 13 ∧ toss.detail? "rerolls" = some ['2'] ∧
      ∃ parts mid, Exploded .lessThan none chancy.members parts ∧
        Turns .answers (turnsOf parts) (.start [0, 2, 1, 6, 3]) mid ∧ final = mid.record toss ∧
        toss.value = .sum (parts.map fun part => .sum (part.2.map (·.toss.value))) ∧
        (∃ toss', (explosion chancy.members .lessThan none).RollsTo .answers
          (.start [0, 2, 1, 6, 3]) toss' (mid.record toss')) := by
  have made : chancy.explode .lessThan none =
      .ok (.explosion chancy.members .lessThan none) := by decide +kernel
  have shown : ((explosion chancy.members .lessThan none).evaluate .answers 3 .roll
      (.start [0, 2, 1, 6, 3])).map (fun ended => (ended.1.value, ended.1.detail? "rerolls")) =
      some (13, some ['2']) := by decide +kernel
  obtain ⟨⟨toss, final⟩, rolled, details⟩ := Option.map_eq_some_iff.1 shown
  obtain ⟨value, rerolls⟩ := Prod.mk.inj details
  obtain ⟨runs, ends⟩ := @rollsTo_explosion _ .answers (.start [0, 2, 1, 6, 3]) _ _ _ _ made
  obtain ⟨parts, mid, exploded, turns, last, total, -⟩ := runs toss final ⟨3, rolled⟩
  exact ⟨made, toss, final, ⟨3, rolled⟩, value, rerolls, parts, mid, exploded, turns, last, total,
    ends parts mid exploded turns⟩

end Expr

end Dice
