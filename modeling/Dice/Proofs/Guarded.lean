import Mathlib.Data.List.GetD
import Mathlib.Data.List.TakeWhile
import Dice.Proofs.BoundEvaluation
import Dice.Proofs.Notation.Checked
import Dice.Proofs.Postorder

/-!
# Operations within their domains

Several steps of an evaluation make sense for some arguments only. A source
has nothing to choose from in a range without two scores, limits out of order
clamp nothing, a list has faces at its own places and a ranking has stretches
within it, an explosion needs a limit for every member, and nothing is divided
by zero. An evaluation is total, though, and would go on with some value.

`guarded` is the same evaluation with every such step guarded: it ends with
the first misuse. Each guard has one lemma by which it is passed. The source
plays no part in that, since no guard looks at an answer before it was
clamped; what counts is that all nodes have passed the checks of their
constructors.

The guarded evaluation has its own loops, so `Sound` is shown of an expression
by following both evaluations side by side: wherever one goes on with a run,
the other goes on with the same.

Main statement: `guarded_eq`.
-/

namespace Dice

open Notation

/-- A use of an operation outside of its domain, with the arguments it was used
on. -/
inductive Misuse
  /-- A source is asked for a number of a range that leaves no choice. -/
  | range (low high : Score)
  /-- A score is clamped between limits that are out of order. -/
  | clamp (low high : Score)
  /-- A face is looked up at a place that the list does not have. -/
  | face (place : Int) (count : Nat)
  /-- A selection counts more results than there are. -/
  | threshold (threshold count : Nat)
  /-- A stretch is cut out of a ranking that it does not lie within. -/
  | stretch (start stop count : Nat)
  /-- An explosion has not as many limits as members. -/
  | limits (count members : Nat)
  /-- A score is divided by zero. -/
  | divisor
deriving DecidableEq

/-- Goes on only if a condition holds. The condition is one that the operation
behind it relies on. -/
def require (condition : Prop) [Decidable condition] (misuse : Misuse) : Except Misuse Unit :=
  if condition then .ok () else .error misuse

/-- A guard whose condition holds is passed. -/
theorem require_of {condition : Prop} [Decidable condition] (holds : condition) (misuse : Misuse) :
    require condition misuse = .ok () := if_pos holds

/-! ## Guarded operations -/

/-- The score of a range nearest to a score, if the limits are in order. A clamp
between crossed limits is a misuse. -/
def Score.guardedWithin (lo hi a : Score) : Except Misuse Score := do
  require (lo ≤ hi) (.clamp lo hi)
  .ok (within lo hi a)

theorem Score.guardedWithin_eq {lo hi : Score} (ordered : lo ≤ hi) (a : Score) :
    guardedWithin lo hi a = .ok (within lo hi a) := by
  rw [guardedWithin, require_of ordered]
  rfl

namespace Die

/-- The face that a list has at a place, if it has one there. Places count from
zero and are never negative. -/
def faceAt (faces : List Score) (place : Int) : Except Misuse Score :=
  if within : 0 ≤ place ∧ place.toNat < faces.length then .ok faces[place.toNat]
  else .error (.face place faces.length)

/-- The face shown for an answer of the source. Only a list of faces is looked
up, and everything else is clamped. -/
def guardedFace (die : Die) (answer : Score) : Except Misuse Score :=
  match die with
  | custom faces _ => do
    let place ← Score.guardedWithin 0 (.clamp (faces.length - 1)) answer
    faceAt faces place.val
  | die => Score.guardedWithin die.low die.high answer

/-- A clamped answer picks a face of the die, whatever the source has answered.
So none of the guards of a die ever fails. -/
theorem guardedFace_eq (die : Die) (answer : Score) :
    die.guardedFace answer = .ok (die.face answer) := by
  cases die with
  | custom faces atLeastTwo =>
    have ordered : (0 : Score) ≤ .clamp (faces.length - 1) :=
      le_of_lt (custom faces atLeastTwo).asked_ordered
    have nonneg : 0 ≤ (Score.within 0 (.clamp (faces.length - 1)) answer).val :=
      (Score.within_mem ordered answer).1
    have bound : place faces.length answer < faces.length := place_lt (by omega) answer
    rw [guardedFace, Score.guardedWithin_eq ordered]
    show faceAt faces _ = .ok (faces.getD (place faces.length answer) 0)
    rw [faceAt, dif_pos ⟨nonneg, bound⟩, List.getD_eq_getElem _ _ bound]
    rfl
  | sided sides atLeastTwo => exact Score.guardedWithin_eq (low_le_high _) answer
  | fudge => exact Score.guardedWithin_eq (low_le_high _) answer
  | percentile => exact Score.guardedWithin_eq (low_le_high _) answer

end Die

namespace Selection

variable {α : Type}

/-- A stretch of a ranking, if it lies within it and does not end before it
starts. -/
def cut (ranked : List α) (start stop : Nat) : Except Misuse (List α) := do
  require (start ≤ stop ∧ stop ≤ ranked.length) (.stretch start stop ranked.length)
  .ok ((ranked.take stop).drop start)

theorem cut_eq {ranked : List α} {start stop : Nat}
    (ordered : start ≤ stop ∧ stop ≤ ranked.length) :
    cut ranked start stop = .ok ((ranked.take stop).drop start) := by
  rw [cut, require_of ordered]
  rfl

/-- The items that a selection keeps, in their first order. Both the number of
items to count and the stretch that follows from it are guarded. -/
def guardedKept (rule : Selection) (threshold : Nat) (score : α → Score) (items : List α) :
    Except Misuse (List α) := do
  require (threshold ≤ items.length) (.threshold threshold items.length)
  let ends := rule.stretch items.length threshold
  let stretch ← cut (ranking score items) ends.1 ends.2
  .ok ((inPlace stretch).map (·.1))

/-- A selection of at most as many items as there are cuts a stretch within
their ranking. -/
theorem guardedKept_eq (rule : Selection) {threshold : Nat} (score : α → Score) {items : List α}
    (enough : threshold ≤ items.length) :
    rule.guardedKept threshold score items = .ok (rule.kept threshold score items) := by
  have ordered := rule.stretch_ordered items.length threshold
  rw [← length_ranking score items] at ordered
  have stretch := cut_eq ordered
  rw [length_ranking] at stretch
  rw [guardedKept, require_of enough]
  show (cut _ _ _ >>= fun stretch => Except.ok ((inPlace stretch).map (·.1))) = _
  rw [stretch]
  rfl

end Selection

/-- The result of the operator on a score and a constant, which must not be zero
for a division. -/
def Operator.guardedApply (op : Operator) (a : Score) (operand : UInt32) : Except Misuse Score := do
  require (¬ (op = .divide ∧ operand = 0)) .divisor
  .ok (op.apply a operand)

theorem Operator.guardedApply_eq {op : Operator} {operand : UInt32}
    (nonzero : ¬ (op = .divide ∧ operand = 0)) (a : Score) :
    op.guardedApply a operand = .ok (op.apply a operand) := by
  rw [guardedApply, require_of nonzero]
  rfl

namespace Outcome

/-- The outcome of a selection of tosses, with the guards of `guardedKept`. -/
def guardedSelection (rule : Selection) (threshold : Nat) (tosses : List Toss) :
    Except Misuse Outcome := do
  let kept ← rule.guardedKept threshold Toss.value tosses
  let dropped := rule.dropped threshold Toss.value tosses
  .ok { ofSum kept with
    extensions := [("kept".toList, listing kept), ("dropped".toList, listing dropped)] }

theorem guardedSelection_eq (rule : Selection) {threshold : Nat} {tosses : List Toss}
    (enough : threshold ≤ tosses.length) :
    guardedSelection rule threshold tosses = .ok (ofSelection rule threshold tosses) := by
  rw [guardedSelection, Selection.guardedKept_eq rule _ enough]
  rfl

/-- The outcome of combining a toss with a constant. -/
def guardedArithmetic (op : Operator) (operand : UInt32) (toss : Toss) :
    Except Misuse Outcome := do
  let value ← op.guardedApply toss.value operand
  .ok { ofArithmetic op operand toss with value := value }

theorem guardedArithmetic_eq {op : Operator} {operand : UInt32}
    (nonzero : ¬ (op = .divide ∧ operand = 0)) (toss : Toss) :
    guardedArithmetic op operand toss = .ok (ofArithmetic op operand toss) := by
  rw [guardedArithmetic, Operator.guardedApply_eq nonzero]
  rfl

end Outcome

variable {σ : Type}

/-- Asks the source for a number from `low` to `high`, of which there must be
two. -/
def Run.guardedDraw (source : Source σ) (low high : Score) (run : Run σ) :
    Except Misuse (Option (Score × Run σ)) := do
  require (low < high) (.range low high)
  .ok (run.draw source low high)

theorem Run.guardedDraw_eq {low high : Score} (choice : low < high) (source : Source σ)
    (run : Run σ) : run.guardedDraw source low high = .ok (run.draw source low high) := by
  rw [guardedDraw, require_of choice]
  rfl

namespace Expr

/-! ## Guarded evaluation -/

/-- What an explosion keeps of its members when it is made: the threshold and
the least value of each, up to the first member that is refused. -/
def limits (c : Comparator) (threshold : Option Score) (members : List Expr) :
    List (Score × Score) :=
  (members.takeWhile fun m => !endless c threshold m).map fun m =>
    (c.limit threshold m.bounds, m.minimum)

/-- Rolls again and again, as `rollWhile` does, up to the first misuse. A source
that has run dry is no misuse. -/
def guardedRollWhile (again : Score → Bool)
    (roll : Run σ → Except Misuse (Option (Toss × Run σ))) :
    Nat → List Toss → Run σ → Except Misuse (Option (List Toss × Run σ))
  | 0, _, _ => .ok none
  | patience + 1, earlier, run => do
    let some (toss, run) ← roll run | .ok none
    if again toss.value then guardedRollWhile again roll patience (toss :: earlier) run
    else .ok (some ((toss :: earlier).reverse, run))

mutual

/-- Evaluates an expression, up to the first misuse. But for the guards it is
`evaluate`, case by case. -/
def guarded (source : Source σ) (patience : Nat) (method : Method) :
    Expr → Run σ → Except Misuse (Option (Toss × Run σ))
  | die d, run =>
    match method with
    | .roll => do
      let some (answer, run) ← run.guardedDraw source d.asked.1 d.asked.2 | .ok none
      let face ← d.guardedFace answer
      .ok (some ((die d).conclude method (.ofScore face) run))
    | .minimum => .ok (some ((die d).conclude method (.ofScore d.low) run))
    | .maximum => .ok (some ((die d).conclude method (.ofScore d.high) run))
  | pool members, run => do
    let some (tosses, run) ← guardedMembers source patience method members [] run | .ok none
    .ok (some ((pool members).conclude method (.ofSum tosses) run))
  | arithmetic inner op operand, run => do
    let some (toss, run) ← guarded source patience method inner run | .ok none
    let outcome ← Outcome.guardedArithmetic op operand toss
    .ok (some ((arithmetic inner op operand).conclude method outcome run))
  | selection members rule threshold, run => do
    let some (tosses, run) ← guardedMembers source patience method members [] run | .ok none
    let outcome ← Outcome.guardedSelection rule threshold tosses
    .ok (some ((selection members rule threshold).conclude method outcome run))
  | explosion members c threshold, run => do
    let kept := limits c threshold members
    require (kept.length = members.length) (.limits kept.length members.length)
    match method with
    | .roll =>
      let some (chains, run) ← guardedChains source patience method c members kept [] run
        | .ok none
      .ok (some ((explosion members c threshold).conclude method (.ofChains chains) run))
    | .minimum =>
      if kept.any fun (limit, low) => c.rerollsNegative low limit then
        .ok (some ((explosion members c threshold).conclude method (.ofScore .lowest) run))
      else
        let some (tosses, run) ← guardedMembers source patience method members [] run | .ok none
        .ok (some ((explosion members c threshold).conclude method (.ofSum tosses) run))
    | .maximum =>
      .ok (some ((explosion members c threshold).conclude method (.ofScore .highest) run))

/-- Evaluates members one after the other, up to the first misuse. -/
def guardedMembers (source : Source σ) (patience : Nat) (method : Method) :
    List Expr → List Toss → Run σ → Except Misuse (Option (List Toss × Run σ))
  | [], earlier, run => .ok (some (earlier.reverse, run))
  | m :: rest, earlier, run => do
    let some (toss, run) ← guarded source patience method m run | .ok none
    guardedMembers source patience method rest (toss :: earlier) run

/-- Rolls exploding members against the limits kept for them, as far as these
go. -/
def guardedChains (source : Source σ) (patience : Nat) (method : Method) (c : Comparator) :
    List Expr → List (Score × Score) → List (List Toss) → Run σ →
      Except Misuse (Option (List (List Toss) × Run σ))
  | m :: rest, (limit, _) :: kept, earlier, run => do
    let some (chain, run) ←
      guardedRollWhile (c.holds · limit) (guarded source patience method m) patience [] run
      | .ok none
    guardedChains source patience method c rest kept (chain :: earlier) run
  | _, _, earlier, run => .ok (some (earlier.reverse, run))

end

/-! ## No misuse -/

variable {source : Source σ} {patience : Nat} {method : Method} {e : Expr} {members : List Expr}
  {c : Comparator} {threshold : Option Score}

/-- An explosion that was accepted keeps a limit for each of its members. For a
refused one the list would be shorter. -/
theorem limits_eq (accepted : ∀ m ∈ members, endless c threshold m = false) :
    limits c threshold members =
      members.map fun m => (c.limit threshold m.bounds, m.minimum) := by
  have all : members.takeWhile (fun m => !endless c threshold m) = members :=
    List.takeWhile_eq_self_iff.2 fun m hm => by simp [accepted m hm]
  rw [limits, all]

/-- With all limits kept, the test for a bottomless explosion is the same as
that of its bounds. -/
theorem any_limits :
    ((members.map fun m => (c.limit threshold m.bounds, m.minimum)).any
      fun (limit, low) => c.rerollsNegative low limit) =
      Bounds.bottomless c threshold (memberBounds members []) := by
  rw [Bounds.bottomless, memberBounds_eq, List.reverse_nil, List.nil_append, List.any_map,
    List.any_map]
  rfl

/-- There are as many results as members, behind those that were there already.
So the ranking of a selection is as long as its pool. -/
theorem length_of_evaluateMembers {earlier tosses : List Toss} {run final : Run σ}
    (ended : evaluateMembers source patience method members earlier run = some (tosses, final)) :
    tosses.length = earlier.length + members.length := by
  induction members generalizing earlier run with
  | nil =>
    simp only [evaluateMembers_nil, Option.some.injEq, Prod.mk.injEq] at ended
    simp [← ended.1]
  | cons m rest ih =>
    rw [evaluateMembers_cons, Option.bind_eq_some_iff] at ended
    obtain ⟨⟨toss, mid⟩, -, later⟩ := ended
    rw [ih later, List.length_cons, List.length_cons]
    omega

/-- Whether the evaluation of an expression comes to no misuse, from any run.
Then the guards change nothing. -/
def Sound (source : Source σ) (patience : Nat) (method : Method) (e : Expr) : Prop :=
  ∀ run, e.guarded source patience method run = .ok (e.evaluate source patience method run)

/-- Members without misuse are evaluated as without guards. The induction is on
their list. -/
theorem guardedMembers_eq (each : ∀ m ∈ members, m.Sound source patience method)
    (earlier : List Toss) (run : Run σ) :
    guardedMembers source patience method members earlier run =
      .ok (evaluateMembers source patience method members earlier run) := by
  induction members generalizing earlier run with
  | nil => rw [guardedMembers, evaluateMembers_nil]
  | cons m rest ih =>
    rw [guardedMembers, evaluateMembers_cons, each m (by simp) run]
    cases m.evaluate source patience method run with
    | none => rfl
    | some result => exact ih (fun x hx => each x (by simp [hx])) _ _

/-- A member without misuse is rolled again as without guards. -/
theorem guardedRollWhile_eq (again : Score → Bool) (sound : e.Sound source patience method)
    (rolls : Nat) (earlier : List Toss) (run : Run σ) :
    guardedRollWhile again (e.guarded source patience method) rolls earlier run =
      .ok (rollWhile again (e.evaluate source patience method) rolls earlier run) := by
  induction rolls generalizing earlier run with
  | zero => rfl
  | succ rolls ih =>
    rw [guardedRollWhile, rollWhile, sound run]
    cases e.evaluate source patience method run with
    | none => rfl
    | some result =>
      show (if again result.1.value then _ else _) =
        Except.ok (if again result.1.value then _ else _)
      split
      next => exact ih _ _
      next => rfl

/-- Members without misuse explode as without guards, if there is a limit for
each. -/
theorem guardedChains_eq (each : ∀ m ∈ members, m.Sound source patience method)
    (earlier : List (List Toss)) (run : Run σ) :
    guardedChains source patience method c members
        (members.map fun m => (c.limit threshold m.bounds, m.minimum)) earlier run =
      .ok (explodeMembers source patience method c threshold members earlier run) := by
  induction members generalizing earlier run with
  | nil => simp [guardedChains, explodeMembers]
  | cons m rest ih =>
    rw [List.map_cons, guardedChains, explodeMembers, guardedRollWhile_eq _ (each m (by simp))]
    cases rollWhile (c.holds · (c.limit threshold m.bounds))
        (m.evaluate source patience method) patience [] run with
    | none => rfl
    | some result => exact ih (fun x hx => each x (by simp [hx])) _ _

/-- A die sees to its own range and places. Nothing is asked of how it was
built, as its fields have the proofs. -/
theorem sound_die (d : Die) (source : Source σ) (patience : Nat) (method : Method) :
    (die d).Sound source patience method := by
  intro run
  cases method with
  | roll =>
    rw [guarded, evaluate, Run.guardedDraw_eq d.asked_ordered]
    cases run.draw source d.asked.1 d.asked.2 with
    | none => rfl
    | some given =>
      show (d.guardedFace given.1 >>= _) = _
      rw [d.guardedFace_eq]
      rfl
  | minimum => rw [guarded, evaluate]
  | maximum => rw [guarded, evaluate]

/-- An explosion that was accepted comes to no misuse if its members do not.
That it was accepted is needed for its limits. -/
theorem sound_explosion (accepted : ∀ m ∈ members, endless c threshold m = false)
    (each : ∀ m ∈ members, m.Sound source patience method) :
    (explosion members c threshold).Sound source patience method := by
  intro run
  have kept := limits_eq accepted
  -- nothing was refused, so the list of limits is not cut short
  have enough : (limits c threshold members).length = members.length := by
    rw [kept, List.length_map]
  cases method with
  | roll =>
    rw [guarded, evaluate, require_of enough, kept]
    show (guardedChains source patience .roll c members _ [] run >>= _) = _
    rw [guardedChains_eq each]
    cases explodeMembers source patience .roll c threshold members [] run <;> rfl
  -- the guarded evaluation asks the limits that were kept, the other one the bounds
  | minimum =>
    rw [guarded, evaluate, require_of enough, kept, any_limits]
    show (if _ then _ else _) = Except.ok (if _ then _ else _)
    split
    next => rfl
    next =>
      rw [guardedMembers_eq each]
      cases evaluateMembers source patience .minimum members [] run <;> rfl
  | maximum =>
    rw [guarded, evaluate, require_of enough]
    rfl

/-- For all nodes but dice the check of the constructor is what the guards ask
for. -/
theorem sound_of_checked (checked : e.Every Checked) (source : Source σ) (patience : Nat)
    (method : Method) : e.Sound source patience method := by
  induction checked with
  | die d self => exact sound_die d source patience method
  | pool members self each ih =>
    intro run
    rw [guarded, evaluate, guardedMembers_eq ih]
    cases evaluateMembers source patience method members [] run <;> rfl
  | arithmetic inner op operand self inside ih =>
    intro run
    rw [guarded, evaluate, ih run]
    cases inner.evaluate source patience method run with
    | none => rfl
    | some result =>
      show (Outcome.guardedArithmetic op operand result.1 >>= _) = _
      rw [Outcome.guardedArithmetic_eq (self rfl)]
      rfl
  | selection members rule threshold self each ih =>
    intro run
    rw [guarded, evaluate, guardedMembers_eq ih]
    cases ended : evaluateMembers source patience method members [] run with
    | none => rfl
    | some result =>
      -- the constructor has counted members, the guard counts their results
      have enough : threshold ≤ result.1.length := by
        rw [length_of_evaluateMembers ended, List.length_nil, Nat.zero_add]
        exact self rfl
      show (Outcome.guardedSelection rule threshold result.1 >>= _) = _
      rw [Outcome.guardedSelection_eq rule enough]
      rfl
  | explosion members c threshold self each ih => exact sound_explosion (self rfl) ih

/-- **An evaluation never leaves the domains of its operations.** A selection
counts no more results than it has members, an explosion keeps one limit for
each of its members, and whatever the method is and the source answers, no guard
ends the evaluation. -/
theorem guarded_eq (obtained : e.Obtained) :
    (∀ members rule threshold, selection members rule threshold ∈ e.nodes →
      threshold ≤ members.length) ∧
    (∀ members c threshold, explosion members c threshold ∈ e.nodes →
      (limits c threshold members).length = members.length) ∧
    ∀ {σ : Type} (source : Source σ) (patience : Nat) (method : Method) (run : Run σ),
      e.guarded source patience method run = .ok (e.evaluate source patience method run) := by
  have checked := established_checked.every obtained
  have nodes := every_iff_forall_nodes.1 checked
  refine ⟨fun members rule threshold mem => nodes _ mem rfl, fun members c threshold mem => ?_,
    fun source patience method run => sound_of_checked checked source patience method run⟩
  have accepted := nodes _ mem rfl
  rw [limits_eq accepted, List.length_map]

/-- Half of a selection and an explosion of dice that list their faces. -/
def halved : Expr :=
  .arithmetic
    (.pool [.selection [unevenDie, .pool [.die .sixSided, .die .sixSided]] .keepHighest 1,
      .explosion [.die (.custom [1, 5] (by decide))] .equals none])
    .divide 2

/-- The selection in `halved` keeps the pool, which rolls 1 and 6, and leaves
two answers. -/
theorem exists_selected_halved : ∃ toss run,
    (selection [unevenDie, .pool [.die .sixSided, .die .sixSided]] .keepHighest 1).evaluate
      .answers 2 .roll (.start [99, .clamp (-5), 1000, 7, .clamp (-7)]) = some (toss, run) ∧
    toss.value = 7 ∧ run.state = [7, .clamp (-7)] := by
  have shown : (evaluateMembers .answers 2 .roll
      [unevenDie, .pool [.die .sixSided, .die .sixSided]] []
      (.start [99, .clamp (-5), 1000, 7, .clamp (-7)])).map
        (fun ended => (ended.1.map (·.value), ended.2.state)) =
      some ([4, 7], [7, .clamp (-7)]) := by decide +kernel
  obtain ⟨⟨tosses, mid⟩, inside, seen⟩ := Option.map_eq_some_iff.1 shown
  obtain ⟨values, left⟩ := Prod.mk.inj seen
  have kept : (Outcome.ofSelection .keepHighest 1 tosses).value = 7 := by
    rw [Outcome.value_ofSelection, values]
    simp +decide [Selection.kept, Selection.keptPlaces, Selection.ranking, Selection.inPlace,
      Selection.stretch, List.mergeSort, List.MergeSort.Internal.splitInTwo]
  exact ⟨(Outcome.ofSelection .keepHighest 1 tosses).toss _ _, mid.record _,
    by rw [evaluate, inside]; rfl, kept, left⟩

/-- The explosion in `halved` rolls 5, rolls again and ends with 1; of the run
before it only the answers that are left matter. -/
theorem value_exploded_halved {run : Run (List Score)} (left : run.state = [7, .clamp (-7)]) :
    ((explosion [.die (.custom [1, 5] (by decide))] .equals none).evaluate .answers 2 .roll
      run).map (·.1.value) = some 6 := by
  obtain ⟨_, _, _⟩ := run
  obtain rfl := left
  rfl

/-- The two summands come to 13, half of which is 6. -/
theorem value_halved :
    (halved.evaluate .answers 2 .roll (.start [99, .clamp (-5), 1000, 7, .clamp (-7)])).map
      (fun result => result.1.value) = some 6 := by
  obtain ⟨chosen, mid, selected, seven, left⟩ := exists_selected_halved
  obtain ⟨⟨toss, final⟩, exploded, six⟩ := Option.map_eq_some_iff.1 (value_exploded_halved left)
  have total : Score.sum [chosen.value, toss.value] = 13 := by
    rw [seven, show toss.value = 6 from six]
    decide
  rw [halved, evaluate, evaluate]
  simp only [evaluateMembers_cons, selected, exploded, Option.bind_some, evaluateMembers_nil]
  show some (Operator.divide.apply (Score.sum [chosen.value, toss.value]) 2) = some 6
  rw [total]
  decide

/-- Each answer lies outside of the range asked. The dice bring them in, and no
guard fails. -/
theorem guarded_eq_halved :
    parse "((d[4,0,4] + 2d6)kh + d[1,5]!)/2".toList = .ok halved ∧
    1 ≤ [unevenDie, .pool [.die .sixSided, .die .sixSided]].length ∧
    (limits .equals none [.die (.custom [1, 5] (by decide))]).length = 1 ∧
    halved.guarded .answers 2 .roll (.start [99, .clamp (-5), 1000, 7, .clamp (-7)]) =
      .ok (halved.evaluate .answers 2 .roll (.start [99, .clamp (-5), 1000, 7, .clamp (-7)])) ∧
    (halved.evaluate .answers 2 .roll (.start [99, .clamp (-5), 1000, 7, .clamp (-7)])).map
      (fun result => result.1.value) = some 6 := by
  have read : parse "((d[4,0,4] + 2d6)kh + d[1,5]!)/2".toList = .ok halved := by decide +kernel
  have sound := guarded_eq (.inr ⟨_, read⟩)
  refine ⟨read, sound.1 _ .keepHighest _ ?_, sound.2.1 _ _ _ ?_, sound.2.2 _ _ _ _, ?_⟩
  · simp [halved, nodes]
  · simp [halved, nodes]
  · exact value_halved

/-- The guards do refuse what no constructor makes. -/
example :
    (arithmetic (.die .fudge) .divide 0).guarded .answers 0 .minimum (.start []) =
      .error .divisor ∧
    (explosion [.die .fudge] .greaterThan (some (.clamp (-1)))).guarded .answers 0 .maximum
      (.start []) = .error (.limits 0 1) := by
  exact ⟨rfl, rfl⟩

end Expr

end Dice
