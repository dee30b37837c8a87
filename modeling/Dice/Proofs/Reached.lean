import Dice.Proofs.Attained
import Dice.Proofs.Postorder

/-!
# Bounds that are reached

A report with the least or the greatest value tells what to answer: handing
its answers out reaches the bound. Without explosions nothing is rolled again,
so no patience is needed for that (`evaluate_patience`).

The answers of a report lead to it from some patience on
(`Rolls.roll_answers`). That the patience makes no difference without
explosions removes it from the statement, and the answers that are left over
show that the roll uses up exactly its own.

Explosions could not be admitted here: the greatest value that one reports is
the end of the range of scores, and a roll need not ever come there.

Main statement: `reaches_bounds`.
-/

namespace Dice.Expr

variable {σ : Type} {source : Source σ} {method : Method} {members : List Expr} {e : Expr}

/-! ## Patience -/

/-- Members that are evaluated alike with two patiences are so as a list.
Without explosions every member is. -/
theorem evaluateMembers_patience {patience other : Nat}
    (each : ∀ m ∈ members, ∀ run, m.evaluate source patience method run =
      m.evaluate source other method run) (earlier : List Toss) (run : Run σ) :
    evaluateMembers source patience method members earlier run =
      evaluateMembers source other method members earlier run := by
  induction members generalizing earlier run with
  | nil => rw [evaluateMembers_nil, evaluateMembers_nil]
  | cons m rest ih =>
    rw [evaluateMembers_cons, evaluateMembers_cons, each m (by simp)]
    exact Option.bind_congr fun (toss, mid) _ => ih (fun x hx => each x (by simp [hx])) _ _

/-- Only explosions need patience. Without them an evaluation is the same for
any two, whether it ends or not. -/
theorem evaluate_patience (still : e.Every fun node => node.isExplosion = false)
    (source : Source σ) (patience other : Nat) (method : Method) (run : Run σ) :
    e.evaluate source patience method run = e.evaluate source other method run := by
  induction still generalizing run with
  | die d => cases method <;> simp only [evaluate]
  | pool members self each ih => rw [evaluate, evaluate, evaluateMembers_patience ih]
  | arithmetic inner op operand self inside ih => rw [evaluate, evaluate, ih]
  | selection members rule threshold self each ih =>
    rw [evaluate, evaluate, evaluateMembers_patience ih]
  | explosion members c threshold self => cases self

/-! ## Answers that reach a bound -/

/-- Whether some answers within the ranges asked make a roll give a value and
are used up by it, whatever the patience is and whatever could be answered after
them. -/
def Reaches (e : Expr) (value : Score) : Prop :=
  ∃ answers : List Score, ∀ (patience : Nat) (rest : List Score), ∃ toss final,
    e.roll .answers patience (answers ++ rest) = some (toss, final) ∧ toss.value = value ∧
    final.state = rest ∧ final.draws.toList.map (·.answer) = answers ∧
    ∀ d ∈ final.draws.toList, d.InRange

/-- The answers of a report reach its value. The patience that they were handed
out with is replaced by the given one. -/
theorem reaches_of_attains (still : e.Every fun node => node.isExplosion = false) {value : Score}
    (attains : e.Attains value) : e.Reaches value := by
  obtain ⟨report, rolls, inRange, same⟩ := attains
  obtain ⟨least, handed⟩ := rolls.roll_answers
  refine ⟨report.draws.map (·.answer), fun patience rest => ?_⟩
  have rolled := handed least le_rfl rest
  rw [roll, evaluate_patience still .answers least patience] at rolled
  exact ⟨report.toss, _, rolled, same, rfl, rfl, inRange⟩

/-- **Without explosions both bounds are reached.** The answers for it lie
within the ranges asked, one for each die. -/
theorem reaches_bounds (built : Built e) (still : ∀ node ∈ e.nodes, node.isExplosion = false) :
    e.Reaches e.minimum ∧ e.Reaches e.maximum := by
  have still := every_iff_forall_nodes.2 still
  obtain ⟨low, high⟩ := attains_bounds built.accepted still
  exact ⟨reaches_of_attains still low, reaches_of_attains still high⟩

/-- The answers are for all three dice, the one that does not count included.
They are different for the two bounds. -/
theorem reaches_bounds_mixed : mixed.Built ∧ (∀ node ∈ mixed.nodes, node.isExplosion = false) ∧
    mixed.Reaches 1 ∧ mixed.Reaches 108 := by
  have still : ∀ node ∈ mixed.nodes, node.isExplosion = false := by decide +kernel
  have least : mixed.minimum = 1 := by
    simp +decide [mixed, Selection.kept, Selection.keptPlaces, Selection.ranking,
      Selection.inPlace, Selection.stretch, List.mergeSort, List.MergeSort.Internal.splitInTwo]
  have greatest : mixed.maximum = 108 := by
    simp +decide [mixed, Selection.kept, Selection.keptPlaces, Selection.ranking,
      Selection.inPlace, Selection.stretch, List.mergeSort, List.MergeSort.Internal.splitInTwo]
  obtain ⟨low, high⟩ := reaches_bounds built_mixed still
  exact ⟨built_mixed, still, least ▸ low, greatest ▸ high⟩

end Dice.Expr
