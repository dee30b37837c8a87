import Dice.Proofs.Die
import Dice.Proofs.Expr.Every

/-!
# Expressions that the constructors make

`Built` holds of the expressions that dice, sums, arithmetic, selections and
explosions make, and of no others. What a constructor checks is then known of
every node, however the expression was put together.

The definition goes by the functions that build expressions, not by the nodes
that they make: a sum is `Built` from its summands, which are not its members
in general, and a selection from an expression whose members it takes. So it
says nothing of nodes by itself. `Accepted` does, one condition for each kind
of node, and the theorem leads from one to the other. Later modules assume
`Built` and use `Every Accepted`.

For each constructor that can refuse there is one lemma that says what it
makes when it does not: which node, and that the node passes the check. The
induction needs nothing else of the constructors.

Main statement: `Built.accepted`.
-/

namespace Dice.Expr

/-- The expressions that can be built. The places of all faces of a die have to
be scores, which is so of every list that a machine can hold. -/
inductive Built : Expr → Prop
  | die (d : Die) (fits : d.Fits) : Built (.die d)
  | sum (summands : List Expr) (each : ∀ m ∈ summands, Built m) : Built (sum summands)
  | apply {e made : Expr} {op : Operator} {operand : UInt32} (built : Built e)
    (accepted : e.apply op operand = .ok made) : Built made
  | select {e made : Expr} {rule : Selection} {threshold : Nat} (built : Built e)
    (accepted : e.select rule threshold = .ok made) : Built made
  | explode {e made : Expr} {c : Comparator} {threshold : Option Score} (built : Built e)
    (accepted : e.explode c threshold = .ok made) : Built made

/-- What the constructor of a node has checked. Nothing else about a node is
known from its having been built. -/
def Accepted : Expr → Prop
  | .die d => d.Fits
  | .pool members => Normal members
  | .arithmetic _ op operand => ¬ (op = .divide ∧ operand = 0)
  | .selection members _ threshold => threshold ≤ members.length
  | .explosion members c threshold => ∀ m ∈ members, endless c threshold m = false

/-- Copies of something that was built are built: a sum of it, or it alone. -/
theorem Built.copies {e : Expr} (built : Built e) (quantity : Nat) : Built (e.copies quantity) := by
  unfold Expr.copies
  split
  next => exact built
  next => exact .sum _ fun m hm => (List.eq_of_mem_replicate hm) ▸ built

/-- A property of all nodes holds of the members of a pool, and of an expression
that is no pool as the only member of one. -/
theorem Every.members {p : Expr → Prop} {e : Expr} (every : e.Every p) :
    ∀ m ∈ e.members, m.Every p := by
  cases every with
  | pool members self each => exact each
  | _ => simp_all [Expr.members]

/-- The members of a sum have every property that all of its summands have in
all nodes: they are summands, or members of one. -/
theorem Every.sumMembers {p : Expr → Prop} {summands : List Expr}
    (every : ∀ m ∈ summands, m.Every p) : ∀ m ∈ sumMembers summands, m.Every p := by
  unfold Expr.sumMembers
  split
  next inner heq =>
    have mem : Expr.pool inner ∈ summands.filter (fun e => !e.isEmpty) := by simp [heq]
    exact (Every.pool_iff.1 (every _ (List.mem_filter.1 mem).1)).2
  next => exact fun m hm => every m (List.mem_filter.1 hm).1

/-! ## What the constructors make -/

variable {e made : Expr}

/-- Arithmetic that is made does not divide by zero. What is made is the node
that was asked for. -/
theorem accepted_apply {op : Operator} {operand : UInt32} (ok : e.apply op operand = .ok made) :
    made = .arithmetic e op operand ∧ made.Accepted := by
  unfold Expr.apply at ok
  split at ok
  next => cases ok
  next nonzero =>
    cases ok
    exact ⟨rfl, nonzero⟩

/-- A selection that is made is of no more results than there are. Its members
are those of the pool, and the pool is gone. -/
theorem accepted_select {rule : Selection} {threshold : Nat}
    (ok : e.select rule threshold = .ok made) :
    made = .selection e.members rule threshold ∧ made.Accepted := by
  simp only [Expr.select] at ok
  split at ok
  next => cases ok
  next enough =>
    cases ok
    exact ⟨rfl, Nat.le_of_not_lt enough⟩

/-- An explosion that is made is endless for none of its members. The bounds of
each member decide that. -/
theorem accepted_explode {c : Comparator} {threshold : Option Score}
    (ok : e.explode c threshold = .ok made) :
    made = .explosion e.members c threshold ∧ made.Accepted := by
  unfold Expr.explode at ok
  split at ok
  next => cases ok
  next none =>
    cases ok
    exact ⟨rfl, fun m hm => by simpa using List.find?_eq_none.1 none m hm⟩

/-- **Every node of an expression that can be built passes the check of its
constructor.** The induction is on how it was built. -/
theorem Built.accepted (built : Built e) : e.Every Accepted := by
  induction built with
  | die d fits => exact .die d fits
  | sum summands each ih =>
    refine .pool _ (normal_sumMembers fun ms hm => ?_) (Every.sumMembers ih)
    exact (Every.pool_iff.1 (ih _ hm)).1
  | apply built ok ih =>
    obtain ⟨rfl, accepted⟩ := accepted_apply ok
    exact .arithmetic _ _ _ accepted ih
  | select built ok ih =>
    obtain ⟨rfl, accepted⟩ := accepted_select ok
    exact .selection _ _ _ accepted ih.members
  | explode built ok ih =>
    obtain ⟨rfl, accepted⟩ := accepted_explode ok
    exact .explosion _ _ _ accepted ih.members

end Dice.Expr
