import Dice.Proofs.Notation.Parsed

/-!
# What is read is checked

Whatever a notation stands for comes from the constructors. So what every
constructor sees to at the node that it makes holds of all nodes, of those
that were read just as of those that were built. That a node which is no die
has passed the check of its constructor is such a property.

A property of this kind is `Established`, with one field for each constructor.
The constructors that make one node of others may use that the property holds
of all nodes inside, and sums, copies and combinations come down to the field
for sums.

An expression is `Obtained` if it was built or read. These are the expressions
of which anything is asked for in the statements about evaluations, and they
need no other hypothesis.

Main statements: `Established.every`, by which a property is shown of all
nodes of everything that can be had, and `checked_of_parse`.
-/

namespace Dice

open Notation

namespace Expr

variable {e made : Expr} {summands : List Expr} {p : Expr → Prop}

/-- The expressions that a user can have: those that can be built, and those
that notations stand for. -/
def Obtained (e : Expr) : Prop := e.Built ∨ ∃ text, parse text = .ok e

/-- Whether the constructors see to a property at the node that they make, given
that it holds of all nodes inside. -/
structure Established (p : Expr → Prop) : Prop where
  die : ∀ d, p (.die d)
  sum : ∀ {summands : List Expr}, (∀ m ∈ summands, m.Every p) → p (sum summands)
  apply : ∀ {e made : Expr} {op : Operator} {operand : UInt32},
    e.Every p → e.apply op operand = .ok made → p made
  select : ∀ {e made : Expr} {rule : Selection} {threshold : Nat},
    e.Every p → e.select rule threshold = .ok made → p made
  explode : ∀ {e made : Expr} {c : Comparator} {threshold : Option Score},
    e.Every p → e.explode c threshold = .ok made → p made

namespace Established

variable (established : Established p)
include established

theorem every_die (d : Die) : (Expr.die d).Every p := .die d (established.die d)

/-- A sum has the property at all nodes if its summands have it. What is done to
empty pools and to lone ones only takes nodes away. -/
theorem every_sum (each : ∀ m ∈ summands, m.Every p) : (Expr.sum summands).Every p :=
  .pool _ (established.sum each) (Every.sumMembers each)

/-- Copies of an expression are a sum of it, or the expression itself. One copy,
or none, is the expression. -/
theorem every_copies (every : e.Every p) (quantity : Nat) : (e.copies quantity).Every p := by
  unfold copies
  split
  next => exact every
  next => exact established.every_sum fun m hm => (List.eq_of_mem_replicate hm) ▸ every

theorem every_combine (each : ∀ m ∈ summands, m.Every p) : (combine summands).Every p := by
  unfold combine
  split
  next e => exact each e (by simp)
  next => exact established.every_sum each

theorem every_apply {op : Operator} {operand : UInt32} (every : e.Every p)
    (ok : e.apply op operand = .ok made) : made.Every p := by
  have self := established.apply every ok
  obtain ⟨rfl, -⟩ := accepted_apply ok
  exact .arithmetic _ _ _ self every

/-- A selection has the members of the pool that it is of, and so their nodes.
The pool itself is no longer one of them. -/
theorem every_select {rule : Selection} {threshold : Nat} (every : e.Every p)
    (ok : e.select rule threshold = .ok made) : made.Every p := by
  have self := established.select every ok
  obtain ⟨rfl, -⟩ := accepted_select ok
  exact .selection _ _ _ self every.members

theorem every_explode {c : Comparator} {threshold : Option Score} (every : e.Every p)
    (ok : e.explode c threshold = .ok made) : made.Every p := by
  have self := established.explode every ok
  obtain ⟨rfl, -⟩ := accepted_explode ok
  exact .explosion _ _ _ self every.members

/-- Everything that was built has the property at all nodes. The induction is on
how it was built. -/
theorem of_built (built : Built e) : e.Every p := by
  induction built with
  | die d => exact established.every_die d
  | sum summands _ ih => exact established.every_sum ih
  | apply _ ok ih => exact established.every_apply ih ok
  | select _ ok ih => exact established.every_select ih ok
  | explode _ ok ih => exact established.every_explode ih ok

/-- What is established is carried by the readers of notation, since these use
the constructors and nothing else. -/
theorem carried : Carried (Every p) where
  dice quantity _ := established.every_copies (established.every_die _) quantity
  select _ := established.every_select
  explode _ := established.every_explode
  apply := established.every_apply
  combine each _ := established.every_combine each

/-- Everything that is read has the property at all nodes. A blank notation is
the empty pool, which is read without the readers. -/
theorem of_parse {text : Text} (ok : parse text = .ok e) : e.Every p := by
  cases some : text.blank with
  | false => exact established.carried.of_parse some ok
  | true =>
    rw [parse, compile_blank some] at ok
    cases ok
    have nothing : ∀ m ∈ ([] : List Expr), m.Every p := by simp
    exact established.every_sum nothing

/-- **What the constructors see to holds of all nodes.** It is the same for what
was read, as readers use the same constructors. -/
theorem every (obtained : e.Obtained) : e.Every p := by
  rcases obtained with built | ⟨text, ok⟩
  · exact established.of_built built
  · exact established.of_parse ok

end Established

/-- Whether a node is a die or has passed the check of its constructor. Dice are
left out, as a list of faces may be longer than a machine allows. -/
def Checked (e : Expr) : Prop := e.isDie = false → e.Accepted

theorem established_checked : Established Checked where
  die d := by simp [Checked, isDie]
  sum each _ := normal_sumMembers fun _ hm => (Every.pool_iff.1 (each _ hm)).1 rfl
  apply _ ok _ := (accepted_apply ok).2
  select _ ok _ := (accepted_select ok).2
  explode _ ok _ := (accepted_explode ok).2

end Expr

namespace Notation

/-- **Every node that is read has passed the check of its constructor.** The
empty pool of a blank notation is left out, as it was never checked. -/
theorem checked_of_parse {text : Text} {e : Expr} (some : text.blank = false)
    (ok : parse text = .ok e) : e.Every Expr.Checked :=
  Expr.established_checked.carried.of_parse some ok

end Notation

end Dice
