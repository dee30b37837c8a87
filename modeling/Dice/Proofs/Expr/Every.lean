import Dice.Expr.Build

/-!
# Properties of all nodes

`Every p e` says that `p` holds of every node of the expression `e`: of `e`
itself and of everything inside it. The pool under a selection or an explosion
is no node of its own.

It is an inductive predicate with one constructor for each kind of node, so a
proof by induction on it has the property at the node in each case, and the
hypothesis for the members. Going inside is done by one equivalence for each
kind of node. They are simp lemmas: a property of all nodes of an expression
that is written out is simplified to a conjunction.

Properties are combined node by node. `imp₂` takes two of them and whatever
follows from both at a node; that the second one may be the first once more
makes it a lemma about one property as well. `deep` says of each node what is
known of all nodes inside it, for conclusions at a node that need more than
its members.

Main statements: one equivalence for each kind of node, by which `Every` goes
from a node to its members, and `imp₂`, by which it follows from what holds at
each node.
-/

namespace Dice.Expr

/-- Whether an expression is a selection. -/
def isSelection : Expr → Bool
  | selection _ _ _ => true
  | _ => false

/-- Whether an expression is an explosion. -/
def isExplosion : Expr → Bool
  | explosion _ _ _ => true
  | _ => false

/-- Whether a property holds of all nodes of an expression: of the node itself,
and of all nodes of the members. -/
inductive Every (p : Expr → Prop) : Expr → Prop
  | die (d : Die) (self : p (.die d)) : Every p (.die d)
  | pool (members : List Expr) (self : p (.pool members)) (each : ∀ m ∈ members, Every p m) :
    Every p (.pool members)
  | arithmetic (inner : Expr) (op : Operator) (operand : UInt32)
    (self : p (.arithmetic inner op operand)) (inside : Every p inner) :
    Every p (.arithmetic inner op operand)
  | selection (members : List Expr) (rule : Selection) (threshold : Nat)
    (self : p (.selection members rule threshold)) (each : ∀ m ∈ members, Every p m) :
    Every p (.selection members rule threshold)
  | explosion (members : List Expr) (c : Comparator) (threshold : Option Score)
    (self : p (.explosion members c threshold)) (each : ∀ m ∈ members, Every p m) :
    Every p (.explosion members c threshold)

namespace Every

variable {p q : Expr → Prop} {members : List Expr}

@[simp] theorem die_iff {d : Die} : Every p (.die d) ↔ p (.die d) :=
  ⟨fun | .die _ self => self, .die d⟩

/-- All nodes of a pool are the pool itself and the nodes of its members;
likewise for the other kinds. -/
@[simp] theorem pool_iff : Every p (.pool members) ↔
    p (.pool members) ∧ ∀ m ∈ members, Every p m :=
  ⟨fun | .pool _ self each => ⟨self, each⟩, fun ⟨self, each⟩ => .pool _ self each⟩

@[simp] theorem arithmetic_iff {inner : Expr} {op : Operator} {operand : UInt32} :
    Every p (.arithmetic inner op operand) ↔
      p (.arithmetic inner op operand) ∧ Every p inner :=
  ⟨fun | .arithmetic _ _ _ self inside => ⟨self, inside⟩,
    fun ⟨self, inside⟩ => .arithmetic _ _ _ self inside⟩

@[simp] theorem selection_iff {rule : Selection} {threshold : Nat} :
    Every p (.selection members rule threshold) ↔
      p (.selection members rule threshold) ∧ ∀ m ∈ members, Every p m :=
  ⟨fun | .selection _ _ _ self each => ⟨self, each⟩,
    fun ⟨self, each⟩ => .selection _ _ _ self each⟩

@[simp] theorem explosion_iff {c : Comparator} {threshold : Option Score} :
    Every p (.explosion members c threshold) ↔
      p (.explosion members c threshold) ∧ ∀ m ∈ members, Every p m :=
  ⟨fun | .explosion _ _ _ self each => ⟨self, each⟩,
    fun ⟨self, each⟩ => .explosion _ _ _ self each⟩

variable {e : Expr} {r : Expr → Prop}

/-- What holds of all nodes holds of all nodes of each node. With it the members
of a node may be looked at as well where the node is. -/
theorem deep (every : e.Every p) : e.Every fun node => node.Every p := by
  induction every with
  | die d self => exact .die d (.die d self)
  | pool members self each ih => exact .pool members (.pool members self each) ih
  | arithmetic inner op operand self inside ih =>
    exact .arithmetic inner op operand (.arithmetic inner op operand self inside) ih
  | selection members rule threshold self each ih =>
    exact .selection members rule threshold (.selection members rule threshold self each) ih
  | explosion members c threshold self each ih =>
    exact .explosion members c threshold (.explosion members c threshold self each) ih

/-- What follows from two properties at a node follows from them at all nodes.
The induction is on the first, and the second is taken apart alongside. -/
theorem imp₂ (every : e.Every p) (other : e.Every q) (h : ∀ node, p node → q node → r node) :
    e.Every r := by
  induction every with
  | die d self => exact .die d (h _ self (die_iff.1 other))
  | pool members self each ih =>
    obtain ⟨self', each'⟩ := pool_iff.1 other
    exact .pool members (h _ self self') fun m hm => ih m hm (each' m hm)
  | arithmetic inner op operand self inside ih =>
    obtain ⟨self', inside'⟩ := arithmetic_iff.1 other
    exact .arithmetic inner op operand (h _ self self') (ih inside')
  | selection members rule threshold self each ih =>
    obtain ⟨self', each'⟩ := selection_iff.1 other
    exact .selection members rule threshold (h _ self self') fun m hm => ih m hm (each' m hm)
  | explosion members c threshold self each ih =>
    obtain ⟨self', each'⟩ := explosion_iff.1 other
    exact .explosion members c threshold (h _ self self') fun m hm => ih m hm (each' m hm)

/-- Two properties hold of all nodes just if their conjunction does. So
properties can be shown one by one and used together. -/
theorem and_iff : e.Every (fun node => p node ∧ q node) ↔ e.Every p ∧ e.Every q :=
  ⟨fun both => ⟨both.imp₂ both fun _ h _ => h.1, both.imp₂ both fun _ h _ => h.2⟩,
    fun ⟨every, other⟩ => every.imp₂ other fun _ h h' => ⟨h, h'⟩⟩

end Every

end Dice.Expr
