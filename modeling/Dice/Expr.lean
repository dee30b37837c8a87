import Dice.Comparator
import Dice.Die
import Dice.Operator
import Dice.Selection

/-!
# Expressions

A dice expression is a tree. Its leaves are dice; a pool adds its members up,
arithmetic combines one expression with a constant, a selection counts some
results of a pool, and an explosion rolls the members of a pool again while a
comparison holds. The last two hold the members of their pool directly.

The type has no limits of its own: `Dice.Expr.Build` has the functions that
check thresholds and constants before they make a node. What those functions
guarantee is said by predicates on trees.

Trees hold lists of trees, so the recursor that comes with the type has a
second motive for lists, and functions on expressions come in pairs, one for a
tree and one for its members. `Expr.ind` puts the two together: for each kind
of node with members there is one hypothesis that speaks of all of them. Every
induction on expressions in this library is by it, with one named case for
each kind of node.

Main statements: `Expr.ind`, the induction that speaks of all members of a
pool at once, and `same_iff`, by which equality of expressions is decided.
-/

namespace Dice

/-- A dice expression. The constructors give raw trees; those that can be had
are the ones that go through the functions of `Dice.Expr.Build`. -/
inductive Expr
  /-- A single die. -/
  | die (die : Die)
  /-- The sum of the members. -/
  | pool (members : List Expr)
  /-- An expression combined with a constant. -/
  | arithmetic (inner : Expr) (op : Operator) (operand : UInt32)
  /-- The sum of the selected members of a pool. -/
  | selection (members : List Expr) (rule : Selection) (threshold : Nat)
  /-- A pool whose members roll again while the comparison holds. Without a
  threshold each member has one that follows from its bounds. -/
  | explosion (members : List Expr) (comparator : Comparator) (threshold : Option Score)

namespace Expr

/-- Induction on an expression, with one hypothesis for all members of a node.
Properties of expressions are proved by it, so none of them needs a second
statement about lists of members. -/
theorem ind {motive : Expr → Prop} (die : ∀ d, motive (.die d))
    (pool : ∀ members, (∀ m ∈ members, motive m) → motive (.pool members))
    (arithmetic : ∀ inner op operand, motive inner → motive (.arithmetic inner op operand))
    (selection : ∀ members rule threshold, (∀ m ∈ members, motive m) →
      motive (.selection members rule threshold))
    (explosion : ∀ members comparator threshold, (∀ m ∈ members, motive m) →
      motive (.explosion members comparator threshold)) :
    ∀ e, motive e := by
  intro e
  refine @Expr.rec motive (fun members => ∀ m ∈ members, motive m) die pool arithmetic selection
    explosion (fun _ h => absurd h (by simp)) (fun first rest hfirst hrest m hm => ?_) e
  rcases List.mem_cons.mp hm with rfl | hm'
  · exact hfirst
  · exact hrest m hm'

/-! ## Equality -/

mutual

/-- Whether two expressions are the same tree. Members are compared in their
order, and the check ends at the first difference. -/
def same : Expr → Expr → Bool
  | die a, die b => a = b
  | pool as, pool bs => sameMembers as bs
  | arithmetic a op m, arithmetic b op' n => if op = op' ∧ m = n then same a b else false
  | selection as rule m, selection bs rule' n =>
    if rule = rule' ∧ m = n then sameMembers as bs else false
  | explosion as c m, explosion bs c' n => if c = c' ∧ m = n then sameMembers as bs else false
  | _, _ => false

/-- Whether two lists hold the same trees in the same order. -/
def sameMembers : List Expr → List Expr → Bool
  | [], [] => true
  | a :: as, b :: bs => if same a b then sameMembers as bs else false
  | _, _ => false

end

/-- Lists compare equal exactly when they are, if that holds of the trees in the
first one. -/
theorem sameMembers_iff {as : List Expr} (members : ∀ a ∈ as, ∀ b, same a b = true ↔ a = b) :
    ∀ bs, sameMembers as bs = true ↔ as = bs := by
  induction as with
  | nil =>
    intro bs
    cases bs <;> simp [sameMembers]
  | cons a as ih =>
    intro bs
    cases bs with
    | nil => simp [sameMembers]
    | cons b bs =>
      have head := members a (by simp) b
      have tail := ih (fun x hx => members x (by simp [hx])) bs
      simp [sameMembers, head, tail]

/-- Trees compare equal exactly when they are, which makes equality of
expressions decidable. -/
theorem same_iff : ∀ a b, same a b = true ↔ a = b := by
  intro a
  induction a using ind with
  | die d =>
    intro b
    cases b <;> simp [same]
  | pool members ih =>
    intro b
    cases b <;> simp [same, sameMembers_iff ih]
  | arithmetic inner op operand ih =>
    intro b
    cases b <;> simp [same, ih, and_comm, and_left_comm]
  | selection members rule threshold ih =>
    intro b
    cases b <;> simp [same, sameMembers_iff ih, and_comm]
  | explosion members comparator threshold ih =>
    intro b
    cases b <;> simp [same, sameMembers_iff ih, and_comm]

instance : DecidableEq Expr := fun a b => decidable_of_iff _ (same_iff a b)

instance : Inhabited Expr := ⟨.pool []⟩

/-! ## Shapes -/

/-- Whether an expression is the pool without members. -/
def isEmpty : Expr → Bool
  | pool [] => true
  | _ => false

/-- Whether an expression is a bare die. -/
def isDie : Expr → Bool
  | die _ => true
  | _ => false

/-- The members of a pool; any other expression is its own only member. A
modifier applies to what this gives. -/
def members : Expr → List Expr
  | pool members => members
  | e => [e]

/-- Whether the members are all the same bare die. Such members can be written
with their number in front, and need no parentheses. -/
def uniform : List Expr → Bool
  | die first :: rest => rest.all fun m => m.same (die first)
  | _ => false

end Expr

end Dice
