import Dice.Expr.Bounds
import Dice.Expr.Written

/-!
# Building expressions

The functions by which expressions are made. A sum leaves empty pools out and
uses a lone inner pool in its place, so no pool holds an empty pool, or
nothing but another pool. Arithmetic, selections and explosions check their
constants; an explosion is refused when it would be endless for a member.

A selection and an explosion are made of a pool and hold its members. Made of
anything else, they hold that as the only member.

What is checked is checked here only. A division by zero, a threshold past the
number of members and an endless comparison cannot be in an expression that
came about by these functions, and evaluation relies on that. The error of an
endless explosion names the first member that it is endless for, with the
threshold that applies to it.

Main statement: `sumMembers_idem`, by which building a sum of the members of a
sum changes nothing. The members of a sum are `Normal`, and on such members
`sumMembers` is the identity.
-/

namespace Dice

namespace Expr

/-- The members of the sum of the given expressions: those that are not empty,
and in the place of a lone pool its own members. -/
def sumMembers (summands : List Expr) : List Expr :=
  match summands.filter (fun e => !e.isEmpty) with
  | [pool inner] => inner
  | members => members

/-- The sum of the given expressions. A lone pool is opened and not wrapped once
more; pools beside other summands stay members. -/
def sum (summands : List Expr) : Expr := pool (sumMembers summands)

/-- So many independent copies of an expression. One copy, or none, is the
expression itself. -/
def copies (e : Expr) (quantity : Nat) : Expr :=
  if quantity ≤ 1 then e else sum (List.replicate quantity e)

/-- An expression combined with a constant. A division by zero is the one thing
that is refused. -/
def apply (e : Expr) (op : Operator) (operand : UInt32) : Except BuildError Expr :=
  if op = .divide ∧ operand = 0 then .error .divisionByZero
  else .ok (arithmetic e op operand)

/-- The selection of results of a pool. Any other expression counts as a pool
with itself as the only member. -/
def select (e : Expr) (rule : Selection) (threshold : Nat) : Except BuildError Expr :=
  let count := e.members.length
  if count < threshold then .error (.thresholdOutOfRange threshold count)
  else .ok (selection e.members rule threshold)

/-- Whether a member of an explosion is refused as endless. Only its bounds are
looked at, not which results between them it has. -/
def endless (c : Comparator) (threshold : Option Score) (member : Expr) : Bool :=
  let b := member.bounds
  c.endless b.low b.high (c.limit threshold b)

/-- The written form of an endless explosion of one member. It stands in the
wording of the error. -/
def endlessText (c : Comparator) (threshold : Option Score) (member : Expr) : Text :=
  member.text ++ '!' :: c.symbol :: (c.limit threshold member.bounds).text

/-- The explosion of the members of a pool. Any other expression counts as a
pool with itself as the only member. -/
def explode (e : Expr) (c : Comparator) (threshold : Option Score) : Except BuildError Expr :=
  match e.members.find? (endless c threshold) with
  | some member => .error (.endless (String.ofList (endlessText c threshold member)))
  | none => .ok (explosion e.members c threshold)

/-! ## Sums of sums -/

/-- No member is empty, and a lone member is no pool. Lists of members that come
from `sumMembers` are of this form. -/
def Normal (members : List Expr) : Prop :=
  (∀ m ∈ members, m.isEmpty = false) ∧ ∀ inner, members ≠ [pool inner]

/-- Members that are normal are not touched: nothing is left out, and there is
no lone pool to take apart. -/
theorem sumMembers_of_normal {members : List Expr} (normal : Normal members) :
    sumMembers members = members := by
  have all : members.filter (fun e => !e.isEmpty) = members :=
    List.filter_eq_self.2 fun m hm => by simp [normal.1 m hm]
  unfold sumMembers
  rw [all]
  split
  next _ inner => exact absurd rfl (normal.2 inner)
  next => rfl

/-- The members of a sum are normal if those of the pools in it are: either they
are the members of one of those pools, or none of them is empty. -/
theorem normal_sumMembers {summands : List Expr}
    (inner : ∀ ms, pool ms ∈ summands → Normal ms) : Normal (sumMembers summands) := by
  unfold sumMembers
  split
  next ms heq =>
    have mem : pool ms ∈ summands.filter (fun e => !e.isEmpty) := by simp [heq]
    exact inner ms (List.mem_filter.1 mem).1
  next members hne =>
    refine ⟨fun m hm => ?_, fun ms heq => hne ms heq⟩
    simpa using (List.mem_filter.1 hm).2

/-- A sum is the sum of its own members. Building it once more does not change
it. -/
theorem sumMembers_idem {summands : List Expr}
    (inner : ∀ ms, pool ms ∈ summands → Normal ms) :
    sumMembers (sumMembers summands) = sumMembers summands :=
  sumMembers_of_normal (normal_sumMembers inner)

end Expr

end Dice
