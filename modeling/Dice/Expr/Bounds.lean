import Dice.Expr

/-!
# Bounds

The least and the greatest value that an expression reports. The operators and
the sums keep the order of scores, so bounds go from the members upward. An
explosion has no upper end, and no lower end either when a negative result can
ask for another roll.

Both bounds are found in one pass, since the bounds of a member decide about
the threshold where an explosion has none of its own. The proofs speak of one
bound at a time. For that there is an equation for each bound of each kind of
node, in terms of the same bound of the members, and no proof unfolds `bounds`
again.

Bounds are reported, not promised: whether every roll lies between them is a
theorem about expressions without selections, and a condition on the dice for
those with one.

Main statements: `memberBounds_eq`, by which the bounds of the members of a
pool are those of each, and one equation for both bounds of each kind of node.
-/

namespace Dice

/-- The least and the greatest value. That the first is at most the second is a
theorem about expressions and not a field. -/
structure Bounds where
  low : Score
  high : Score
deriving DecidableEq

namespace Comparator

/-- The threshold of an explosion's member: the one given, or the one that
follows from the member's bounds. -/
def limit (c : Comparator) (threshold : Option Score) (bounds : Bounds) : Score :=
  threshold.getD (c.defaultThreshold bounds.low bounds.high)

end Comparator

namespace Bounds

/-- The bounds of a sum. Both ends add from the left and saturate, just as the
values do. -/
def sum (bounds : List Bounds) : Bounds :=
  ⟨.sum (bounds.map (·.low)), .sum (bounds.map (·.high))⟩

/-- The bounds of a selection: what the rule counts of the least results, and
of the greatest ones. -/
def select (rule : Selection) (threshold : Nat) (bounds : List Bounds) : Bounds :=
  ⟨.sum (rule.kept threshold id (bounds.map (·.low))),
    .sum (rule.kept threshold id (bounds.map (·.high)))⟩

/-- Whether an explosion of members with these bounds has no lower end. One
member with a negative result that asks for more is enough. -/
def bottomless (c : Comparator) (threshold : Option Score) (bounds : List Bounds) : Bool :=
  bounds.any fun b => c.rerollsNegative b.low (c.limit threshold b)

/-- The bounds of an explosion. There is no upper end, and no lower one if
negative results can be added again and again. -/
def explode (c : Comparator) (threshold : Option Score) (bounds : List Bounds) : Bounds :=
  ⟨if bottomless c threshold bounds then .lowest else (sum bounds).low, .highest⟩

end Bounds

namespace Expr

mutual

/-- The least and the greatest value of an expression, from those of its
members. No source is involved, and no evaluation. -/
def bounds : Expr → Bounds
  | die d => ⟨d.low, d.high⟩
  | pool members => .sum (memberBounds members [])
  | arithmetic inner op operand =>
    let b := bounds inner
    ⟨op.apply b.low operand, op.apply b.high operand⟩
  | selection members rule threshold => .select rule threshold (memberBounds members [])
  | explosion members c threshold => .explode c threshold (memberBounds members [])

/-- The bounds of each member, after those already `seen` in reverse. -/
def memberBounds : List Expr → List Bounds → List Bounds
  | [], seen => seen.reverse
  | m :: rest, seen => memberBounds rest (bounds m :: seen)

end

/-- The bounds of the members, in their order: the list that is carried along is
put back in front. -/
@[simp] theorem memberBounds_eq (members : List Expr) (seen : List Bounds) :
    memberBounds members seen = seen.reverse ++ members.map bounds := by
  induction members generalizing seen with
  | nil => simp [memberBounds]
  | cons m rest ih => simp [memberBounds, ih]

/-- The least value of an expression, the least score if there is no end. -/
def minimum (e : Expr) : Score := e.bounds.low

/-- The greatest value of an expression, the greatest score if there is no end. -/
def maximum (e : Expr) : Score := e.bounds.high

/-- A pool adds the bounds of its members up, each end by itself. -/
theorem bounds_pool (members : List Expr) :
    (pool members).bounds = .sum (members.map bounds) := by simp [bounds]

/-- A selection counts the least results for one bound and the greatest for the
other. -/
theorem bounds_selection (members : List Expr) (rule : Selection) (threshold : Nat) :
    (selection members rule threshold).bounds = .select rule threshold (members.map bounds) := by
  simp [bounds]

/-- An explosion has the bounds of its members for one end at most: the lower
one, and only if it is not bottomless. -/
theorem bounds_explosion (members : List Expr) (c : Comparator) (threshold : Option Score) :
    (explosion members c threshold).bounds = .explode c threshold (members.map bounds) := by
  simp [bounds]

/-! ## Bounds of each kind of node -/

variable (members : List Expr)

@[simp] theorem minimum_die (d : Die) : (die d).minimum = d.low := rfl

@[simp] theorem maximum_die (d : Die) : (die d).maximum = d.high := rfl

/-- The least value of a pool is the sum of the least values. -/
@[simp] theorem minimum_pool : (pool members).minimum = .sum (members.map minimum) := by
  rw [minimum, bounds_pool, Bounds.sum, List.map_map]
  rfl

/-- The greatest value of a pool is the sum of the greatest values. -/
@[simp] theorem maximum_pool : (pool members).maximum = .sum (members.map maximum) := by
  rw [maximum, bounds_pool, Bounds.sum, List.map_map, List.map_map]
  rfl

@[simp] theorem minimum_arithmetic (inner : Expr) (op : Operator) (operand : UInt32) :
    (arithmetic inner op operand).minimum = op.apply inner.minimum operand := rfl

@[simp] theorem maximum_arithmetic (inner : Expr) (op : Operator) (operand : UInt32) :
    (arithmetic inner op operand).maximum = op.apply inner.maximum operand := rfl

/-- The least value of a selection is what it counts of the least values. Other
results can count at other places. -/
@[simp] theorem minimum_selection (rule : Selection) (threshold : Nat) :
    (selection members rule threshold).minimum =
      .sum (rule.kept threshold id (members.map minimum)) := by
  rw [minimum, bounds_selection, Bounds.select, List.map_map, List.map_map]
  rfl

/-- The greatest value of a selection is what it counts of the greatest values. -/
@[simp] theorem maximum_selection (rule : Selection) (threshold : Nat) :
    (selection members rule threshold).maximum =
      .sum (rule.kept threshold id (members.map maximum)) := by
  rw [maximum, bounds_selection, Bounds.select, List.map_map, List.map_map]
  rfl

/-- The least value of an explosion is that of its pool, unless negative results
can follow each other without end. -/
theorem minimum_explosion (c : Comparator) (threshold : Option Score) :
    (explosion members c threshold).minimum =
      if Bounds.bottomless c threshold (members.map bounds) then .lowest
      else .sum (members.map minimum) := by
  rw [minimum, bounds_explosion, Bounds.explode, Bounds.sum, List.map_map]
  rfl

@[simp] theorem maximum_explosion (c : Comparator) (threshold : Option Score) :
    (explosion members c threshold).maximum = .highest := rfl

end Expr

end Dice
