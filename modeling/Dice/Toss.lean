import Dice.Score.Decimal

/-!
# Tosses

A toss is the result of evaluating an expression once: its value, a formula
that shows how the value came about, and where it came from. Evaluating a tree
gives a toss for every node.

The formula of a node is put together out of those of its members. One that
has more than one part stands in parentheses there, and a formula has more
than one part where it has a blank in it, since operators and plus signs are
written with blanks around them.

Where a toss came from is its `Context`: the written form of the node, the
method, and details under keys. Selections leave the results that they kept
and dropped there, and explosions the number of rolls that were made again.
Details are held in the order of their keys, one for each key, so two contexts
with the same details are equal however these were set.

Main statements: `get?_insert_self` and `get?_insert_of_ne`, what a detail
reads after another was set.
-/

namespace Dice

/-- What an expression is evaluated for. All nodes of an expression are
evaluated for the same. -/
inductive Method
  /-- A random roll. -/
  | roll
  /-- The least value. -/
  | minimum
  /-- The greatest value. -/
  | maximum
deriving DecidableEq

namespace Method

/-- The name of a method. -/
def name : Method → String
  | roll => "roll"
  | minimum => "minimum"
  | maximum => "maximum"

end Method

/-- Where a toss came from: the written form of the expression, the method, and
further details under keys. -/
structure Context where
  text : Text
  method : Method
  /-- The details, by ascending key, one for each key. -/
  extensions : List (Text × Text)
deriving DecidableEq

namespace Context

/-- The context without details. -/
def ofText (text : Text) (method : Method) : Context := ⟨text, method, []⟩

/-- Details in the order of their keys, after one more was set. A key stands in
the list once. -/
def insertSorted (key value : Text) : List (Text × Text) → List (Text × Text)
  | [] => [(key, value)]
  | (k, v) :: rest =>
    if key = k then (key, value) :: rest
    else if key < k then (key, value) :: (k, v) :: rest
    else (k, v) :: insertSorted key value rest

/-- Sets a detail, in the place of an earlier one with the same key. The text
and the method of the context stay. -/
def insert (context : Context) (key value : Text) : Context :=
  { context with extensions := insertSorted key value context.extensions }

/-- The detail with the given key. -/
def get? (context : Context) (key : Text) : Option Text := context.extensions.lookup key

/-- The list finds what was set, whether the key was new or replaced another
value. -/
theorem lookup_insertSorted_self (key value : Text) (details : List (Text × Text)) :
    (insertSorted key value details).lookup key = some value := by
  induction details with
  | nil => simp [insertSorted]
  | cons detail rest ih =>
    obtain ⟨k, v⟩ := detail
    unfold insertSorted
    by_cases same : key = k
    · simp [same]
    · rw [if_neg same]
      split
      · simp
      · have other : (key == k) = false := by simp [same]
        simp [List.lookup_cons, other, ih]

/-- The list finds the same under any other key, wherever the new one was put.
The order of the keys plays no part in it. -/
theorem lookup_insertSorted_of_ne {key other : Text} (ne : other ≠ key) (value : Text)
    (details : List (Text × Text)) :
    (insertSorted key value details).lookup other = details.lookup other := by
  have apart : (other == key) = false := by simp [ne]
  induction details with
  | nil => simp [insertSorted, List.lookup_cons, apart]
  | cons detail rest ih =>
    obtain ⟨k, v⟩ := detail
    unfold insertSorted
    by_cases same : key = k
    · subst same
      simp [List.lookup_cons, apart]
    · rw [if_neg same]
      split
      · simp [List.lookup_cons, apart]
      · simp [List.lookup_cons, ih]

/-- A detail reads as it was set. -/
theorem get?_insert_self (context : Context) (key value : Text) :
    (context.insert key value).get? key = some value :=
  lookup_insertSorted_self key value context.extensions

/-- Setting a detail leaves the others alone. -/
theorem get?_insert_of_ne (context : Context) {key other : Text} (ne : other ≠ key)
    (value : Text) : (context.insert key value).get? other = context.get? other :=
  lookup_insertSorted_of_ne ne value context.extensions

end Context

/-- The result of evaluating an expression once. A toss has a context if it
comes from a node of an expression. -/
structure Toss where
  value : Score
  /-- The formula that the value comes from. -/
  operation : Text
  context : Option Context
deriving DecidableEq

namespace Toss

/-- The formula, in parentheses if it has more than one part. The blanks around
operators tell that: a formula without blanks is a single number or a group. -/
def groupedOperation (toss : Toss) : Text :=
  if toss.operation.contains ' ' then toss.operation.parenthesized else toss.operation

/-- The text of a toss: the value, after the formula if that says more. For a
single die it does not, and the value stands alone. -/
def text (toss : Toss) : Text :=
  if toss.operation = toss.value.text then toss.value.text
  else toss.operation ++ ' ' :: '=' :: ' ' :: toss.value.text

end Toss

end Dice
