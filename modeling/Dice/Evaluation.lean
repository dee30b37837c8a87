import Dice.Expr.Bounds
import Dice.Expr.Written
import Dice.Source
import Dice.Toss

/-!
# Evaluation

One evaluator serves all three methods. A roll asks the source once for every
die, from left to right; the least and the greatest value ask for nothing.
Every node gives a toss, its members' tosses first. The pool under a selection
or an explosion is no node of its own.

A run carries what an evaluation uses and leaves behind: the state of the
source, the numbers asked of it and the tosses. It ends without a result when
the source runs dry, or when a member of an explosion was rolled again so
often that the patience with it is used up. Patience is no part of what dice
mean. It makes the evaluator total, and where results are said to exist it is
an existential: some patience is enough, and so is every greater one.

An `Outcome` is what a node makes of its members' tosses, before it is put
together with the written form and the method into a toss. It keeps what is
computed apart from what is recorded: facts about values and formulas are
facts about outcomes.

Main statements: `evaluateMembers_cons`, the members of a pool one after the
other, and `rollWhile_succ`, one more roll of an exploding member.
-/

namespace Dice

/-- What an evaluation carries along. The draws and the tosses only grow, and
what is in them does not influence the evaluation. -/
structure Run (σ : Type) where
  /-- The state of the source. -/
  state : σ
  /-- The numbers asked of the source, oldest first. -/
  draws : Array Draw
  /-- The tosses, oldest first. -/
  tosses : Array Toss

namespace Run

variable {σ : Type}

/-- A run that starts with the given state of the source. -/
def start (state : σ) : Run σ := ⟨state, #[], #[]⟩

/-- Asks the source for a number from `low` to `high`, and keeps the question
together with the answer. -/
def draw (source : Source σ) (low high : Score) (run : Run σ) : Option (Score × Run σ) :=
  match source.between low high run.state with
  | none => none
  | some (answer, state) =>
    some (answer, { run with state := state, draws := run.draws.push ⟨low, high, answer⟩ })

/-- Leaves a toss behind. A node does so once, after the nodes inside have. -/
def record (run : Run σ) (toss : Toss) : Run σ :=
  { run with tosses := run.tosses.push toss }

end Run

/-! ## Outcomes of a node -/

/-- What a node makes of its members' tosses: a value, the formula for it, and
the details of its kind of node. -/
structure Outcome where
  value : Score
  operation : Text
  extensions : List (Text × Text)

namespace Outcome

/-- An outcome that is a single score. The formula is the score itself, as for a
die. -/
def ofScore (score : Score) : Outcome := ⟨score, score.text, []⟩

/-- The formula of a sum. The sum of nothing is written as zero, so that no
formula is empty. -/
def sumText : List Text → Text
  | [] => ['0']
  | terms => Text.join [' ', '+', ' '] terms

/-- The outcome of adding tosses up. Values add from the left and saturate; the
formula has the formula of each toss, in parentheses where that has parts. -/
def ofSum (tosses : List Toss) : Outcome :=
  ⟨.sum (tosses.map (·.value)), sumText (tosses.map Toss.groupedOperation), []⟩

/-- Scores one after the other, with commas between them. The details of a
selection are written in this way. -/
def listing (tosses : List Toss) : Text :=
  Text.join [',', ' '] (tosses.map fun toss => toss.value.text)

/-- The outcome of a selection of tosses, with what it kept and dropped. The
formula is that of the kept tosses only. -/
def ofSelection (rule : Selection) (threshold : Nat) (tosses : List Toss) : Outcome :=
  let kept := rule.kept threshold Toss.value tosses
  let dropped := rule.dropped threshold Toss.value tosses
  { ofSum kept with
    extensions := [("kept".toList, listing kept), ("dropped".toList, listing dropped)] }

/-- The outcome of combining a toss with a constant. The formula is that of the
toss with the symbol and the constant behind it. -/
def ofArithmetic (op : Operator) (operand : UInt32) (toss : Toss) : Outcome :=
  ⟨op.apply toss.value operand,
    toss.groupedOperation ++ ' ' :: op.symbol :: ' ' :: Text.ofNat operand.toNat, []⟩

/-- The sum of the tosses of one exploding member, as one term of a formula. A
member that was rolled once needs no parentheses for this. -/
def chainTerm (chain : List Toss) : Text :=
  match chain with
  | [toss] => toss.groupedOperation
  | tosses =>
    (Text.join [' ', '+', ' '] (tosses.map Toss.groupedOperation)).parenthesized

/-- The outcome of an explosion: the sums of its members' tosses, added up.
Every toss of a member after the first one counts as a reroll. -/
def ofChains (chains : List (List Toss)) : Outcome :=
  ⟨.sum (chains.map fun chain => .sum (chain.map (·.value))), sumText (chains.map chainTerm),
    [("rerolls".toList, Text.ofNat (chains.foldl (fun n chain => n + (chain.length - 1)) 0))]⟩

/-- The toss of a node with this outcome. Its context has the written form of
the node, the method, and the details of the outcome. -/
def toss (outcome : Outcome) (text : Text) (method : Method) : Toss :=
  { value := outcome.value
    operation := outcome.operation
    context := some <| outcome.extensions.foldl (fun context (key, value) =>
      context.insert key value) (.ofText text method) }

end Outcome

namespace Expr

variable {σ : Type}

/-- Ends the evaluation of a node: leaves its toss behind and gives it. Every
case of `evaluate` ends here. -/
def conclude (e : Expr) (method : Method) (outcome : Outcome) (run : Run σ) :
    Toss × Run σ :=
  let toss := outcome.toss e.text method
  (toss, run.record toss)

/-- Rolls again and again for as long as the last value asks for it, at most
`patience` times; gives the tosses, oldest first. -/
def rollWhile (again : Score → Bool) (roll : Run σ → Option (Toss × Run σ)) :
    Nat → List Toss → Run σ → Option (List Toss × Run σ)
  | 0, _, _ => none
  | patience + 1, earlier, run =>
    match roll run with
    | none => none
    | some (toss, run) =>
      if again toss.value then rollWhile again roll patience (toss :: earlier) run
      else some ((toss :: earlier).reverse, run)

/-- With patience left a member is rolled, and then the comparison decides
whether that was its last roll. -/
theorem rollWhile_succ (again : Score → Bool) (roll : Run σ → Option (Toss × Run σ))
    (patience : Nat) (earlier : List Toss) {run next : Run σ} {toss : Toss}
    (first : roll run = some (toss, next)) :
    rollWhile again roll (patience + 1) earlier run =
      if again toss.value then rollWhile again roll patience (toss :: earlier) next
      else some ((toss :: earlier).reverse, next) := by
  simp [rollWhile, first]

mutual

/-- Evaluates an expression: gives its toss, and the run after it. Members come
before their node and are evaluated by the same method. An explosion is asked
for its members only where its value depends on them. -/
def evaluate (source : Source σ) (patience : Nat) (method : Method) :
    Expr → Run σ → Option (Toss × Run σ)
  | die d, run =>
    match method with
    | .roll =>
      match run.draw source d.asked.1 d.asked.2 with
      | none => none
      | some (answer, run) => some ((die d).conclude method (.ofScore (d.face answer)) run)
    | .minimum => some ((die d).conclude method (.ofScore d.low) run)
    | .maximum => some ((die d).conclude method (.ofScore d.high) run)
  | pool members, run =>
    match evaluateMembers source patience method members [] run with
    | none => none
    | some (tosses, run) => some ((pool members).conclude method (.ofSum tosses) run)
  | arithmetic inner op operand, run =>
    match evaluate source patience method inner run with
    | none => none
    | some (toss, run) =>
      some ((arithmetic inner op operand).conclude method (.ofArithmetic op operand toss) run)
  | selection members rule threshold, run =>
    match evaluateMembers source patience method members [] run with
    | none => none
    | some (tosses, run) =>
      some ((selection members rule threshold).conclude method
        (.ofSelection rule threshold tosses) run)
  | explosion members c threshold, run =>
    match method with
    | .roll =>
      match explodeMembers source patience method c threshold members [] run with
      | none => none
      | some (chains, run) =>
        some ((explosion members c threshold).conclude method (.ofChains chains) run)
    | .minimum =>
      if Bounds.bottomless c threshold (memberBounds members []) then
        some ((explosion members c threshold).conclude method (.ofScore .lowest) run)
      else
        match evaluateMembers source patience method members [] run with
        | none => none
        | some (tosses, run) =>
          some ((explosion members c threshold).conclude method (.ofSum tosses) run)
    | .maximum => some ((explosion members c threshold).conclude method (.ofScore .highest) run)

/-- Evaluates members one after the other: gives their tosses after those that
came `earlier`, in reverse. -/
def evaluateMembers (source : Source σ) (patience : Nat) (method : Method) :
    List Expr → List Toss → Run σ → Option (List Toss × Run σ)
  | [], earlier, run => some (earlier.reverse, run)
  | m :: rest, earlier, run =>
    match evaluate source patience method m run with
    | none => none
    | some (toss, run) => evaluateMembers source patience method rest (toss :: earlier) run

/-- Rolls exploding members one after the other: gives the tosses of each,
after those that came `earlier`, in reverse. -/
def explodeMembers (source : Source σ) (patience : Nat) (method : Method) (c : Comparator)
    (threshold : Option Score) :
    List Expr → List (List Toss) → Run σ → Option (List (List Toss) × Run σ)
  | [], earlier, run => some (earlier.reverse, run)
  | m :: rest, earlier, run =>
    let limit := c.limit threshold m.bounds
    match rollWhile (c.holds · limit) (evaluate source patience method m) patience [] run with
    | none => none
    | some (chain, run) =>
      explodeMembers source patience method c threshold rest (chain :: earlier) run

end

/-- Without members there is nothing to evaluate, and nothing changes. -/
theorem evaluateMembers_nil (source : Source σ) (patience : Nat) (method : Method)
    (earlier : List Toss) (run : Run σ) :
    evaluateMembers source patience method [] earlier run = some (earlier.reverse, run) := by
  simp [evaluateMembers]

/-- The first member is evaluated, and the others in the run that it left.
Whatever is shown of the members of a node goes by this equation. -/
theorem evaluateMembers_cons (source : Source σ) (patience : Nat) (method : Method)
    (m : Expr) (rest : List Expr) (earlier : List Toss) (run : Run σ) :
    evaluateMembers source patience method (m :: rest) earlier run =
      (m.evaluate source patience method run).bind fun (toss, run) =>
        evaluateMembers source patience method rest (toss :: earlier) run := by
  rw [evaluateMembers]
  cases m.evaluate source patience method run <;> rfl

/-- Rolls an expression once. The run begins with the given state of the source
and nothing recorded. -/
def roll (e : Expr) (source : Source σ) (patience : Nat) (state : σ) :
    Option (Toss × Run σ) :=
  e.evaluate source patience .roll (.start state)

end Expr

end Dice
