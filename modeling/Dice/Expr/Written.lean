import Dice.Expr

/-!
# The written form of expressions

An expression is written in the notation that it can be read from. Equal dice
of a pool are counted at the place of the first of them, but a pool under a
selection or an explosion lists its members one by one unless it is nothing
but copies of one die, since the members themselves matter there. Parentheses
stand where the notation would be read in another way without them.

When a member is put into parentheses is decided by its text: one that has a
plus sign outside of parentheses would be taken for several. The operand of
arithmetic is treated likewise, and also if its text ends with a comparator,
behind which a minus sign would begin a threshold, or if it has two operators
already, behind which there is no room for a third.

The written form is built in one pass, with the texts of the members carried
along; `memberTexts_eq` says that they are the texts of the members. How the
form looks for each kind of node is the subject of later modules.

Main statements: `memberTexts_eq`, and `text_arithmetic`, which says when the
inner text of arithmetic is put into parentheses.
-/

namespace Dice

namespace Text

/-- Whether the text has a plus sign outside of parentheses, `depth` of which
are open. A closing parenthesis that closes nothing is passed over. -/
def hasOuterPlus (depth : Nat) : Text → Bool
  | [] => false
  | '(' :: rest => hasOuterPlus (depth + 1) rest
  | ')' :: rest => hasOuterPlus (depth - 1) rest
  | '+' :: rest => depth == 0 || hasOuterPlus depth rest
  | _ :: rest => hasOuterPlus depth rest

/-- The text, in parentheses if it has an outer plus sign. In parentheses it
cannot fall apart in a sum. -/
def grouped (text : Text) : Text :=
  if text.hasOuterPlus 0 then text.parenthesized else text

/-- Whether the text ends with the symbol of a comparator. A minus sign behind
such a text would be taken for the sign of a threshold. -/
def endsWithComparator (text : Text) : Bool :=
  match text.getLast? with
  | some c => (Comparator.ofSymbol? c).isSome
  | none => false

end Text

namespace Expr

/-- A summand of a written pool: a member's text and how often it is counted.
Only bare dice are counted more than once. -/
structure Summand where
  text : Text
  die : Bool
  count : Nat

/-- Whether a summand is the bare die with the given text. -/
def Summand.isDie (text : Text) (s : Summand) : Bool := s.die && s.text == text

/-- The summands, last one first, after one more member with the given text. A
bare die that stands among them already is counted there. -/
def addSummand (summands : List Summand) (text : Text) (die : Bool) : List Summand :=
  if die && summands.any (Summand.isDie text) then
    -- it is written where it stood first
    summands.map fun s => if s.isDie text then { s with count := s.count + 1 } else s
  else ⟨text, die, 1⟩ :: summands

/-- A summand as it is written, with its count in front if it is not 1. Only
bare dice are ever counted. -/
def Summand.written (s : Summand) : Text :=
  if s.count = 1 then s.text else Text.ofNat s.count ++ s.text

/-- The written form of a pool with the given members, whose grouped texts are
`texts`. -/
def poolText (members : List Expr) (texts : List Text) : Text :=
  match members with
  | [] => ['0']
  | _ =>
    let summands :=
      (members.zip texts).foldl (fun sums (m, text) => addSummand sums text m.isDie) []
    Text.join ['+'] (summands.reverse.map Summand.written)

/-- The members of a pool one by one, whose grouped texts are `texts`. The sum
of nothing is written as zero. -/
def listedText : List Text → Text
  | [] => ['0']
  | texts => Text.join ['+'] texts

/-- The written form of a pool under a selection or an explosion. Like dice go
without parentheses, as in four dice of which three count. -/
def modifiedText (members : List Expr) (texts : List Text) : Text :=
  if uniform members then poolText members texts else (listedText texts).parenthesized

/-- Whether an expression already has two operators after it. A segment has no
room for a third one. -/
def chained : Expr → Bool
  | arithmetic (arithmetic _ _ _) _ _ => true
  | _ => false

/-- The inner text of arithmetic, in parentheses if the operator would be read
as part of something else. -/
def operandText (inner : Expr) (text : Text) : Text :=
  if inner.chained || text.endsWithComparator || text.hasOuterPlus 0 then text.parenthesized
  else text

/-- What is written after the mark of an explosion. The comparison with the
highest result is the usual one and is not written. -/
def conditionText (c : Comparator) (threshold : Option Score) : Text :=
  match c, threshold with
  | .equals, none => []
  | c, none => [c.symbol]
  | c, some score => c.symbol :: score.text

mutual

/-- The written form of an expression. It is made to be read again as the same
expression, up to the order of sums. -/
def text : Expr → Text
  | die d => d.text
  | pool members => poolText members (memberTexts members [])
  | arithmetic inner op operand =>
    operandText inner (text inner) ++ op.symbol :: Text.ofNat operand.toNat
  | selection members rule threshold =>
    modifiedText members (memberTexts members []) ++ rule.text ++ Text.ofNat threshold
  | explosion members c threshold =>
    modifiedText members (memberTexts members []) ++ '!' :: conditionText c threshold

/-- The grouped text of each member, after those already `seen` in reverse. -/
def memberTexts : List Expr → List Text → List Text
  | [], seen => seen.reverse
  | m :: rest, seen => memberTexts rest ((text m).grouped :: seen)

end

/-- The texts of the members, in their order and grouped: the list that is
carried along is put back in front. -/
@[simp] theorem memberTexts_eq (members : List Expr) (seen : List Text) :
    memberTexts members seen = seen.reverse ++ members.map (fun m => m.text.grouped) := by
  induction members generalizing seen with
  | nil => simp [memberTexts]
  | cons m rest ih => simp [memberTexts, ih]

/-- Arithmetic is the text of what is inside, grouped where it has to be, the
symbol and the constant. -/
theorem text_arithmetic (inner : Expr) (op : Operator) (operand : UInt32) :
    (arithmetic inner op operand).text =
      operandText inner inner.text ++ op.symbol :: Text.ofNat operand.toNat := by
  simp [text]

/-- The written form of an expression as a string. -/
def toString (e : Expr) : String := String.ofList e.text

instance : ToString Expr := ⟨Expr.toString⟩

end Expr

end Dice
