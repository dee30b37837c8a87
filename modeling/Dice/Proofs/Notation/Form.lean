import Dice.Notation.Grammar
import Dice.Proofs.Notation.Tokens

/-!
# The forms of a segment

A segment that begins with dice has a form: a quantity, the letter of a die, a
size, a modifier and at most two operators, of which only the letter must be
there. A form has tokens, and it has an expression if all of its numbers are
accepted. Nothing here reads anything: the tokens are those that are written
for the parts, one after the other, and the expression is what the
constructors make of the parts.

A minus sign right after a comparator could begin an operator as well as a
threshold. It begins a threshold, so a form has no operator that would be
taken for one.

What is written for an expression is one of its forms: there the faces have no
comma after the last one, and a threshold of a selection is never left out.

Main statements: `SegmentForm.tokens_written` and `SegmentForm.expr?_written`.
-/

namespace Dice.Notation

variable {d : Die} {operators : List (Operator × UInt32)}

/-- What a number of dice stands for, unless it is past the limit. The number
zero stands for a single die as well. -/
def dice? (quantity : Nat) (d : Die) : Option Expr :=
  if (quantity : Int) ≤ quantityLimit then some (.copies (.die d) quantity) else none

/-- A number past all scores is past the limit as well, so it may be read as the
greatest score. -/
theorem dice?_clamp (quantity : Nat) (d : Die) :
    dice? (Score.clamp quantity).val.toNat d = dice? quantity d := by
  unfold dice?
  by_cases fits : (quantity : Int) ≤ Score.highest.val
  · rw [Score.toNat_clamp fits]
  · rw [if_neg, if_neg]
    · simp only [Score.highest] at fits
      simp only [quantityLimit]
      omega
    · simp only [Score.highest] at fits
      simp only [quantityLimit, Score.val_clamp, Score.lowest, Score.highest]
      omega

/-- What a modifier makes of an expression, unless it is refused. Why it is
refused is left out. -/
def Modifier.applied : Modifier → Expr → Option Expr
  | selection rule threshold, e => (e.select rule threshold).toOption
  | explosion c threshold, e => (e.explode c threshold).toOption

/-- An expression after a modifier, if there is one. Without one it stays as it
is. -/
def modify? : Option Modifier → Expr → Option Expr
  | none, e => some e
  | some m, e => m.applied e

@[simp] theorem modify?_none : modify? none = some := rfl

@[simp] theorem modify?_some (m : Modifier) : modify? (some m) = m.applied := rfl

/-- An expression after operators with their constants, unless one of them is
refused. The first operator is applied first. -/
def operate? (e : Expr) : List (Operator × UInt32) → Option Expr
  | [] => some e
  | (op, operand) :: rest => (e.apply op operand).toOption.bind (operate? · rest)

/-- Operators behind others are applied to what those have made. So a chain of
them can be taken apart anywhere. -/
theorem operate?_append (e : Expr) (operators more : List (Operator × UInt32)) :
    operate? e (operators ++ more) = (operate? e operators).bind (operate? · more) := by
  induction operators generalizing e with
  | nil => rfl
  | cons first rest ih =>
    rw [List.cons_append, operate?, operate?, Option.bind_assoc]
    exact congrArg _ (funext fun e => ih e)

/-! ## Numbers -/

/-- A number with or without a minus sign, as faces and thresholds have them.
Zero may have a minus sign as well. -/
inductive SignedForm
  | plain (magnitude : Score)
  | minus (magnitude : Score)

namespace SignedForm

/-- The tokens of a signed number. -/
def tokens : SignedForm → List Token
  | plain magnitude => [.number magnitude]
  | minus magnitude => [.operator .subtract, .number magnitude]

/-- The score that a signed number stands for. The magnitudes that are read are
never negative. -/
def value : SignedForm → Score
  | plain magnitude => magnitude
  | minus magnitude => .clamp (-magnitude.val)

/-- A score as it is written. -/
def written (a : Score) : SignedForm := if a.val < 0 then .minus (.clamp (-a.val)) else .plain a

@[simp] theorem tokens_written (a : Score) : (written a).tokens = scoreTokens a := by
  unfold written scoreTokens
  split <;> rfl

/-- A score that can be written stands for itself. The least score would need a
magnitude that is no score. -/
theorem value_written {a : Score} (ne : a ≠ .lowest) : (written a).value = a := by
  unfold written
  split
  next => exact Score.clamp_neg_clamp_neg ne
  next => rfl

end SignedForm

/-! ## Sizes -/

/-- The tokens after a face of a list: more faces with a comma in front of each,
and then one more comma if there is a `trailing` one. -/
def moreFaceTokens (trailing : Bool) : List SignedForm → List Token
  | [] => if trailing then [.comma] else []
  | face :: rest => .comma :: (face.tokens ++ moreFaceTokens trailing rest)

/-- The tokens of a list of faces between its brackets. There may be none, and
then there is no comma either. -/
def listedFaceTokens (trailing : Bool) : List SignedForm → List Token
  | [] => []
  | face :: rest => face.tokens ++ moreFaceTokens trailing rest

/-- What can follow the letter of a die. If nothing does, the die has six sides,
and there is no form for that. -/
inductive SizeForm
  /-- A number of sides. -/
  | sides (count : Score)
  /-- The letter `f`. -/
  | fudge
  /-- The percent sign. -/
  | percent
  /-- Faces in brackets. The last one may have a comma after it. -/
  | faces (listed : List SignedForm) (trailing : Bool)

namespace SizeForm

/-- The tokens of a size. -/
def tokens : SizeForm → List Token
  | sides count => [.number count]
  | fudge => [.fudge]
  | percent => [.percent]
  | faces listed trailing => .leftBracket :: (listedFaceTokens trailing listed ++ [.rightBracket])

/-- The die of a size, unless it would have fewer than two sides or faces. A
comma behind the faces makes no difference. -/
def die? : SizeForm → Option Die
  | sides count => (Die.ofSides count).toOption
  | fudge => some .fudge
  | percent => some .percentile
  | faces listed _ => (Die.ofFaces (listed.map SignedForm.value)).toOption

/-- The size of a die as it is written. -/
def written : Die → SizeForm
  | .sided count _ => .sides count
  | .fudge => .fudge
  | .percentile => .percent
  | .custom values _ => .faces (values.map SignedForm.written) false

/-- Faces are written without a comma after the last one. Otherwise the tokens
of a form are those that are written. -/
theorem listedFaceTokens_written (faces : List Score) :
    listedFaceTokens false (faces.map SignedForm.written) = faceTokens faces := by
  have more : ∀ a rest, scoreTokens a ++ moreFaceTokens false (rest.map SignedForm.written) =
      faceTokens (a :: rest) := by
    intro a rest
    induction rest generalizing a with
    | nil => exact List.append_nil _
    | cons next rest ih => simp [moreFaceTokens, faceTokens, ih]
  cases faces with
  | nil => rfl
  | cons a rest => simp [listedFaceTokens, more]

/-- The letter and the size as it is written are the tokens of a die. -/
theorem tokens_written (d : Die) : .dice :: (written d).tokens = dieTokens d := by
  cases d with
  | sided | fudge | percentile => rfl
  | custom faces atLeastTwo => simp [written, tokens, dieTokens, listedFaceTokens_written]

/-- The size that is written for a die is accepted as it, if all of its faces
can be written. -/
theorem die?_written (legible : LegibleDie d) : (written d).die? = some d := by
  cases d with
  | sided count atLeastTwo => simp [written, die?, Die.ofSides, atLeastTwo, Except.toOption]
  | fudge | percentile => rfl
  | custom faces atLeastTwo =>
    have same : (faces.map SignedForm.written).map SignedForm.value = faces := by
      rw [List.map_map]
      exact (List.map_congr_left fun a ha => SignedForm.value_written (legible a ha)).trans
        (List.map_id faces)
    simp only [written, die?, same]
    simp [Die.ofFaces, atLeastTwo, Except.toOption]

end SizeForm

/-! ## Modifiers -/

/-- What can follow dice before their operators. Unlike a `Modifier` it says how
that is written. -/
inductive ModifierForm
  /-- The letters of a rule. -/
  | selection (rule : Selection) (threshold : Option Score)
  /-- The mark of an explosion without a comparator. -/
  | explosion (threshold : Option Score)
  /-- The mark of an explosion with a comparator. Only then the threshold may have a sign. -/
  | comparison (c : Comparator) (threshold : Option SignedForm)

namespace ModifierForm

/-- The tokens of a modifier. -/
def tokens : ModifierForm → List Token
  | selection rule threshold => .selection rule :: (threshold.map Token.number).toList
  | explosion threshold => .explode :: (threshold.map Token.number).toList
  | comparison c threshold =>
    .explode :: .comparator c :: (threshold.elim [] SignedForm.tokens)

/-- What a modifier makes of an expression, unless it is refused. A selection
without a threshold is of one result, and an explosion without a comparator asks
for equality. -/
def applied : ModifierForm → Expr → Option Expr
  | selection rule threshold, e =>
    (e.select rule (threshold.elim 1 fun count => count.val.toNat)).toOption
  | explosion threshold, e => (e.explode .equals threshold).toOption
  | comparison c threshold, e => (e.explode c (threshold.map SignedForm.value)).toOption

/-- A modifier as it is written: only the mark stands for equality without a
threshold, and every other comparison has its comparator. -/
def written : Modifier → ModifierForm
  | .selection rule threshold => .selection rule (some (.clamp threshold))
  | .explosion .equals none => .explosion none
  | .explosion c threshold => .comparison c (threshold.map SignedForm.written)

theorem tokens_written (m : Modifier) : (written m).tokens = m.tokens := by
  cases m with
  | selection rule threshold => rfl
  | explosion c threshold =>
    cases threshold <;> cases c <;> simp [written, tokens, Modifier.tokens, conditionTokens]

/-- A modifier as it is written does what it did, if its numbers can be written.
-/
theorem applied_written {m : Modifier} (legible : m.Legible) :
    (written m).applied = m.applied := by
  cases m with
  | selection rule threshold =>
    funext e
    simp [written, applied, Modifier.applied, Score.toNat_clamp legible]
  | explosion c threshold =>
    cases threshold with
    | none => cases c <;> rfl
    | some score =>
      have ne : score ≠ .lowest := fun same => legible (by rw [same])
      have value := SignedForm.value_written ne
      cases c <;> (funext e; simp [written, applied, Modifier.applied, value])

variable {m : Option Modifier}

theorem elim_tokens_written :
    (m.map written).elim [] ModifierForm.tokens = modifierTokens m := by
  cases m with
  | none => rfl
  | some m => exact tokens_written m

theorem elim_applied_written (legible : ∀ x ∈ m, x.Legible) (e : Expr) :
    (m.map written).elim (some e) (·.applied e) = modify? m e := by
  cases m with
  | none => rfl
  | some m => exact congrFun (applied_written (legible m rfl)) e

theorem bare_of_written {m : Modifier} {c : Comparator} (same : written m = .comparison c none) :
    m.Bare := by
  cases m with
  | selection rule threshold => cases same
  | explosion c threshold => cases threshold <;> cases c <;> simp [written, Modifier.Bare] at same ⊢

/-- A written modifier takes no operator for the sign of its threshold. A bare
one has no operator behind it. -/
theorem unmistaken_written (bare : ∀ x ∈ m, x.Bare → operators = []) (c : Comparator)
    (same : m.map written = some (.comparison c none)) :
    operators.head?.map (·.1) ≠ some .subtract := by
  obtain ⟨x, some, same⟩ := Option.map_eq_some_iff.1 same
  rw [bare x some (bare_of_written same)]
  simp

end ModifierForm

/-! ## Segments -/

/-- The form of a segment that begins with dice. The constants of the operators
are of the range that is allowed for them. -/
structure SegmentForm where
  quantity : Option Score
  size : Option SizeForm
  modifier : Option ModifierForm
  operators : List (Operator × UInt32)
  few : operators.length ≤ 2
  /-- A minus sign right after a comparator begins its threshold. -/
  unmistaken : ∀ c, modifier = some (.comparison c none) →
    operators.head?.map (·.1) ≠ some .subtract

namespace SegmentForm

variable (form : SegmentForm)

/-- The tokens in front of the modifier. -/
def diceTokens : List Token :=
  (form.quantity.map Token.number).toList ++ .dice :: form.size.elim [] SizeForm.tokens

/-- The tokens of a segment. -/
def tokens : List Token :=
  form.diceTokens ++ (form.modifier.elim [] ModifierForm.tokens ++ operatorTokens form.operators)

/-- The dice of a segment, unless there are too many or their size is refused: a
single die is meant by no quantity, and by a quantity of zero. -/
def dice? : Option Expr :=
  (form.size.elim (some Die.sixSided) SizeForm.die?).bind
    (Notation.dice? (form.quantity.getD 1).val.toNat)

/-- The expression of a segment, unless a part of it is refused: the dice under
the modifier under the operators, the first operator inside. -/
def expr? : Option Expr :=
  (form.dice?.bind fun e => form.modifier.elim (some e) (·.applied e)).bind
    (operate? · form.operators)

/-- A segment as it is written: a single die has no number in front of it, and
all dice have a size. -/
def written (quantity : Nat) (d : Die) (m : Option Modifier)
    (operators : List (Operator × UInt32)) (few : operators.length ≤ 2)
    (bare : ∀ x ∈ m, x.Bare → operators = []) : SegmentForm where
  quantity := if quantity = 1 then none else some (.clamp quantity)
  size := some (.written d)
  modifier := m.map .written
  operators := operators
  few := few
  unmistaken := ModifierForm.unmistaken_written bare

variable {m : Option Modifier} (few : operators.length ≤ 2)
  (bare : ∀ x ∈ m, x.Bare → operators = []) (quantity : Nat)

/-- The form that is written has the tokens of its parts, one after the other. -/
theorem tokens_written : (written quantity d m operators few bare).tokens =
    Notation.diceTokens quantity d ++ (modifierTokens m ++ operatorTokens operators) := by
  have front : (written quantity d m operators few bare).diceTokens =
      Notation.diceTokens quantity d := by
    simp only [diceTokens, written, Notation.diceTokens, quantityTokens, Option.elim_some,
      SizeForm.tokens_written]
    split <;> rfl
  have back : (written quantity d m operators few bare).modifier.elim [] ModifierForm.tokens =
      modifierTokens m := ModifierForm.elim_tokens_written
  rw [tokens, front, back]
  rfl

variable {few bare} in
/-- The form that is written has the expression that it was written for, or none
if a constructor refuses a part of it. -/
theorem expr?_written (legibleDie : LegibleDie d) (legible : ∀ x ∈ m, x.Legible) :
    (written quantity d m operators few bare).expr? =
      ((Notation.dice? quantity d).bind (modify? m)).bind (operate? · operators) := by
  have counted : (written quantity d m operators few bare).dice? = Notation.dice? quantity d := by
    simp only [dice?, written, Option.elim_some, SizeForm.die?_written legibleDie,
      Option.bind_some]
    split
    next single => rw [single]; rfl
    next => exact dice?_clamp quantity d
  have modified : (fun e => (m.map ModifierForm.written).elim (some e) (·.applied e)) =
      modify? m := funext fun e => ModifierForm.elim_applied_written legible e
  rw [expr?, counted, ← modified]
  rfl

end SegmentForm

end Dice.Notation
