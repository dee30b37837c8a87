import Dice.Operator
import Dice.Proofs.Score.Decimal

/-!
# Reading formulas

The formula of a toss is meant for people, but it has one reading. A formula
is a term, followed by further terms after ` + ` and constants after ` - `,
` * `, ` / ` or ` ^ `, all worked off from left to right; a term is an integer
or a formula in parentheses. Every step saturates on its own.

The reader knows nothing of expressions and tosses. It is a reading of plain
text, and is what the formula of a toss is checked against in
`Dice.Proofs.Operation`.

`Formula.read` goes through the text once, piece by piece, and remembers what
stands before each parenthesis that is still open. `IsTerm` and `IsFormula`
say what it makes of a text wherever that text stands, and there is one lemma
for each way to build a formula.

Main statement: `read_eq_of_isFormula`.
-/

namespace Dice

namespace Formula

/-! ## The reader -/

/-- A piece of a formula: what the reader takes in at once. A formula is read
piece by piece, from left to right, with no precedence among operators. -/
inductive Piece
  | opens
  | closes
  | integer (value : Score)
  /-- The sign of an addition, with the blanks around it. -/
  | plus
  /-- An operator with its constant. -/
  | constant (op : Operator) (operand : UInt32)

/-- The integer at the front of a text, and how many characters it takes. Its
sign is part of it. -/
def integer? (first : Char) (rest : Text) : Option (Piece × Nat) :=
  let numeral := first :: rest.takeWhile Char.isDigit
  if first = '-' || first.isDigit then
    match Score.read numeral with
    | .ok value => some (.integer value, numeral.length)
    | .error _ => none
  else none

/-- The operator at the front of a text whose constant begins after it, and how
many characters both take. -/
def constant? (symbol : Char) (text : Text) : Option (Piece × Nat) :=
  let digits := text.takeWhile Char.isDigit
  match Operator.ofSymbol? symbol, Score.read digits with
  | some op, .ok value =>
    if value.val < 4294967296 then
      some (.constant op (UInt32.ofNat value.val.toNat), 3 + digits.length)
    else none
  | _, _ => none

/-- The piece at the front of a text, and how many characters it takes. A blank
starts an operator, so that a minus sign without one is the sign of an integer. -/
def piece? (first : Char) (rest : Text) : Option (Piece × Nat) :=
  match first, rest with
  | '(', _ => some (.opens, 1)
  | ')', _ => some (.closes, 1)
  | ' ', '+' :: ' ' :: _ => some (.plus, 3)
  | ' ', symbol :: ' ' :: text => constant? symbol text
  | first, rest => integer? first rest

/-- How far a formula is read. Both hold what stands before each open
parenthesis, innermost first. -/
inductive State
  /-- A term comes next and is added to what stands before it. -/
  | term (before : Option Score) (outer : List (Option Score))
  /-- A term has ended, and everything in its parentheses so far has this value. -/
  | value (soFar : Score) (outer : List (Option Score))

/-- The value of one more term after what stands before it. The first term of a
formula has nothing before it. -/
def joined (before : Option Score) (term : Score) : Score :=
  match before with
  | none => term
  | some value => value + term

/-- Takes one piece in, if it may stand there: terms and operators take turns,
and a parenthesis closes only if one is open. -/
def step : Piece → State → Option State
  | .opens, .term before outer => some (.term none (before :: outer))
  | .closes, .value soFar (before :: outer) => some (.value (joined before soFar) outer)
  | .integer value, .term before outer => some (.value (joined before value) outer)
  | .plus, .value soFar outer => some (.term (some soFar) outer)
  | .constant op operand, .value soFar outer => some (.value (op.apply soFar operand) outer)
  | _, _ => none

/-- Reads on through a text, of which the next `skip` characters belong to the
piece before them. -/
def scan (skip : Nat) (state : State) : Text → Option State
  | [] => some state
  | first :: rest =>
    match skip with
    | skip + 1 => scan skip state rest
    | 0 =>
      match piece? first rest with
      | some (piece, width) =>
        match step piece state with
        | some state => scan (width - 1) state rest
        | none => none
      | none => none

/-- The value of a formula, if the text ends with a term and all parentheses
closed. -/
def read (text : Text) : Option Score :=
  match scan 0 (.term none []) text with
  | some (.value value []) => some value
  | _ => none

/-! ## Pieces where they are written -/

/-- A text that does not go on with a digit, so that an integer in front of it
ends there. -/
def Ends (rest : Text) : Prop := ∀ c ∈ rest.head?, c.isDigit = false

variable {outer : List (Option Score)} {before : Option Score} {soFar value term : Score}
  {rest text right : Text}

/-- The characters that belong to a piece are passed over. Their number was
found with the piece. -/
theorem scan_append_of_skip (taken : Text) (state : State) (rest : Text) :
    scan taken.length state (taken ++ rest) = scan 0 state rest := by
  induction taken with
  | nil => rfl
  | cons c taken ih => simpa [scan] using ih

theorem scan_opens : scan 0 (.term before outer) ('(' :: rest) =
    scan 0 (.term none (before :: outer)) rest := rfl

theorem scan_closes : scan 0 (.value soFar (before :: outer)) (')' :: rest) =
    scan 0 (.value (joined before soFar) outer) rest := rfl

theorem scan_plus : scan 0 (.value soFar outer) (' ' :: '+' :: ' ' :: rest) =
    scan 0 (.term (some soFar) outer) rest := rfl

/-- What starts with neither a parenthesis nor a blank is an integer. So the
three kinds of pieces exclude each other. -/
theorem piece?_of_ne {first : Char} (opens : first ≠ '(') (closes : first ≠ ')')
    (blank : first ≠ ' ') : piece? first rest = integer? first rest := by
  unfold piece?
  split
  next => exact absurd rfl opens
  next => exact absurd rfl closes
  next => exact absurd rfl blank
  next => exact absurd rfl blank
  next => rfl

/-- An integer is read where it is written. The text behind it must not go on
with digits, which is what `Ends` says. -/
theorem scan_integer (value : Score) (ends : Ends rest) :
    scan 0 (.term before outer) (value.text ++ rest) =
      scan 0 (.value (joined before value) outer) rest := by
  obtain ⟨first, tail, whole, start, all⟩ := value.text_eq_cons
  obtain ⟨opens, closes, blank⟩ : first ≠ '(' ∧ first ≠ ')' ∧ first ≠ ' ' := by
    rcases Bool.or_eq_true_iff.1 start with minus | digit
    · rw [of_decide_eq_true minus]
      decide
    · have apart : ∀ c, c.isDigit = true → c ≠ '(' ∧ c ≠ ')' ∧ c ≠ ' ' :=
        Text.forall_isDigit (by decide)
      exact apart first digit
  have read : Score.read (first :: tail) = .ok value := whole ▸ Score.read_text value
  have integer : integer? first (tail ++ rest) = some (.integer value, tail.length + 1) := by
    simp only [integer?, start, if_true, Text.takeWhile_digits all ends, read, List.length_cons]
  rw [whole, List.cons_append, scan, piece?_of_ne opens closes blank, integer]
  exact scan_append_of_skip tail _ rest

/-- An operator with its constant, as a formula has it. The blanks tell it from
the sign of an integer. -/
def constantText (op : Operator) (operand : UInt32) : Text :=
  ' ' :: op.symbol :: ' ' :: Text.ofNat operand.toNat

/-- An operator that is written with its constant is found with it. -/
theorem constant?_symbol (op : Operator) (operand : UInt32) (ends : Ends rest) :
    constant? op.symbol (Text.ofNat operand.toNat ++ rest) =
      some (.constant op operand, 3 + (Text.ofNat operand.toNat).length) := by
  have fits := operand.toNat_lt
  have digits : (Text.ofNat operand.toNat ++ rest).takeWhile Char.isDigit =
      Text.ofNat operand.toNat :=
    Text.takeWhile_digits (fun c hc => Text.isDigit_of_mem_ofNat hc) ends
  have value := Score.val_clamp_operand operand
  have read : Score.read (Text.ofNat operand.toNat) = .ok (.clamp operand.toNat) :=
    Score.read_ofNat (by simp only [Score.highest]; omega)
  simp only [constant?, digits, Operator.ofSymbol?_symbol, read, value, Int.toNat_natCast,
    UInt32.ofNat_toNat]
  rw [if_pos (by omega)]

/-- An operator works on everything before it, up to the parenthesis that is
open. Evaluations put a text in parentheses where that would be wrong. -/
theorem scan_constant (op : Operator) (operand : UInt32) (ends : Ends rest) :
    scan 0 (.value soFar outer) (constantText op operand ++ rest) =
      scan 0 (.value (op.apply soFar operand) outer) rest := by
  by_cases add : op = .add
  · -- this reads as a term added, and the constant is the same as a score
    subst add
    have value := Score.val_clamp_operand operand
    have digits : Text.ofNat operand.toNat = (Score.clamp operand.toNat).text := by
      rw [Score.text_of_nonneg (Score.nonneg_clamp _), value, Int.natAbs_natCast]
    have sum : soFar + .clamp operand.toNat = Operator.add.apply soFar operand := by
      apply Score.ext_val
      rw [Score.val_add, value]
      rfl
    have term : scan 0 (.term (some soFar) outer) ((Score.clamp operand.toNat).text ++ rest) =
        scan 0 (.value (soFar + .clamp operand.toNat) outer) rest :=
      scan_integer (.clamp operand.toNat) ends
    rw [sum, ← digits] at term
    exact scan_plus.trans term
  -- any other symbol is found behind its blank
  · have front : ∀ text, piece? ' ' (op.symbol :: ' ' :: text) = constant? op.symbol text := by
      intro text
      cases op with
      | add => exact absurd rfl add
      | _ => rfl
    have skip := scan_append_of_skip (op.symbol :: ' ' :: Text.ofNat operand.toNat)
      (.value (op.apply soFar operand) outer) rest
    have width : 3 + (Text.ofNat operand.toNat).length - 1 =
      (op.symbol :: ' ' :: Text.ofNat operand.toNat).length := by simp; omega
    simp only [constantText, List.cons_append] at skip ⊢
    rw [scan, front, constant?_symbol op operand ends]
    simp only [step, width]
    exact skip

/-! ## Building formulas -/

/-- A text that is read as a term with the given value, wherever it stands.
Terms are what sums are made of. -/
def IsTerm (text : Text) (value : Score) : Prop :=
  ∀ before outer rest, Ends rest →
    scan 0 (.term before outer) (text ++ rest) = scan 0 (.value (joined before value) outer) rest

/-- A text that is read as a formula with the given value, wherever a formula
may begin: at the front or behind an opening parenthesis. -/
def IsFormula (text : Text) (value : Score) : Prop :=
  ∀ outer rest, Ends rest →
    scan 0 (.term none outer) (text ++ rest) = scan 0 (.value value outer) rest

theorem IsTerm.isFormula (isTerm : IsTerm text value) : IsFormula text value :=
  fun outer rest ends => isTerm none outer rest ends

/-- The text of a score is a term with that value. A minus sign in front is part
of it. -/
theorem isTerm_text (value : Score) : IsTerm value.text value :=
  fun _ _ _ ends => scan_integer value ends

/-- Parentheses make a term of a formula. What is outside of them is kept until
they close. -/
theorem IsFormula.isTerm_parenthesized (formula : IsFormula text value) :
    IsTerm text.parenthesized value := by
  intro before outer rest ends
  have closing : Ends (')' :: rest) := by simp [Ends]
  have shape : text.parenthesized ++ rest = '(' :: (text ++ ')' :: rest) := by
    simp [Text.parenthesized]
  rw [shape, scan_opens, formula _ _ closing, scan_closes]

/-- One more term is added to a formula. The sum saturates as scores do. -/
theorem IsFormula.plus (formula : IsFormula text value) (isTerm : IsTerm right term) :
    IsFormula (text ++ [' ', '+', ' '] ++ right) (value + term) := by
  intro outer rest ends
  have blank : Ends (' ' :: '+' :: ' ' :: (right ++ rest)) := by simp [Ends]
  have shape : text ++ [' ', '+', ' '] ++ right ++ rest =
      text ++ ' ' :: '+' :: ' ' :: (right ++ rest) := by simp
  rw [shape, formula _ _ blank, scan_plus, isTerm _ _ _ ends]
  rfl

/-- One more operator works on the value of a formula. It applies to all that is
before it, as formulas know no precedence. -/
theorem IsFormula.constant (formula : IsFormula text value) (op : Operator) (operand : UInt32) :
    IsFormula (text ++ constantText op operand) (op.apply value operand) := by
  intro outer rest ends
  have blank : Ends (constantText op operand ++ rest) := by simp [Ends, constantText]
  rw [List.append_assoc, formula _ _ blank, scan_constant op operand ends]

/-- **A text that builds up as a formula has that value.** The reader knows
nothing of expressions; it goes by the text alone. -/
theorem read_eq_of_isFormula (formula : IsFormula text value) : read text = some value := by
  have whole := formula [] [] (by simp [Ends])
  rw [List.append_nil] at whole
  rw [read, whole]
  rfl

example : read "(2 + -3) * 4 + 1".toList = some (.clamp (-3)) := by decide

end Formula

end Dice
