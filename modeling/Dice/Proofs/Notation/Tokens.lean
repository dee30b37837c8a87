import Dice.Proofs.Notation.Balanced
import Dice.Proofs.Notation.Spelling

/-!
# The tokens of written parts

A segment is written as dice or a part in parentheses, at most one modifier
and some operators. Each of these has tokens that spell it, in which no number
follows another. Only the last part of a token list can be a number at the
front of the next one, and none of the parts behind dice begins with a number.

Scores other than the least one have tokens. The digits of the least one are
no score, since the minus sign is a token of its own.

For each part there are its tokens, what is written for it, and a lemma for
each of the two things that are asked of them: that they can be read again
(`Spelled`), and that spelling them gives the text. Parts are then put
together by `Spelled.append`, which asks for no number at the front of the
second part (`Detached`).

Main statements: one `spelled_` and one `spelling_` lemma for each part.
-/

namespace Dice

namespace Notation

variable {a b : List Token} {token : Token}

/-- Whether a list of tokens can be written down and read again. Two numbers
side by side would be read as one. -/
structure Spelled (tokens : List Token) : Prop where
  spellable : ∀ token ∈ tokens, token.Spellable
  apart : Apart tokens

/-- Whether tokens can stand behind a number: they do not begin with one. An
empty list can stand everywhere. -/
def Detached (tokens : List Token) : Prop := ∀ token ∈ tokens.head?, token.isNumber = false

theorem spelled_nil : Spelled [] := ⟨by simp, .nil⟩

/-- Two lists that can be written can be written one after the other, if the
second may stand behind a number. -/
theorem Spelled.append (ha : Spelled a) (hb : Spelled b) (start : Detached b) :
    Spelled (a ++ b) := by
  refine ⟨fun t ht => ?_, List.isChain_append.2 ⟨ha.apart, hb.apart, fun _ _ y hy _ => start y hy⟩⟩
  rcases List.mem_append.1 ht with ht | ht
  · exact ha.spellable t ht
  · exact hb.spellable t ht

/-- A token that is no number may stand in front of everything. It ends where it
ends, whatever comes next. -/
theorem Spelled.cons (hb : Spelled b) (spellable : token.Spellable)
    (other : token.isNumber = false) : Spelled (token :: b) := by
  refine ⟨List.forall_mem_cons.2 ⟨spellable, hb.spellable⟩, List.isChain_cons.2 ⟨?_, hb.apart⟩⟩
  intro y _ number
  rw [other] at number
  cases number

theorem spelled_number {value : Score} (nonneg : 0 ≤ value.val) : Spelled [.number value] :=
  ⟨by simpa [Token.Spellable] using nonneg, List.isChain_singleton _⟩

/-! ## Characters -/

/-- Whether there is no blank in a text. -/
def Solid (text : Text) : Prop := ∀ c ∈ text, Text.isBlank c = false

theorem Solid.append {a b : Text} (ha : Solid a) (hb : Solid b) : Solid (a ++ b) := fun c hc =>
  (List.mem_append.1 hc).elim (ha c) (hb c)

theorem solid_spellings (tokens : List Token) : Solid (tokens.flatMap Token.spelling) := by
  intro c hc
  obtain ⟨token, -, mem⟩ := List.mem_flatMap.1 hc
  exact (token.of_mem_spelling c mem).1

theorem plain_spellings (tokens : List Token) :
    ∀ c ∈ tokens.flatMap Token.spelling, c ≠ '(' ∧ c ≠ ')' := by
  intro c hc
  obtain ⟨token, -, mem⟩ := List.mem_flatMap.1 hc
  exact ⟨(token.of_mem_spelling c mem).2.1, (token.of_mem_spelling c mem).2.2.1⟩

/-- There are no parentheses among tokens, so what they spell is balanced.
Readers meet parentheses before there are tokens. -/
theorem balanced_spellings (tokens : List Token) :
    Text.Balanced (tokens.flatMap Token.spelling) := Text.balanced_of_plain (plain_spellings tokens)

/-- Tokens without the plus sign are not cut. What they spell is one segment
wherever it stands between plus signs. -/
theorem uncut_spellings {tokens : List Token} (other : .operator .add ∉ tokens) :
    Uncut (tokens.flatMap Token.spelling) := by
  refine ⟨balanced_spellings tokens, Text.hasOuterPlus_of_forall_ne 0 fun c hc plus => ?_⟩
  obtain ⟨token, ht, mem⟩ := List.mem_flatMap.1 hc
  exact other ((token.of_mem_spelling c mem).2.2.2 plus ▸ ht)

/-! ## Scores and faces -/

/-- A score with the minus sign as a token of its own. Numbers are read without
a sign, so the token has the magnitude. -/
def scoreTokens (a : Score) : List Token :=
  if a.val < 0 then [.operator .subtract, .number (.clamp (-a.val))] else [.number a]

theorem spelled_scoreTokens (a : Score) : Spelled (scoreTokens a) := by
  unfold scoreTokens
  split
  next h =>
    refine (spelled_number ?_).cons trivial rfl
    simp only [Score.val_clamp, Score.lowest, Score.highest]
    omega
  next h => exact spelled_number (by omega)

/-- The tokens of a score spell it. The least one is left out, as its digits are
past the range. -/
theorem spelling_scoreTokens {a : Score} (ne : a ≠ .lowest) :
    (scoreTokens a).flatMap Token.spelling = a.text := by
  unfold scoreTokens Score.text
  split
  next h =>
    have above : a.val ≠ -9223372036854775808 := fun same => ne (Score.ext_val same)
    have low := a.lowest_le
    have exact : (Score.clamp (-a.val)).val = -a.val :=
      Score.val_clamp_of_mem (by omega) (by omega)
    simp [Token.spelling, Operator.symbol, exact]
  next => simp [Token.spelling]

/-- Faces with commas between them. -/
def faceTokens : List Score → List Token
  | [] => []
  | [a] => scoreTokens a
  | a :: next :: rest => scoreTokens a ++ .comma :: faceTokens (next :: rest)

theorem spelled_faceTokens (faces : List Score) : Spelled (faceTokens faces) := by
  induction faces with
  | nil => exact spelled_nil
  | cons a rest ih =>
    cases rest with
    | nil => exact spelled_scoreTokens a
    | cons next rest =>
      exact (spelled_scoreTokens a).append (ih.cons trivial rfl)
        (by simp [Detached, Token.isNumber])

/-- The tokens of faces spell them with commas in between. Only the least score
has a magnitude that no token can hold. -/
theorem spelling_faceTokens {faces : List Score} (ne : ∀ a ∈ faces, a ≠ .lowest) :
    (faceTokens faces).flatMap Token.spelling = Text.join [','] (faces.map Score.text) := by
  induction faces with
  | nil => rfl
  | cons a rest ih =>
    have head := spelling_scoreTokens (ne a (by simp))
    cases rest with
    | nil => simpa [faceTokens] using head
    | cons next rest =>
      have tail := ih fun x hx => ne x (by simp [hx])
      rw [faceTokens, List.flatMap_append, List.flatMap_cons, head, tail, List.map_cons,
        List.map_cons, List.map_cons, Text.join_cons_cons]
      simp [Token.spelling]

/-! ## Dice -/

/-- The tokens of a die: its letter, and its size behind it. A written die
always has its size. -/
def dieTokens : Die → List Token
  | .sided sides _ => [.dice, .number sides]
  | .fudge => [.dice, .fudge]
  | .percentile => [.dice, .percent]
  | .custom faces _ => .dice :: .leftBracket :: (faceTokens faces ++ [.rightBracket])

/-- Whether all faces of a die can be written. Of dice that list no faces the
size is always written. -/
def LegibleDie : Die → Prop
  | .custom faces _ => ∀ a ∈ faces, a ≠ .lowest
  | _ => True

theorem spelled_dieTokens (d : Die) : Spelled (dieTokens d) := by
  cases d with
  | sided sides atLeastTwo => exact (spelled_number (by omega)).cons trivial rfl
  | fudge => exact .cons (.cons spelled_nil trivial rfl) trivial rfl
  | percentile => exact .cons (.cons spelled_nil trivial rfl) trivial rfl
  | custom faces atLeastTwo =>
    have close : Spelled [.rightBracket] := .cons spelled_nil trivial rfl
    have listed := (spelled_faceTokens faces).append close (by simp [Detached, Token.isNumber])
    exact .cons (.cons listed trivial rfl) trivial rfl

/-- A die begins with its letter, so it may stand behind the number of dice. -/
theorem detached_dieTokens (d : Die) (rest : List Token) : Detached (dieTokens d ++ rest) := by
  cases d <;> simp [Detached, dieTokens, Token.isNumber]

/-- The tokens of a die spell its text, so the text of a die that is legible is
also a list of tokens. -/
theorem spelling_dieTokens {d : Die} (legible : LegibleDie d) :
    (dieTokens d).flatMap Token.spelling = d.text := by
  cases d with
  | sided sides atLeastTwo =>
    simp [dieTokens, Token.spelling, Die.text, Score.text_of_nonneg (show 0 ≤ sides.val by omega)]
  | fudge => rfl
  | percentile => rfl
  | custom faces atLeastTwo =>
    simp [dieTokens, Token.spelling, Die.text, spelling_faceTokens legible]

/-- The tokens of a number in front of a die, none for a single die. -/
def quantityTokens (quantity : Nat) : List Token :=
  if quantity = 1 then [] else [.number (.clamp quantity)]

/-- The tokens of a number of dice. The number may be larger than what a reader
accepts; that is for the reader to say. -/
def diceTokens (quantity : Nat) (d : Die) : List Token := quantityTokens quantity ++ dieTokens d

/-- A number of dice as it is written. -/
def diceText (quantity : Nat) (d : Die) : Text :=
  (if quantity = 1 then [] else Text.ofNat quantity) ++ d.text

/-- The tokens of a number of dice spell it, if the number is within the range
of scores. -/
theorem spelling_diceTokens {quantity : Nat} (fits : (quantity : Int) ≤ Score.highest.val) {d : Die}
    (legible : LegibleDie d) :
    (diceTokens quantity d).flatMap Token.spelling = diceText quantity d := by
  have exact : (Score.clamp quantity).val = quantity := Score.val_clamp_of_mem (by omega) fits
  rw [diceTokens, List.flatMap_append, spelling_dieTokens legible, diceText, quantityTokens]
  split
  next => rfl
  next => simp [Token.spelling, exact]

theorem spelled_diceTokens (quantity : Nat) (d : Die) : Spelled (diceTokens quantity d) := by
  have start : Detached (dieTokens d) := by simpa using detached_dieTokens d []
  unfold diceTokens quantityTokens
  split
  next => exact spelled_dieTokens d
  next => exact (spelled_number (Score.nonneg_clamp quantity)).append (spelled_dieTokens d) start

/-! ## Modifiers and operators -/

/-- A selection or an explosion without the pool that it is of. A segment has at
most one. -/
inductive Modifier
  | selection (rule : Selection) (threshold : Nat)
  | explosion (c : Comparator) (threshold : Option Score)

/-- What is written after the mark of an explosion. That a result is rolled
again for being equal to the greatest value is not written. -/
def conditionTokens (c : Comparator) (threshold : Option Score) : List Token :=
  match c, threshold with
  | .equals, none => []
  | c, none => [.comparator c]
  | c, some score => .comparator c :: scoreTokens score

/-- The tokens of a modifier. A selection is always written with its threshold,
an explosion only if it has one. -/
def Modifier.tokens : Modifier → List Token
  | selection rule threshold => [.selection rule, .number (.clamp threshold)]
  | explosion c threshold => .explode :: conditionTokens c threshold

/-- A modifier as it is written. -/
def Modifier.text : Modifier → Text
  | selection rule threshold => rule.text ++ Text.ofNat threshold
  | explosion c threshold => '!' :: Expr.conditionText c threshold

/-- Whether all numbers of a modifier can be written. A count of results may be
past all scores, and the magnitude of the least score is past them as well. -/
def Modifier.Legible : Modifier → Prop
  | selection _ threshold => (threshold : Int) ≤ Score.highest.val
  | explosion _ threshold => threshold ≠ some .lowest

/-- Whether a modifier ends with a comparator, so that a minus sign behind it
would be read as that of a threshold. -/
def Modifier.Bare : Modifier → Prop
  | explosion c none => c ≠ .equals
  | _ => False

theorem spelled_modifierTokens (m : Modifier) : Spelled m.tokens := by
  cases m with
  | selection rule threshold =>
    exact (spelled_number (Score.nonneg_clamp threshold)).cons trivial rfl
  | explosion c threshold =>
    refine Spelled.cons ?_ trivial rfl
    cases threshold with
    | none => cases c <;> first | exact spelled_nil | exact spelled_nil.cons trivial rfl
    | some score => cases c <;> exact (spelled_scoreTokens score).cons trivial rfl

/-- The tokens of a modifier spell its text, if its numbers can be written. In
any other text there is a number that is refused. -/
theorem spelling_modifierTokens {m : Modifier} (legible : m.Legible) :
    m.tokens.flatMap Token.spelling = m.text := by
  cases m with
  | selection rule threshold =>
    have exact : (Score.clamp threshold).val = threshold :=
      Score.val_clamp_of_mem (by omega) legible
    simp [Modifier.tokens, Token.spelling, Modifier.text, exact]
  | explosion c threshold =>
    cases threshold with
    | none => cases c <;> rfl
    | some score =>
      have ne : score ≠ .lowest := fun same => legible (by rw [same])
      cases c <;>
        simp [Modifier.tokens, conditionTokens, Token.spelling, Modifier.text, Expr.conditionText,
          spelling_scoreTokens ne]

/-- The tokens of a modifier, if there is one. -/
def modifierTokens : Option Modifier → List Token
  | none => []
  | some m => m.tokens

/-- A modifier as it is written, if there is one. -/
def modifierText : Option Modifier → Text
  | none => []
  | some m => m.text

theorem detached_modifierTokens (m : Option Modifier) : Detached (modifierTokens m) := by
  rcases m with - | m
  · simp [Detached, modifierTokens]
  · cases m <;> simp [Detached, modifierTokens, Modifier.tokens, Token.isNumber]

/-- The tokens of operators with their constants. The constants are never
negative, so none of them takes a sign. -/
def operatorTokens : List (Operator × UInt32) → List Token
  | [] => []
  | (op, operand) :: rest =>
    .operator op :: .number (.clamp operand.toNat) :: operatorTokens rest

/-- Operators with their constants as they are written. -/
def operatorsText (operators : List (Operator × UInt32)) : Text :=
  operators.flatMap fun (op, operand) => op.symbol :: Text.ofNat operand.toNat

theorem detached_operatorTokens (operators : List (Operator × UInt32)) :
    Detached (operatorTokens operators) := by
  cases operators <;> simp [Detached, operatorTokens, Token.isNumber]

theorem operatorTokens_append (operators more : List (Operator × UInt32)) :
    operatorTokens (operators ++ more) = operatorTokens operators ++ operatorTokens more := by
  induction operators with
  | nil => rfl
  | cons first rest ih => simp [operatorTokens, ih]

theorem spelled_operatorTokens (operators : List (Operator × UInt32)) :
    Spelled (operatorTokens operators) := by
  induction operators with
  | nil => exact spelled_nil
  | cons first rest ih =>
    exact ((spelled_number (Score.nonneg_clamp _)).append ih (detached_operatorTokens rest)).cons
      trivial rfl

/-- The tokens of operators spell them. Every constant can be written. -/
theorem spelling_operatorTokens (operators : List (Operator × UInt32)) :
    (operatorTokens operators).flatMap Token.spelling = operatorsText operators := by
  induction operators with
  | nil => rfl
  | cons first rest ih =>
    simp only [operatorTokens, List.flatMap_cons, ih, operatorsText, Token.spelling,
      Score.val_clamp_operand]
    simp

/-! ## What stands behind dice -/

variable (m : Option Modifier) (operators : List (Operator × UInt32))

/-- A modifier and operators behind it can be written together. Between any two
numbers of theirs there is the symbol of an operator. -/
theorem spelled_suffix : Spelled (modifierTokens m ++ operatorTokens operators) := by
  refine Spelled.append ?_ (spelled_operatorTokens operators) (detached_operatorTokens operators)
  cases m with
  | none => exact spelled_nil
  | some m => exact spelled_modifierTokens m

/-- What stands behind dice does not begin with a number, and so cannot be
mistaken for a number of sides. -/
theorem detached_suffix : Detached (modifierTokens m ++ operatorTokens operators) := by
  have start := detached_modifierTokens m
  cases h : modifierTokens m with
  | nil => exact detached_operatorTokens operators
  | cons token rest => rw [h] at start; simpa [Detached] using start

variable {m} in
theorem spelling_suffix (legible : ∀ x ∈ m, x.Legible) :
    (modifierTokens m ++ operatorTokens operators).flatMap Token.spelling =
      modifierText m ++ operatorsText operators := by
  rw [List.flatMap_append, spelling_operatorTokens]
  cases m with
  | none => rfl
  | some m => rw [modifierTokens, spelling_modifierTokens (legible m rfl), modifierText]

end Notation

end Dice
