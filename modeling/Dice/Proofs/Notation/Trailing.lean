import Dice.Proofs.Notation.Enclosed
import Dice.Proofs.Notation.Parts

/-!
# Operators at the end of a segment

Behind the modifier of a segment there may be operators, each with its
constant. They are the last tokens of the segment, and so they can be counted
from the end (`trailingOperators`), without reading what is in front of them:
only a minus sign behind a comparator is the sign of a threshold.

A segment is read as a base, dice or a notation in parentheses, with a
modifier and these operators (`Operated`). If there is room for one more, it
can be put behind the others.

The tokens of the whole segment are not defined where the base is a notation
in parentheses, which is not read token by token. So they are counted behind
the last closing parenthesis of the text (`EndsIn`), and a base in parentheses
has no tokens there.

Main statements: `denotes_iff_operated`, `Operated.trailingOperators_eq` and
`Operated.snoc`.
-/

namespace Dice.Notation

open Text

variable {front tokens : List Token} {token : Token} {op : Operator} {value : Score}
  {operators : List (Operator × UInt32)} {modifier : Option ModifierForm}

/-! ## Counting from the end -/

/-- The number of operators at the end of a list of tokens, which is given in
reverse. -/
def operatorsFromEnd : List Token → Nat
  | .number _ :: .operator .subtract :: .comparator _ :: _ => 0
  | .number _ :: .operator _ :: rest => operatorsFromEnd rest + 1
  | _ => 0

/-- How many operators a list of tokens ends with, each with its constant. A
minus sign behind a comparator is none. -/
def trailingOperators (tokens : List Token) : Nat := operatorsFromEnd tokens.reverse

/-- An operator at the end is one more than those in front of it, unless it is a
minus sign behind a comparator. -/
theorem trailingOperators_snoc
    (other : op = .subtract → ∀ c, front.getLast? ≠ some (.comparator c)) :
    trailingOperators (front ++ [.operator op, .number value]) = trailingOperators front + 1 := by
  unfold trailingOperators
  rw [List.reverse_append]
  show operatorsFromEnd (.number value :: .operator op :: front.reverse) = _
  rw [List.getLast?_eq_head?_reverse] at other
  generalize front.reverse = back at other ⊢
  cases op with
  | subtract =>
    cases back with
    | nil => rfl
    | cons last back =>
      cases last with
      | comparator c => exact absurd rfl (other rfl c)
      | _ => rfl
  | _ => rfl

/-- A minus sign behind a comparator is no operator. It is that of a threshold. -/
theorem trailingOperators_sign (front : List Token) (c : Comparator) (value : Score) :
    trailingOperators (front ++ [.comparator c, .operator .subtract, .number value]) = 0 := by
  unfold trailingOperators
  rw [List.reverse_append]
  rfl

/-- A list that does not end with a number ends with no operator. -/
theorem trailingOperators_last (front : List Token) (other : token.isNumber = false) :
    trailingOperators (front ++ [token]) = 0 := by
  unfold trailingOperators
  rw [List.reverse_append]
  show operatorsFromEnd (token :: front.reverse) = 0
  cases token with
  | number value => cases other
  | _ => rfl

/-- A number behind something else is no constant. It may be a number of sides,
a threshold or a count. -/
theorem trailingOperators_number (front : List Token) (token : Token) (value : Score)
    (other : ∀ op, token ≠ .operator op) :
    trailingOperators (front ++ [token, .number value]) = 0 := by
  unfold trailingOperators
  rw [List.reverse_append]
  show operatorsFromEnd (.number value :: token :: front.reverse) = 0
  cases token with
  | operator op => exact absurd rfl (other op)
  | _ => rfl

/-- Dice end with neither an operator nor a comparator, with a size or without
one. -/
theorem trailingOperators_size (front : List Token) (size : Option SizeForm) :
    trailingOperators (front ++ .dice :: size.elim [] SizeForm.tokens) = 0 ∧
      ∀ c, (front ++ .dice :: size.elim [] SizeForm.tokens).getLast? ≠ some (.comparator c) := by
  have marked : ∀ rest, front ++ .dice :: rest = (front ++ [.dice]) ++ rest := by simp
  have closed : ∀ {front : List Token} {token : Token}, token.isNumber = false →
      (∀ c, token ≠ .comparator c) → trailingOperators (front ++ [token]) = 0 ∧
        ∀ c, (front ++ [token]).getLast? ≠ some (.comparator c) := by
    intro front token other comparator
    exact ⟨trailingOperators_last front other, fun c last =>
      comparator c (by simpa using last)⟩
  cases size with
  | none => exact closed rfl (by simp)
  | some size =>
    cases size with
    -- a number of sides is no constant, as the letter is in front of it
    | sides count =>
      exact ⟨trailingOperators_number front .dice count (by simp), by simp [SizeForm.tokens]⟩
    | fudge | percent =>
      rw [marked]
      exact closed rfl (by simp)
    | faces listed trailing =>
      rw [marked, Option.elim_some, SizeForm.tokens, ← List.cons_append, ← List.append_assoc]
      exact closed rfl (by simp)

/-- No modifier ends with an operator: a number at its end belongs to it. -/
theorem trailingOperators_modifier (front : List Token) (m : ModifierForm) :
    trailingOperators (front ++ m.tokens) = 0 := by
  cases m with
  | selection rule threshold =>
    cases threshold with
    | none => exact trailingOperators_last front rfl
    | some count => exact trailingOperators_number front (.selection rule) count (by simp)
  | explosion threshold =>
    cases threshold with
    | none => exact trailingOperators_last front rfl
    | some score => exact trailingOperators_number front .explode score (by simp)
  | comparison c threshold =>
    have marked : ∀ rest, front ++ .explode :: rest = (front ++ [.explode]) ++ rest := by simp
    cases threshold with
    | none =>
      rw [ModifierForm.tokens, marked]
      exact trailingOperators_last _ rfl
    | some threshold =>
      rw [ModifierForm.tokens, marked]
      cases threshold with
      | plain score => exact trailingOperators_number _ (.comparator c) score (by simp)
      -- the sign belongs to the threshold, as a comparator is in front of it
      | minus score => exact trailingOperators_sign _ c score

/-- Operators are counted on from what is in front of them, unless the first one
is a minus sign behind a comparator. -/
theorem trailingOperators_operators (front : List Token) (operators : List (Operator × UInt32))
    (unmistaken : ∀ c, front.getLast? = some (.comparator c) →
      operators.head?.map (·.1) ≠ some .subtract) :
    trailingOperators (front ++ operatorTokens operators) =
      trailingOperators front + operators.length := by
  induction operators generalizing front with
  | nil => rw [operatorTokens, List.append_nil, List.length_nil, Nat.add_zero]
  | cons first rest ih =>
    obtain ⟨op, operand⟩ := first
    have step := ih (front ++ [.operator op, .number (.clamp operand.toNat)]) (by simp)
    rw [trailingOperators_snoc] at step
    · rw [operatorTokens, List.length_cons, Nat.add_comm rest.length, ← Nat.add_assoc, ← step]
      simp
    · intro minus c last
      exact unmistaken c last (by rw [minus]; rfl)

/-! ## The end of a text -/

/-- Whether some tokens are all that a text has behind its last closing
parenthesis. -/
def EndsIn (text : Text) (tokens : List Token) : Prop :=
  ∃ front back, text = front ++ back ∧ (front = [] ∨ ∃ inner, front = inner ++ [')']) ∧
    Spelt back tokens

namespace EndsIn

variable {a b text : Text}

/-- Where no parenthesis is closed, the tokens are those of the whole text. -/
theorem spelt (ends : EndsIn text tokens) (plain : ')' ∉ text) : Spelt text tokens := by
  obtain ⟨front, back, rfl, rfl | ⟨inner, rfl⟩, spelt⟩ := ends
  · exact spelt
  · exact absurd (by simp) plain

/-- Right behind a closing parenthesis there are no tokens. What is in the
parentheses is not counted. -/
theorem of_closed (ends : EndsIn (a ++ [')']) tokens) : tokens = [] := by
  obtain ⟨front, back, whole, -, spelt⟩ := ends
  have none : back = [] := by
    by_contra ne
    have last : back.getLast? = some ')' := by
      rw [← List.getLast?_append_of_ne_nil front ne, ← whole, List.getLast?_concat]
    exact (spelt.of_mem ')' (List.mem_of_getLast? last)).2.1 rfl
  rw [none] at spelt
  exact spelt.unique .nil

/-- The end of a text is taken apart like a text, if the last part is in it. The
part in front may have parentheses, and only what is behind them counts. -/
theorem split (ends : EndsIn (a ++ b) tokens) (separate : Separate b) (plain : ')' ∉ b) :
    ∃ before after, tokens = before ++ after ∧ EndsIn a before ∧ Spelt b after := by
  obtain ⟨front, back, whole, closed, spelt⟩ := ends
  rcases List.append_eq_append_iff.1 whole with ⟨inner, rfl, rfl⟩ | ⟨inner, rfl, rfl⟩
  · -- a parenthesis that is closed in the last part can only be none
    obtain rfl : inner = [] := by
      rcases closed with none | ⟨inside, whole⟩
      · exact (List.append_eq_nil_iff.1 none).2
      · by_contra ne
        have last : inner.getLast? = some ')' := by
          rw [← List.getLast?_append_of_ne_nil a ne, whole, List.getLast?_concat]
        exact plain (List.mem_append_left _ (List.mem_of_getLast? last))
    rw [List.append_nil] at closed
    exact ⟨[], tokens, rfl, ⟨a, [], by simp, closed, .nil⟩, spelt⟩
  · obtain ⟨before, after, rfl, left, right⟩ := spelt.split separate
    exact ⟨before, after, rfl, ⟨front, inner, rfl, closed, left⟩, right⟩

/-- A comparator is the last character as well as the last token. No other token
ends with the symbol of one. -/
theorem endsWithComparator (ends : EndsIn text tokens) (solid : Solid text) {c : Comparator}
    (last : tokens.getLast? = some (.comparator c)) : text.endsWithComparator = true := by
  obtain ⟨before, rfl⟩ := List.getLast?_eq_some_iff.1 last
  obtain ⟨front, back, rfl, -, spelt⟩ := ends
  obtain ⟨a, blanks, rfl, -, none⟩ := spelt.split_symbol (Token.ofSymbol?_comparator c)
  have blank := spelt_nil_iff.1 none
  obtain rfl : blanks = [] := by
    cases blanks with
    | nil => rfl
    | cons d rest =>
      have other := solid d (by simp)
      simp [Text.blank, other] at blank
  simp [Text.endsWithComparator, ← List.append_assoc]

end EndsIn

/-! ## Bases -/

/-- What a segment begins with: a text that is not read token by token, the
tokens behind that and in front of the modifier, and the expression that these
stand for. -/
inductive Based : Text → List Token → Expr → Prop
  | dice (quantity : Option Score) (size : Option SizeForm) {e : Expr}
    (made : (SegmentForm.unmodified quantity size).dice? = some e) :
    Based [] (SegmentForm.unmodified quantity size).diceTokens e
  | group {blanks interior : Text} {e : Expr} (blank : blanks.blank = true)
    (inside : DenotesSum interior e) : Based (blanks ++ '(' :: (interior ++ [')'])) [] e

/-- A base ends with neither an operator nor a comparator. So the operators of a
segment can be counted from its end. -/
theorem Based.closed {text : Text} {tokens : List Token} {e : Expr}
    (based : Based text tokens e) : trailingOperators tokens = 0 ∧
      ∀ c, tokens.getLast? ≠ some (.comparator c) := by
  cases based with
  | dice quantity size made => exact trailingOperators_size _ size
  | group => exact ⟨rfl, by simp⟩

/-- Where a segment goes on to read a base, a modifier and operators: `back` has
the tokens behind `front`, and they stand for `made`. -/
structure Operated (front back : Text) (tokens : List Token) (e : Expr)
    (modifier : Option ModifierForm) (operators : List (Operator × UInt32)) (made : Expr) :
    Prop where
  based : Based front tokens e
  lexes : Lexes back (tokens ++ (modifier.elim [] ModifierForm.tokens ++ operatorTokens operators))
  read : (modifier.elim (some e) (·.applied e)).bind (operate? · operators) = some made
  few : operators.length ≤ 2
  unmistaken : ∀ c, modifier = some (.comparison c none) →
    operators.head?.map (·.1) ≠ some .subtract

variable {text front' back : Text} {base : List Token} {e made : Expr}

/-- What a segment denotes is a base with a modifier and operators. The base is
dice, or something in parentheses. -/
theorem denotes_iff_operated : Denotes text made ↔
    ∃ front back base e modifier operators, text = front ++ back ∧
      Operated front back base e modifier operators made := by
  constructor
  · intro denotes
    cases denotes with
    | dice form lexes read =>
      -- the form of dice is split behind the size
      obtain ⟨quantity, size, modifier, operators, few, unmistaken⟩ := form
      cases dice : (SegmentForm.unmodified quantity size).dice? with
      | none =>
        have none : (none.bind fun e => modifier.elim (some e) (·.applied e)).bind
            (operate? · operators) = some made := dice ▸ read
        cases none
      | some e =>
        have lexes : Lexes text ((SegmentForm.unmodified quantity size).diceTokens ++
            (modifier.elim [] ModifierForm.tokens ++ operatorTokens operators)) := lexes
        have read : ((some e).bind fun e => modifier.elim (some e) (·.applied e)).bind
            (operate? · operators) = some made := dice ▸ read
        exact ⟨[], text, _, e, modifier, operators, rfl, .dice quantity size dice, lexes, read, few,
          unmistaken⟩
    | @group blanks interior suffix _ parts blank balanced solid cut each amends =>
      obtain ⟨modifier, operators, lexes, read, few, unmistaken⟩ := amends
      have inside : DenotesSum interior (combine (parts.map (·.2))) :=
        ⟨balanced, solid, parts, cut, each, rfl⟩
      exact ⟨_, suffix, [], _, modifier, operators, by simp, .group blank inside, lexes, read, few,
        unmistaken⟩
  · rintro ⟨front, back, base, e, modifier, operators, rfl, based, lexes, read, few, unmistaken⟩
    cases based with
    | dice quantity size dice =>
      let form : SegmentForm := ⟨quantity, size, modifier, operators, few, unmistaken⟩
      have whole : form.dice?.bind (fun e => modifier.elim (some e) (·.applied e)) =
          modifier.elim (some e) (·.applied e) := by
        rw [show form.dice? = some e from dice, Option.bind_some]
      refine .dice form lexes ?_
      rw [SegmentForm.expr?, whole]
      exact read
    | @group blanks interior _ blank inside =>
      have amends : Amends back e made := ⟨modifier, operators, lexes, read, few, unmistaken⟩
      simpa using inside.group blank amends

/-- Only a comparison without a threshold ends with a comparator. -/
theorem modifier_of_getLast? (closed : ∀ c, base.getLast? ≠ some (.comparator c)) {c : Comparator}
    (last : (base ++ modifier.elim [] ModifierForm.tokens).getLast? = some (.comparator c)) :
    modifier = some (.comparison c none) := by
  cases modifier with
  | none => exact absurd (by simpa using last) (closed c)
  | some m =>
    cases m with
    | selection rule threshold => cases threshold <;> simp [ModifierForm.tokens] at last
    | explosion threshold => cases threshold <;> simp [ModifierForm.tokens] at last
    | comparison d threshold =>
      cases threshold with
      | none =>
        obtain rfl : d = c := by simpa [ModifierForm.tokens] using last
        rfl
      | some threshold =>
        cases threshold <;> simp [ModifierForm.tokens, SignedForm.tokens] at last

namespace Operated

variable (operated : Operated front' back base e modifier operators made)

include operated

/-- The tokens of a segment are all that it has behind its last closing
parenthesis. -/
theorem endsIn : EndsIn (front' ++ back)
    (base ++ (modifier.elim [] ModifierForm.tokens ++ operatorTokens operators)) := by
  refine ⟨front', back, rfl, ?_, spelt_of_lexes operated.lexes⟩
  cases operated.based with
  | dice => exact .inl rfl
  | @group blanks interior => exact .inr ⟨blanks ++ '(' :: interior, by simp⟩

/-- The operators of a segment are those that its tokens end with. All of them
are found, and nothing else is taken for one. -/
theorem trailingOperators_eq : trailingOperators
    (base ++ (modifier.elim [] ModifierForm.tokens ++ operatorTokens operators)) =
      operators.length := by
  obtain ⟨none, closed⟩ := operated.based.closed
  have start : trailingOperators (base ++ modifier.elim [] ModifierForm.tokens) = 0 := by
    cases modifier with
    | none => simpa using none
    | some m => exact trailingOperators_modifier base m
  have counted := trailingOperators_operators _ operators fun c last =>
    operated.unmistaken c (modifier_of_getLast? closed last)
  rw [← List.append_assoc, counted, start, Nat.zero_add]

/-- Another operator can be put behind the others, unless its minus sign would
be read as that of a threshold. -/
theorem snoc {op : Operator} {operand : UInt32} {combined : Expr} (room : operators.length < 2)
    (other : op = .subtract → ∀ c, (base ++ (modifier.elim [] ModifierForm.tokens ++
      operatorTokens operators)).getLast? ≠ some (.comparator c))
    (applied : made.apply op operand = .ok combined) :
    Operated front' (back ++ operatorsText [(op, operand)]) base e modifier
      (operators ++ [(op, operand)]) combined where
  based := operated.based
  lexes := by
    have separate : Separate (operatorsText [(op, operand)]) :=
      separate_symbol (Token.ofSymbol?_symbol op) _
    -- the symbol of the operator ends whatever token is in front of it
    have spelt := (spelt_of_lexes operated.lexes).append separate (spelt_operators [(op, operand)])
    rw [operatorTokens_append, ← List.append_assoc (modifier.elim [] ModifierForm.tokens),
      ← List.append_assoc base]
    exact lexes_of_spelt spelt
  read := by
    have last : operate? made [(op, operand)] = some combined := by
      rw [operate?, applied]
      rfl
    have before := operated.read
    cases modified : modifier.elim (some e) (·.applied e) with
    | none =>
      rw [modified] at before
      cases before
    | some x =>
      rw [modified] at before
      rw [Option.bind_some] at before ⊢
      rw [operate?_append, before]
      exact last
  few := by
    rw [List.length_append, List.length_singleton]
    omega
  unmistaken := by
    intro c bare
    cases operators with
    -- the operator is the first one, and must not be a minus behind a bare comparator
    | nil =>
      intro minus
      refine other (Option.some.inj minus) c ?_
      subst bare
      simp [ModifierForm.tokens, operatorTokens]
    | cons first rest => exact operated.unmistaken c bare

end Operated

end Dice.Notation
