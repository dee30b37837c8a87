import Dice.Proofs.Expr.Built
import Dice.Proofs.Notation.Nesting
import Dice.Proofs.Notation.Trailing
import Dice.Proofs.Rereading

/-!
# Operators at the end of a text

What is written for arithmetic ends with its operator, and without parentheses
in between the operators of the arithmetic inside stand right in front of it.
`openOperators` counts them on the expression. They are the operators at the
end of the tokens of its text, and a segment has room for two
(`trailingOperators_text`).

Parentheses stand around arithmetic that has two operators itself. But a pool
with arithmetic as its only member is written as that member, and around a
pool there are none. So one operator more is written behind the two, and the
text is refused. Everything else is read again with one operator more.

The two directions of that are shown in different ways. A text that is
accepted denotes an expression, and its tokens say how many operators it ends
with; so it cannot have three. Where there is room, the grammar gives what the
longer text denotes: parentheses are a base of their own, and without them the
operator joins those of the segment.

Main statements: `trailingOperators_text`, `parse_apply_iff` and
`wrapped_or_openOperators_lt`.
-/

namespace Dice.Expr

open Notation

variable {members : List Expr} {inner e other combined : Expr} {op : Operator} {operand : UInt32}
  {tokens : List Token}

/-- How many operators the text of an expression ends with, outside of all
parentheses. None are counted for a sum, as it is put into parentheses itself
when an operator is written behind it. -/
def openOperators : Expr → Nat
  | pool [m] => if m.text.hasOuterPlus 0 then 0 else openOperators m
  | arithmetic inner _ _ => (if inner.wrapped then 0 else openOperators inner) + 1
  | _ => 0

theorem openOperators_single (m : Expr) : (pool [m]).openOperators =
    if m.text.hasOuterPlus 0 then 0 else m.openOperators := by
  rw [openOperators]

/-- A pool of several members is a sum, for which none are counted. It goes into
parentheses before an operator. -/
theorem openOperators_several (several : 2 ≤ members.length) :
    (pool members).openOperators = 0 := by
  match members, several with
  | _ :: _ :: _, _ => rw [openOperators] <;> simp

theorem openOperators_arithmetic (inner : Expr) (op : Operator) (operand : UInt32) :
    (arithmetic inner op operand).openOperators =
      (if inner.wrapped then 0 else inner.openOperators) + 1 := by
  rw [openOperators]

/-- The text of a pool with a single member is that of the member, in
parentheses if it has an outer plus sign. Otherwise its operators are open in
the pool as well. -/
theorem text_single (m : Expr) : (pool [m]).text = m.text.grouped := by
  have once : tally [m] = [(m, 1)] := tally_of_apart (List.pairwise_singleton _ m)
  rw [text_pool (by simp), once]
  simp [entryText]

/-- **Only behind a pool with a single member there can be no room for one
operator more.** -/
theorem wrapped_or_openOperators_lt (several : e.Every fun node => ∀ m, node ≠ pool [m]) :
    e.wrapped = true ∨ e.openOperators < 2 := by
  -- only arithmetic has open operators of its own
  have none : ∀ {e : Expr}, (e.Every fun node => ∀ m, node ≠ pool [m]) →
      (∀ inner op operand, e ≠ arithmetic inner op operand) → e.openOperators = 0 := by
    intro e several other
    cases e with
    | pool members =>
      match members, (Every.pool_iff.1 several).1 with
      | [], _ => rfl
      | [m], single => exact absurd rfl (single m)
      | _ :: _ :: _, _ => exact openOperators_several (by simp)
    | arithmetic inner op operand => exact absurd rfl (other inner op operand)
    | die | selection | explosion => rfl
  cases e with
  | arithmetic inner op operand =>
    have inside := (Every.arithmetic_iff.1 several).2
    cases inner with
    -- two operators one in the other are put in parentheses before a third one
    | arithmetic => exact .inl rfl
    | _ =>
      rw [openOperators_arithmetic, none inside (by simp)]
      exact .inr (by split <;> decide)
  | _ =>
    rw [none several (by simp)]
    exact .inr (by decide)

/-! ## Counting on the text -/

/-- The text of dice ends with what a die is written with, which is no operator.
-/
theorem trailingOperators_diceText {d : Die} {count : Nat}
    (ends : EndsIn (diceText count d) tokens) : trailingOperators tokens = 0 := by
  have spelt := ends.spelt fun mem => (plain_diceText d count _ mem).2 rfl
  have separate : Separate d.text := by cases d <;> simp [Separate, Die.text]
  obtain ⟨front, back, rfl, -, die⟩ := spelt.split separate
  obtain ⟨-, rfl⟩ := spelt_die_iff.1 die
  rw [← SizeForm.tokens_written]
  exact (trailingOperators_size front (some (.written d))).1

/-- What is modified ends with the modifier, which is no operator. Nothing in
front of that can be the last token. -/
theorem trailingOperators_modifierText {base : Text} {m : Modifier}
    (ends : EndsIn (base ++ modifierText (some m)) tokens) : trailingOperators tokens = 0 := by
  have separate : Separate (modifierText (some m)) := by
    cases m with
    | selection rule threshold =>
      cases rule <;> simp [Separate, modifierText, Modifier.text, Selection.text]
    | explosion c threshold => simp [Separate, modifierText, Modifier.text]
  have plain : ')' ∉ modifierText (some m) := fun mem => (Modifier.of_mem_text mem).2.2.1 rfl
  obtain ⟨front, back, rfl, -, spelt⟩ := ends.split separate plain
  obtain ⟨-, rfl⟩ := spelt_modifier_iff.1 spelt
  rw [← ModifierForm.tokens_written]
  exact trailingOperators_modifier front _

/-- A minus sign behind the text inside is no sign of a threshold. A text that
ends with a comparator would have been put in parentheses. -/
theorem getLast?_ne_comparator (bare : inner.wrapped = false) (ends : EndsIn inner.text tokens)
    (c : Comparator) : tokens.getLast? ≠ some (.comparator c) := by
  intro last
  have comparator := ends.endsWithComparator (firm_text inner).solid last
  rw [(of_wrapped_eq_false bare).2.1] at comparator
  cases comparator

/-- The operator of arithmetic is one more than those of the expression inside.
In parentheses these do not count. -/
theorem trailingOperators_arithmetic
    (inside : inner.wrapped = false → ∀ tokens, EndsIn inner.text tokens →
      trailingOperators tokens = inner.openOperators)
    (ends : EndsIn (arithmetic inner op operand).text tokens) :
    trailingOperators tokens = (arithmetic inner op operand).openOperators := by
  have separate : Separate (operatorsText [(op, operand)]) :=
    separate_symbol (Token.ofSymbol?_symbol op) _
  have plain : ')' ∉ operatorsText [(op, operand)] := by
    rw [← spelling_operatorTokens]
    exact fun mem => (plain_spellings _ _ mem).2 rfl
  rw [text_arithmetic_eq, operandText_eq] at ends
  -- the operator has no parenthesis, so the tokens of the text inside are in front of it
  obtain ⟨front, back, rfl, before, spelt⟩ := ends.split separate plain
  obtain rfl := spelt.unique (spelt_operators [(op, operand)])
  rw [openOperators_arithmetic]
  cases bare : inner.wrapped with
  | true =>
    rw [bare, if_pos rfl] at before
    obtain rfl := before.of_closed
    -- parentheses stop the count in front of the operator
    exact trailingOperators_snoc fun _ c last => nomatch last
  | false =>
    rw [bare, if_neg Bool.false_ne_true] at before
    rw [if_neg Bool.false_ne_true, ← inside bare front before]
    exact trailingOperators_snoc fun _ => getLast?_ne_comparator bare before

/-- **The operators at the end of a text are those that are open in its
expression.** A pool with a single member passes them on, and parentheses hide
them. -/
theorem trailingOperators_text (whole : e.text.hasOuterPlus 0 = false)
    (ends : EndsIn e.text tokens) : trailingOperators tokens = e.openOperators := by
  induction e using ind generalizing tokens with
  | die d =>
    rw [text_die] at ends
    exact trailingOperators_diceText ends
  | pool members ih =>
    cases members with
    | nil =>
      have spelt : Spelt (Text.ofNat 0) tokens := ends.spelt (by decide)
      obtain ⟨-, rfl⟩ := spelt_ofNat_iff.1 spelt
      rfl
    | cons m rest =>
      cases rest with
      | nil =>
        -- a lone member is written as it is, so its operators stay open
        rw [text_single, Text.grouped] at ends
        rw [openOperators_single]
        cases plus : m.text.hasOuterPlus 0 with
        | true =>
          rw [plus, if_pos rfl] at ends
          rw [ends.of_closed]
          rfl
        | false =>
          rw [plus, if_neg Bool.false_ne_true] at ends
          exact ih m (by simp) plus ends
      | cons next rest =>
        have several : 2 ≤ (m :: next :: rest).length := by simp
        rw [openOperators_several several]
        cases mixed : uniform (m :: next :: rest) with
        | true =>
          obtain ⟨d, count, same⟩ := uniform_iff.1 mixed
          rw [same, text_replicate] at ends
          exact trailingOperators_diceText ends
        | false =>
          -- members that differ have an outer plus sign between them
          rw [hasOuterPlus_pool several mixed] at whole
          cases whole
  | arithmetic inner op operand ih =>
    exact trailingOperators_arithmetic (fun bare tokens => ih (of_wrapped_eq_false bare).2.2) ends
  | selection members rule threshold ih =>
    rw [text_selection] at ends
    exact trailingOperators_modifierText ends
  | explosion members c threshold ih =>
    rw [text_explosion] at ends
    exact trailingOperators_modifierText ends

/-! ## Reading one operator more -/

/-- What is accepted and not cut is a base with a modifier and operators. The
number of these is at most two. -/
theorem exists_operated (cut : cutSegments e.text = [e.text]) (ok : parse e.text = .ok other) :
    ∃ front back base x modifier operators, e.text = front ++ back ∧
      Operated front back base x modifier operators other := by
  have sum := ((parse_eq_ok_iff (firm_text e).blank).1 ok).1
  exact denotes_iff_operated.1 ((denotesSum_iff_of_cut cut).1 sum).2.2

/-- Arithmetic adds at most one pair of parentheses, and none if the expression
inside goes without. -/
theorem nesting_arithmetic_le (inner : Expr) (op : Operator) (operand : UInt32) :
    (arithmetic inner op operand).text.nesting ≤ inner.text.nesting + 1 := by
  rw [text_arithmetic_eq, (uncut_operandText inner).balanced.nesting_append,
    nesting_operatorsText, Nat.max_zero, operandText_eq]
  split
  next => rw [(firm_text inner).balanced.nesting_parenthesized]
  next => exact Nat.le_succ _

/-- An operator behind parentheses is that of what is in them. It is the only
one of its segment. -/
theorem denotes_of_wrapped (wrap : inner.wrapped = true) (sum : DenotesSum inner.text other)
    (applied : other.apply op operand = .ok combined) :
    Denotes (arithmetic inner op operand).text combined := by
  have amends : Amends (operatorsText [(op, operand)]) other combined := by
    refine ⟨none, [(op, operand)], lexes_of_spelt (spelt_operators _), ?_, by simp, nofun⟩
    show operate? other [(op, operand)] = some combined
    rw [operate?, applied]
    rfl
  rw [text_arithmetic_eq, operandText_eq, if_pos wrap]
  simpa [Text.parenthesized] using sum.group Text.blank_nil amends

/-- Without parentheses the operator is one more of the same segment. That there
is room for it is the condition of the theorem. -/
theorem denotes_of_unwrapped (bare : inner.wrapped = false) (room : inner.openOperators < 2)
    (ok : parse inner.text = .ok other) (applied : other.apply op operand = .ok combined) :
    Denotes (arithmetic inner op operand).text combined := by
  have whole := (of_wrapped_eq_false bare).2.2
  obtain ⟨front, back, base, x, modifier, operators, same, operated⟩ :=
    exists_operated (cutSegments_uncut ⟨(firm_text inner).balanced, whole⟩) ok
  have ends := operated.endsIn
  rw [← same] at ends
  have count : operators.length = inner.openOperators :=
    operated.trailingOperators_eq.symm.trans (trailingOperators_text whole ends)
  have extended := operated.snoc (count ▸ room) (fun _ => getLast?_ne_comparator bare ends) applied
  rw [text_arithmetic_eq, operandText_eq, bare, if_neg Bool.false_ne_true, same, List.append_assoc]
  exact denotes_iff_operated.2 ⟨_, _, _, _, _, _, rfl, extended⟩

/-- A text that is accepted ends with at most two operators. These are all that
are open in it. -/
theorem openOperators_le_of_parse
    (ok : parse (arithmetic inner op operand).text = .ok other) :
    (arithmetic inner op operand).openOperators ≤ 2 := by
  obtain ⟨front, back, base, x, modifier, operators, same, operated⟩ :=
    exists_operated (cutSegments_text rfl) ok
  have ends := operated.endsIn
  rw [← same] at ends
  have count := trailingOperators_arithmetic
    (fun bare tokens => trailingOperators_text (of_wrapped_eq_false bare).2.2) ends
  rw [← count, operated.trailingOperators_eq]
  exact operated.few

/-- **One operator more is read again exactly if parentheses stand in front of
it or there is room for it.** Else the text is refused. -/
theorem parse_apply_iff (ok : parse e.text = .ok other) (deep : e.text.nesting < nestingLimit)
    (applied : e.apply op operand = .ok combined) :
    (parse combined.text = .ok (.arithmetic other op operand) ↔
        e.wrapped = true ∨ e.openOperators < 2) ∧
      ((∃ read, parse combined.text = .ok read) ↔ e.wrapped = true ∨ e.openOperators < 2) := by
  obtain ⟨rfl, nonzero⟩ := accepted_apply applied
  have applied' : other.apply op operand = .ok (.arithmetic other op operand) := if_neg nonzero
  -- what is accepted has at most two operators, and one of them is the new one
  have room_of_parse : ∀ {read}, parse (arithmetic e op operand).text = .ok read →
      e.wrapped = true ∨ e.openOperators < 2 := by
    intro read accepted
    have few := openOperators_le_of_parse accepted
    rw [openOperators_arithmetic] at few
    cases bare : e.wrapped with
    | true => exact .inl rfl
    | false =>
      rw [bare, if_neg Bool.false_ne_true] at few
      exact .inr few
  have parse_of_room : e.wrapped = true ∨ e.openOperators < 2 →
      parse (arithmetic e op operand).text = .ok (.arithmetic other op operand) := by
    intro room
    have denotes : Denotes (arithmetic e op operand).text (.arithmetic other op operand) := by
      cases bare : e.wrapped with
      | true =>
        exact denotes_of_wrapped bare ((parse_eq_ok_iff (firm_text e).blank).1 ok).1 applied'
      | false =>
        rw [bare] at room
        exact denotes_of_unwrapped bare (room.resolve_left Bool.false_ne_true) ok applied'
    have firm := firm_text (arithmetic e op operand)
    have sum := (denotesSum_iff_of_cut (cutSegments_text rfl)).2
      ⟨firm.balanced, firm.blank, denotes⟩
    exact (parse_eq_ok_iff firm.blank).2 ⟨sum, (nesting_arithmetic_le e op operand).trans deep⟩
  exact ⟨⟨room_of_parse, parse_of_room⟩,
    ⟨fun ⟨_, accepted⟩ => room_of_parse accepted, fun room => ⟨_, parse_of_room room⟩⟩⟩

/-- A six-sided die less 1, times 2. -/
def product : Expr := .arithmetic (.arithmetic (.die .sixSided) .subtract 1) .multiply 2

/-- A pool with nothing in it but a product. -/
def loneProduct : Expr := .pool [product]

/-- Arithmetic gets parentheses behind its second operator, and a pool of the
same text does not. -/
theorem parse_apply_iff_product :
    (parse product.text = .ok product ∧ product.text.nesting < nestingLimit ∧
      product.apply .power 2 = .ok (.arithmetic product .power 2) ∧
      parse (arithmetic product .power 2).text = .ok (.arithmetic product .power 2)) ∧
    parse loneProduct.text = .ok product ∧ loneProduct.text.nesting < nestingLimit ∧
      loneProduct.apply .power 2 = .ok (.arithmetic loneProduct .power 2) ∧
      ¬ ∃ read, parse (arithmetic loneProduct .power 2).text = .ok read := by
  have ok : parse product.text = .ok product := by decide +kernel
  have ok' : parse loneProduct.text = .ok product := by decide +kernel
  have deep : product.text.nesting < nestingLimit := by decide +kernel
  have deep' : loneProduct.text.nesting < nestingLimit := by decide +kernel
  have applied : product.apply .power 2 = .ok (.arithmetic product .power 2) := rfl
  have applied' : loneProduct.apply .power 2 = .ok (.arithmetic loneProduct .power 2) := rfl
  refine ⟨⟨ok, deep, applied, ?_⟩, ok', deep', applied', fun accepted => ?_⟩
  · exact (parse_apply_iff ok deep applied).1.2 (.inl (by decide +kernel))
  · exact absurd ((parse_apply_iff ok' deep' applied').2.1 accepted) (by decide +kernel)

theorem built_loneProduct : loneProduct.Built := by
  have die : Built (.die .sixSided) := .die _ trivial
  have less : (Expr.die .sixSided).apply .subtract 1 =
      .ok (.arithmetic (.die .sixSided) .subtract 1) := rfl
  have twice : (arithmetic (.die .sixSided) .subtract 1).apply .multiply 2 = .ok product := rfl
  have member : product.Built := (die.apply less).apply twice
  exact .sum [product] (by simpa using member)

/-- Behind a pool that is written with two operators there is no room for a
third one. -/
theorem not_parse_apply : ¬ ∀ (e other combined : Expr) (op : Operator) (operand : UInt32),
    e.Built → parse e.text = .ok other → e.text.nesting < nestingLimit →
      e.apply op operand = .ok combined →
        parse combined.text = .ok (.arithmetic other op operand) := by
  intro always
  have ok : parse loneProduct.text = .ok product := by decide +kernel
  have applied : loneProduct.apply .power 2 = .ok (.arithmetic loneProduct .power 2) := rfl
  have refused : parse (arithmetic loneProduct .power 2).text =
      .error ((Fault.unexpectedToken "Power").located 8) := by decide +kernel
  have accepted := always loneProduct product _ .power 2 built_loneProduct ok (by decide +kernel)
    applied
  rw [accepted] at refused
  cases refused

end Dice.Expr
