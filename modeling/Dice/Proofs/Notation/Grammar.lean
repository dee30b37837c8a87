import Dice.Proofs.Notation.Ahead

/-!
# Reading the tokens of a segment

What the readers of the grammar make of the tokens of a form. In a stream
without a fault a reader depends on nothing but the tokens, so the outcome is
stated as an option: the value read, or none where a constructor or a limit
refuses it. Each part is read up to where the next one begins, since no part
begins with a token that the part before it could still take.

`Yields` says so of one reader, some tokens, and what may stand behind them.
There is one lemma for each part of a form, in the order of the grammar, and
each asks of the rest only what its reader looks at: no number behind a part
that may end with one, no size behind dice without one, and no minus sign
behind a comparator without a threshold.

What is written for an expression is a form as well, so the lemmas about
written parts are cases of those about forms.

Main statements: `readSegment_form` and `readModifiers_form`, the tokens of a
form are read as its expression, and `readSegment_eq` and `readModifiers_eq`
for what is written.
-/

namespace Dice.Notation

variable {α : Type} {stream : TokenStream} {token : Token} {tokens rest : List Token}
  {operators : List (Operator × UInt32)}

namespace TokenStream

/-- The token at the front of a stream is the first one that it holds. At the
end there is none on either side. -/
theorem Holds.current_eq (h : stream.Holds tokens) : stream.current = tokens.head? := by
  rw [current, ← h.tokens_eq, List.head?_map]

theorem ready_of_sound (h : stream.fault = none) : stream.ready = .ok stream := by
  unfold ready
  split
  next => rfl
  next => rfl
  next fault _ => rw [h] at fault; cases fault

theorem Holds.ready (h : stream.Holds tokens) : stream.ready = .ok stream := ready_of_sound h.sound

/-- Going on takes the first token away, and nothing else. There is no fault
that could keep the reader from it. -/
theorem Holds.advance (h : stream.Holds (token :: rest)) :
    ∃ next, stream.advance = .ok next ∧ next.Holds rest :=
  ⟨_, advance_of_sound h.sound, h.sound, by simp [List.map_tail, h.tokens_eq]⟩

end TokenStream

/-- Whether a reader gave a value and left the given tokens, or nothing if there
is none. -/
def Left (result : Except ParseError (α × TokenStream)) (rest : List Token) :
    Option α → Prop
  | some value => ∃ next, result = .ok (value, next) ∧ next.Holds rest
  | none => ∃ error, result = .error error

/-- What a reader makes of the tokens before the rest of a stream: a value, with
the rest left, or a refusal, whatever the fault. -/
def Reader.Yields (reader : Reader α) (tokens rest : List Token) (outcome : Option α) : Prop :=
  ∀ stream, stream.Holds (tokens ++ rest) → Left (reader stream) rest outcome

/-! ## Dice -/

/-- A list of faces is read up to its closing bracket. It is the case of
`stepsTo_faces` without a fault behind the list. -/
theorem readFaces_form (listed : List SignedForm) (trailing : Bool) (stop : Nat)
    {placed : List PlacedToken}
    (holds : placed.map (·.token) = listedFaceTokens trailing listed ++ .rightBracket :: rest) :
    ∃ after : List PlacedToken, after.map (·.token) = rest ∧
      readFaces none stop .entry [] placed =
        .ok (listed.map SignedForm.value, ⟨after, none, stop⟩) := by
  rw [List.append_cons] at holds
  obtain ⟨front, after, rfl, here, there⟩ := List.map_eq_append_iff.1 holds
  have read := stepsTo_faces trailing listed front here ⟨after, none, stop⟩
  rw [TokenStream.ready_of_sound rfl, TokenStream.ready_of_sound rfl] at read
  exact ⟨after, there, read⟩

/-- The number in front of dice is read if there is one, and else there is one
die. -/
theorem readQuantity_form (quantity : Option Score) (detached : Detached rest) :
    readQuantity.Yields (quantity.map Token.number).toList rest (some (quantity.getD 1)) := by
  intro stream holds
  unfold readQuantity
  cases quantity with
  | some quantity =>
    obtain ⟨next, advanced, holds'⟩ := holds.advance
    refine ⟨next, ?_, holds'⟩
    rw [holds.current_eq]
    simp only [Option.map_some, Option.toList_some, List.singleton_append, List.head?_cons,
      advanced]
    rfl
  | none =>
    rw [Option.map_none, Option.toList_none, List.nil_append] at holds
    refine ⟨stream, ?_, holds⟩
    rw [holds.current_eq]
    split
    next number => cases detached _ number
    next => rfl

/-- The size of dice is read if there is one, and else the dice have six sides.
The rest must not begin with what could be a size. -/
theorem readSize_form (size : Option SizeForm) (sizeless : size = none → Sizeless rest) :
    readSize.Yields (size.elim [] SizeForm.tokens) rest
      (size.elim (some Die.sixSided) SizeForm.die?) := by
  intro stream holds
  cases size with
  | none =>
    rw [Option.elim_none, List.nil_append] at holds
    exact ⟨stream, readSize_of_sizeless (holds.tokens_eq ▸ sizeless rfl), holds⟩
  | some size =>
    unfold readSize
    cases size with
    | sides count =>
      obtain ⟨next, advanced, holds'⟩ := holds.advance
      rw [holds.current_eq]
      simp only [Option.elim_some, SizeForm.tokens, List.singleton_append, List.head?_cons,
        SizeForm.die?]
      cases Die.ofSides count with
      | error error => exact ⟨_, rfl⟩
      | ok die => exact ⟨next, by rw [advanced]; rfl, holds'⟩
    | fudge | percent =>
      obtain ⟨next, advanced, holds'⟩ := holds.advance
      rw [holds.current_eq]
      exact ⟨next, by rw [advanced]; rfl, holds'⟩
    -- the list is read up to its bracket, and then the die may still be refused
    | faces listed trailing =>
      simp only [Option.elim_some, SizeForm.tokens, List.cons_append, List.append_assoc] at holds
      obtain ⟨inside, advanced, holds'⟩ := holds.advance
      obtain ⟨after, holds'', read⟩ :=
        readFaces_form listed trailing inside.stop holds'.tokens_eq
      rw [holds.current_eq]
      simp only [List.head?_cons, advanced, bind, Except.bind]
      rw [holds'.sound, read]
      simp only [Option.elim_some, SizeForm.die?]
      cases Die.ofFaces (listed.map SignedForm.value) with
      | error error => exact ⟨_, rfl⟩
      | ok die => exact ⟨⟨after, none, inside.stop⟩, rfl, rfl, holds''⟩

/-- Dice are read with their number, their letter and their size. The number is
held against its limit when all of them are read. -/
theorem readDice_form (form : SegmentForm) (sizeless : Sizeless rest) :
    readDice.Yields form.diceTokens rest form.dice? := by
  intro stream holds
  rw [SegmentForm.diceTokens, List.append_assoc, List.cons_append] at holds
  obtain ⟨start, counted, holds⟩ :=
    readQuantity_form form.quantity (by simp [Detached, Token.isNumber]) stream holds
  obtain ⟨size, advanced, holds'⟩ := holds.advance
  have sized := readSize_form form.size (fun _ => sizeless) size holds'
  unfold readDice
  simp only [counted, bind, Except.bind, holds.current_eq, List.head?_cons, advanced]
  rw [SegmentForm.dice?]
  cases die : form.size.elim (some Die.sixSided) SizeForm.die? with
  | none =>
    rw [die] at sized
    obtain ⟨error, failed⟩ := sized
    rw [failed]
    exact ⟨error, rfl⟩
  | some die' =>
    rw [die] at sized
    obtain ⟨next, read, holds''⟩ := sized
    rw [read]
    have limited : quantityLimit < (form.quantity.getD 1).val ↔
        ¬ ((form.quantity.getD 1).val.toNat : Int) ≤ quantityLimit := by
      simp only [quantityLimit]
      omega
    simp only [Option.bind_some, dice?, limited]
    -- the limit is the only thing that is checked once the die is read
    by_cases fits : ((form.quantity.getD 1).val.toNat : Int) ≤ quantityLimit
    · rw [if_pos fits, if_neg (not_not_intro fits)]
      exact ⟨next, rfl, holds''⟩
    · rw [if_neg fits, if_pos fits]
      exact ⟨_, rfl⟩

/-! ## Modifiers -/

/-- What a part that may be built makes of the rest of a stream. If it is
refused, nothing is said of the stream. -/
theorem left_built {value : Except BuildError α} {next : TokenStream} (holds : next.Holds rest) :
    Left (do return (← built next value, next)) rest value.toOption := by
  cases value with
  | ok value => exact ⟨next, rfl, holds⟩
  | error error => exact ⟨_, rfl⟩

/-- What is behind the rule of a selection is its threshold, or nothing. Without
a threshold the rest must not begin with a number. -/
theorem readSelection_form (rule : Selection) (threshold : Option Score) (detached : Detached rest)
    (e : Expr) : (readSelection e rule).Yields (threshold.map Token.number).toList rest
      ((ModifierForm.selection rule threshold).applied e) := by
  intro stream holds
  unfold readSelection
  cases threshold with
  | some threshold =>
    obtain ⟨next, advanced, holds'⟩ := holds.advance
    rw [holds.current_eq]
    simp only [Option.map_some, Option.toList_some, List.singleton_append, List.head?_cons,
      advanced]
    exact left_built holds'
  | none =>
    rw [Option.map_none, Option.toList_none, List.nil_append] at holds
    rw [holds.current_eq]
    split
    next number => cases detached _ number
    next => exact left_built holds

/-- Whether tokens can stand behind a comparator without a threshold. A minus
sign there would be taken for that of a threshold. -/
def Closed (tokens : List Token) : Prop :=
  Detached tokens ∧ ∀ token ∈ tokens.head?, token ≠ .operator .subtract

/-- Without a threshold nothing is read, and nothing may look like one. Which
tokens do so depends on whether there is a comparator. -/
theorem readThreshold_none {c : Option Comparator} (detached : Detached rest)
    (closed : c = none ∨ Closed rest) : (readThreshold c).Yields [] rest (some none) := by
  intro stream holds
  rw [List.nil_append] at holds
  refine ⟨stream, ?_, holds⟩
  unfold readThreshold
  rw [holds.current_eq]
  split
  next _ number => cases detached _ number
  next c minus =>
    rcases closed with none | closed
    · cases none
    · exact absurd rfl (closed.2 _ minus)
  next => rfl

theorem readComparator_some (c : Comparator) :
    readComparator.Yields [.comparator c] rest (some (some c)) := by
  intro stream holds
  obtain ⟨next, advanced, holds'⟩ := holds.advance
  refine ⟨next, ?_, holds'⟩
  unfold readComparator
  simp only [holds.current_eq, List.cons_append, List.head?_cons, advanced]
  rfl

theorem readComparator_none (other : ∀ c, rest.head? ≠ some (.comparator c)) :
    readComparator.Yields [] rest (some none) := by
  intro stream holds
  rw [List.nil_append] at holds
  refine ⟨stream, ?_, holds⟩
  unfold readComparator
  rw [holds.current_eq]
  split
  next c found => exact absurd found (other c)
  next => rfl

theorem readThreshold_plain (c : Option Comparator) (threshold : Score) :
    (readThreshold c).Yields [.number threshold] rest (some (some threshold)) := by
  intro stream holds
  obtain ⟨next, advanced, holds'⟩ := holds.advance
  refine ⟨next, ?_, holds'⟩
  unfold readThreshold
  simp only [holds.current_eq, List.singleton_append, List.head?_cons, advanced]
  rfl

/-- A minus sign is read as that of a threshold only behind a comparator. -/
theorem readThreshold_minus (c : Comparator) (threshold : Score) :
    (readThreshold (some c)).Yields [.operator .subtract, .number threshold] rest
      (some (some (.clamp (-threshold.val)))) := by
  intro stream holds
  obtain ⟨minus, advanced, holds'⟩ := holds.advance
  obtain ⟨next, advanced', holds''⟩ := holds'.advance
  refine ⟨next, ?_, holds''⟩
  unfold readThreshold
  simp only [holds.current_eq, List.cons_append, List.head?_cons, advanced, bind, Except.bind,
    holds'.current_eq, advanced']
  rfl

/-- A threshold is read with its sign, if there is one. The three cases are
those of a signed number and of none. -/
theorem readThreshold_form (c : Comparator) (threshold : Option SignedForm)
    (closed : threshold = none → Closed rest) :
    (readThreshold (some c)).Yields (threshold.elim [] SignedForm.tokens) rest
      (some (threshold.map SignedForm.value)) := by
  cases threshold with
  | none => exact readThreshold_none (closed rfl).1 (.inr (closed rfl))
  | some signed =>
    cases signed with
    | plain threshold => exact readThreshold_plain (some c) threshold
    | minus threshold => exact readThreshold_minus c threshold

/-- What is behind an explosion is built from what its comparator and its
threshold are read as. -/
theorem readExplosion_of_yields {c : Option Comparator} {threshold : Option Score}
    {front : List Token} (compared : readComparator.Yields front (tokens ++ rest) (some c))
    (limited : (readThreshold c).Yields tokens rest (some threshold)) (e : Expr) :
    (readExplosion e).Yields (front ++ tokens) rest
      (e.explode (c.getD .equals) threshold).toOption := by
  intro stream holds
  rw [List.append_assoc] at holds
  obtain ⟨start, first, holds⟩ := compared stream holds
  obtain ⟨next, second, holds⟩ := limited start holds
  unfold readExplosion
  simp only [first, second, bind, Except.bind]
  exact left_built holds

/-- Behind the mark of an explosion there may be a threshold without a
comparator. -/
theorem readExplosion_form (threshold : Option Score) (detached : Detached rest)
    (other : ∀ c, rest.head? ≠ some (.comparator c)) (e : Expr) :
    (readExplosion e).Yields (threshold.map Token.number).toList rest
      ((ModifierForm.explosion threshold).applied e) := by
  have limited : (readThreshold none).Yields (threshold.map Token.number).toList rest
      (some threshold) := by
    cases threshold with
    | none => exact readThreshold_none detached (.inl rfl)
    | some threshold => exact readThreshold_plain none threshold
  refine readExplosion_of_yields (readComparator_none ?_) limited e
  cases threshold with
  | none => exact other
  | some threshold => simp

/-- No operator is a number or a comparator. -/
theorem head?_operatorTokens (operators : List (Operator × UInt32)) :
    (operatorTokens operators).head? = operators.head?.map fun first => .operator first.1 := by
  cases operators <;> rfl

/-- Operators may stand behind a bare comparator if the first one is no minus
sign. -/
theorem closed_of_unmistaken (unmistaken : operators.head?.map (·.1) ≠ some .subtract) :
    Closed (operatorTokens operators) := by
  refine ⟨detached_operatorTokens operators, fun token head minus => unmistaken ?_⟩
  cases operators with
  | nil => cases head
  | cons first rest =>
    rw [head?_operatorTokens] at head
    rw [minus] at head
    simpa using head

/-- At most one modifier is read, and the operators behind it are left. The
condition on the first of them is needed only for a bare comparator. -/
theorem readModifier_form (m : Option ModifierForm)
    (unmistaken : ∀ c, m = some (.comparison c none) → operators.head?.map (·.1) ≠ some .subtract)
    (e : Expr) : (readModifier e).Yields (m.elim [] ModifierForm.tokens) (operatorTokens operators)
      (m.elim (some e) (·.applied e)) := by
  intro stream holds
  have detached := detached_operatorTokens operators
  -- an operator is no comparator, so a bare mark stays a bare mark
  have other : ∀ c, (operatorTokens operators).head? ≠ some (.comparator c) := by
    rw [head?_operatorTokens]
    cases operators <;> simp
  unfold readModifier
  cases m with
  | none =>
    rw [Option.elim_none, List.nil_append] at holds
    refine ⟨stream, ?_, holds⟩
    rw [holds.current_eq, head?_operatorTokens]
    cases operators <;> rfl
  | some m =>
    rw [Option.elim_some] at holds
    cases m with
    | selection rule threshold =>
      obtain ⟨start, advanced, holds'⟩ := holds.advance
      rw [holds.current_eq]
      simp only [ModifierForm.tokens, List.cons_append, List.head?_cons, advanced]
      exact readSelection_form rule threshold detached e start holds'
    | explosion threshold =>
      obtain ⟨start, advanced, holds'⟩ := holds.advance
      rw [holds.current_eq]
      simp only [ModifierForm.tokens, List.cons_append, List.head?_cons, advanced]
      exact readExplosion_form threshold detached other e start holds'
    | comparison c threshold =>
      obtain ⟨start, advanced, holds'⟩ := holds.advance
      rw [holds.current_eq]
      simp only [ModifierForm.tokens, List.cons_append, List.head?_cons, advanced]
      have closed : threshold = none → Closed (operatorTokens operators) := fun bare =>
        closed_of_unmistaken (unmistaken c (by rw [bare]))
      have limited := readThreshold_form c threshold closed
      exact readExplosion_of_yields (readComparator_some c) limited e start holds'

/-! ## Operators -/

/-- Operators are read up to the end, if there are no more of them than may be
read. -/
theorem readOperators_eq {count : Nat}
    (few : operators.length ≤ count) (e : Expr) :
    (readOperators count e).Yields (operatorTokens operators) [] (operate? e operators) := by
  induction operators generalizing count e with
  | nil =>
    intro stream holds
    refine ⟨stream, ?_, holds⟩
    cases count with
    | zero => rfl
    | succ count =>
      unfold readOperators
      rw [holds.current_eq]
      rfl
  | cons first rest ih =>
    obtain ⟨op, operand⟩ := first
    -- there is room for this operator, and for all but it behind it
    obtain ⟨count, rfl⟩ : ∃ n, count = n + 1 := ⟨count - 1, by simp at few; omega⟩
    intro stream holds
    simp only [operatorTokens, List.append_nil] at holds
    obtain ⟨start, advanced, holds'⟩ := holds.advance
    obtain ⟨next, advanced', holds''⟩ := holds'.advance
    have value := Score.val_clamp_operand operand
    have small : ¬ operandLimit < (Score.clamp operand.toNat).val := by
      have := operand.toNat_lt
      simp only [value, operandLimit]
      omega
    have exact : UInt32.ofNat (Score.clamp operand.toNat).val.toNat = operand := by simp [value]
    unfold readOperators
    simp only [holds.current_eq, List.head?_cons, advanced, bind, Except.bind,
      holds'.current_eq, advanced', small, if_false, exact, operate?]
    cases e.apply op operand with
    | error error => exact ⟨_, rfl⟩
    | ok combined => exact ih (by simpa using few) combined next (by simpa using holds'')

/-! ## Segments -/

/-- **The modifiers of an expression are read one after the other.** What is
made of the expression is refused if any of them is. -/
theorem readModifiers_form (m : Option ModifierForm) (few : operators.length ≤ 2)
    (unmistaken : ∀ c, m = some (.comparison c none) → operators.head?.map (·.1) ≠ some .subtract)
    (e : Expr) (holds : stream.Holds (m.elim [] ModifierForm.tokens ++ operatorTokens operators)) :
    (readModifiers e stream).toOption =
      (m.elim (some e) (·.applied e)).bind (operate? · operators) := by
  have first := readModifier_form m unmistaken e stream holds
  unfold readModifiers
  cases applied : m.elim (some e) (·.applied e) with
  -- a modifier that is refused makes the segment refused, whatever is behind it
  | none =>
    rw [applied] at first
    obtain ⟨error, failed⟩ := first
    simp only [failed]
    rfl
  | some inner =>
    rw [applied] at first
    obtain ⟨start, read, holds⟩ := first
    have second := readOperators_eq few inner start (by simpa using holds)
    simp only [read, bind, Except.bind, Option.bind_some]
    cases operated : operate? inner operators with
    | none =>
      rw [operated] at second
      obtain ⟨error, failed⟩ := second
      simp only [failed]
      rfl
    | some outer =>
      rw [operated] at second
      obtain ⟨next, read, holds⟩ := second
      simp only [read, holds.current_eq]
      rfl

theorem sizeless_form (form : SegmentForm) :
    Sizeless (form.modifier.elim [] ModifierForm.tokens ++ operatorTokens form.operators) := by
  cases form.modifier with
  | none =>
    rw [Option.elim_none, List.nil_append]
    refine ⟨detached_operatorTokens _, ?_⟩
    rw [head?_operatorTokens]
    cases form.operators <;> simp
  | some m => cases m <;> simp [Sizeless, Detached, ModifierForm.tokens, Token.isNumber]

/-- **The tokens of a form are read as its expression, or refused if it has
none.** -/
theorem readSegment_form (form : SegmentForm) (holds : stream.Holds form.tokens) :
    (readSegment stream).toOption = form.expr? := by
  have first := readDice_form form (sizeless_form form) stream holds
  unfold readSegment
  rw [SegmentForm.expr?]
  cases counted : form.dice? with
  | none =>
    rw [counted] at first
    obtain ⟨error, failed⟩ := first
    simp only [failed]
    rfl
  | some inner =>
    rw [counted] at first
    obtain ⟨start, read, holds⟩ := first
    simp only [read, bind, Except.bind, Option.bind_some]
    exact readModifiers_form form.modifier form.few form.unmistaken inner holds

/-! ## What is written -/

/-- The modifiers of an expression are read as they are written. Written
modifiers are one form of several that are read alike. -/
theorem readModifiers_eq {m : Option Modifier} (legible : ∀ x ∈ m, x.Legible)
    (few : operators.length ≤ 2) (bare : ∀ x ∈ m, x.Bare → operators = []) (e : Expr)
    (holds : stream.Holds (modifierTokens m ++ operatorTokens operators)) :
    (readModifiers e stream).toOption = (modify? m e).bind (operate? · operators) := by
  rw [← ModifierForm.elim_tokens_written] at holds
  rw [← ModifierForm.elim_applied_written legible]
  exact readModifiers_form _ few (ModifierForm.unmistaken_written bare) e holds

/-- **A segment that begins with dice is read as it is written.** If its
quantity is past the limit or a node is refused, so is the segment. -/
theorem readSegment_eq {d : Die} (legibleDie : LegibleDie d) (quantity : Nat)
    {m : Option Modifier} (legible : ∀ x ∈ m, x.Legible) (few : operators.length ≤ 2)
    (bare : ∀ x ∈ m, x.Bare → operators = [])
    (holds : stream.Holds
      (diceTokens quantity d ++ (modifierTokens m ++ operatorTokens operators))) :
    (readSegment stream).toOption =
      ((dice? quantity d).bind (modify? m)).bind (operate? · operators) := by
  rw [← SegmentForm.tokens_written few bare] at holds
  rw [readSegment_form _ holds, SegmentForm.expr?_written quantity legibleDie legible]

end Dice.Notation
