import Dice.Proofs.Notation.Form
import Dice.Proofs.Notation.Lexed

/-!
# What a reader has read

A reader that gives a value has gone past some tokens of its stream, and these
are the tokens of a form with that value. Each reader goes on only while the
current token and the one after it could be read, so a reader that arrives at
the end of a stream has met no fault.

`Passes` says what a reader has gone past, and is put together from one token
to the next (`Passes.append`). There is one lemma for each reader of the
grammar, which takes the reader apart where it branches and finds the part of
a form that stands there.

Two things are not seen from the tokens of a part alone. A constant was read
from a number that is not negative, which is a property of the whole stream
(`Unsigned`); and behind a bare comparator there is no minus sign, since it
would have been read as that of the threshold (`ModifierForm.Before`).

Main statement: `exists_form_of_readSegment`.
-/

namespace Dice.Notation

variable {α β ε : Type} {stream next mid : TokenStream} {tokens more : List Token} {e : Expr}

/-- Two steps that give a value have both given one. Readers are taken apart by
it, step by step. -/
theorem bind_ok {x : Except ε α} {f : α → Except ε β} {b : β} (ok : x >>= f = .ok b) :
    ∃ a, x = .ok a ∧ f a = .ok b := by
  cases x with
  | error error => cases ok
  | ok a => exact ⟨a, rfl, ok⟩

theorem ok_of_toOption {x : Except ε α} {a : α} (some : x.toOption = .some a) : x = .ok a := by
  cases x with
  | error error => cases some
  | ok other => rw [Option.some.inj some]

/-- Whether a reader comes from one stream to another by the given tokens. The
fault at the end stays, and a stream from which the reader may go on leads to
another one. -/
structure TokenStream.Passes (stream : TokenStream) (tokens : List Token) (next : TokenStream) :
    Prop where
  tokens_eq : stream.tokens.map (·.token) = tokens ++ next.tokens.map (·.token)
  fault_eq : next.fault = stream.fault
  ready : stream.ready = .ok stream → next.ready = .ok next

namespace TokenStream

/-- Being ready leaves a stream as it is. It only asks whether there is a fault
ahead. -/
theorem eq_of_ready (ok : stream.ready = .ok next) : next = stream := by
  unfold ready at ok
  split at ok <;> cases ok <;> rfl

theorem passes_nil (stream : TokenStream) : stream.Passes [] stream := ⟨rfl, rfl, id⟩

/-- What is passed in two steps are the tokens of both. The end and the fault of
the stream stay. -/
theorem Passes.append (first : stream.Passes tokens mid) (second : mid.Passes more next) :
    stream.Passes (tokens ++ more) next := by
  refine ⟨?_, second.fault_eq.trans first.fault_eq, fun ready => second.ready (first.ready ready)⟩
  rw [first.tokens_eq, second.tokens_eq, List.append_assoc]

theorem passes_cons {placed : PlacedToken} {rest : List PlacedToken} {fault : Option Fault}
    {stop : Nat} {token : Token} (same : placed.token = token)
    (ok : ready ⟨rest, fault, stop⟩ = .ok next) :
    Passes ⟨placed :: rest, fault, stop⟩ [token] ⟨rest, fault, stop⟩ := by
  rw [eq_of_ready ok] at ok
  exact ⟨by simp [same], rfl, fun _ => ok⟩

/-- Going on passes the current token. -/
theorem passes_advance {token : Token} (current : stream.current = some token)
    (ok : stream.advance = .ok next) : stream.Passes [token] next := by
  obtain ⟨placed, fault, stop⟩ := stream
  cases placed with
  | nil => cases current
  | cons placed rest =>
    rw [eq_of_ready ok]
    exact passes_cons (Option.some.inj current) ok

/-- The stream ends without a fault if a reader comes to its end. Then what was
passed is all that it holds. -/
theorem Passes.holds (passes : stream.Passes tokens next) (ready : stream.ready = .ok stream)
    (ended : next.current = none) : stream.Holds tokens := by
  have none : next.tokens = [] := by
    cases left : next.tokens with
    | nil => rfl
    | cons placed rest => rw [current, left] at ended; cases ended
  have whole := passes.tokens_eq
  rw [none, List.map_nil, List.append_nil] at whole
  have ok := passes.ready ready
  refine ⟨?_, whole⟩
  rw [← passes.fault_eq]
  unfold TokenStream.ready at ok
  rw [none] at ok
  cases fault : next.fault with
  | none => rfl
  | some fault => rw [fault] at ok; cases ok

/-- What is left of a stream has no negative numbers if the stream has none.
Numbers of all parts of a segment come from one stream. -/
theorem Passes.unsigned (passes : stream.Passes tokens next) (unsigned : Unsigned stream.tokens) :
    Unsigned next.tokens := by
  intro placed mem value number
  have left : Token.number value ∈ stream.tokens.map (·.token) := by
    rw [passes.tokens_eq, ← number]
    exact List.mem_append_right _ (List.mem_map_of_mem mem)
  obtain ⟨other, mem', same⟩ := List.mem_map.1 left
  exact unsigned other mem' value same

/-- What was passed and what is left is what the stream holds. -/
theorem Passes.holds_append (passes : stream.Passes tokens next) (holds : next.Holds more) :
    stream.Holds (tokens ++ more) :=
  ⟨passes.fault_eq ▸ holds.sound, by rw [passes.tokens_eq, holds.tokens_eq]⟩

theorem Holds.nonneg (holds : stream.Holds tokens) (unsigned : Unsigned stream.tokens)
    {value : Score} (mem : .number value ∈ tokens) : 0 ≤ value.val := by
  rw [← holds.tokens_eq] at mem
  obtain ⟨placed, mem, number⟩ := List.mem_map.1 mem
  exact unsigned placed mem value number

end TokenStream

theorem nonneg_of_current (unsigned : Unsigned stream.tokens) {value : Score}
    (current : stream.current = some (.number value)) : 0 ≤ value.val := by
  obtain ⟨placed, head, number⟩ := Option.map_eq_some_iff.1 current
  exact unsigned placed (List.mem_of_head? head) value number

/-- Whether whatever a reader gives has tokens with a property, and those were
read. -/
def Reader.Consumes (reader : Reader α) (p : List Token → α → Prop) : Prop :=
  ∀ stream value next, reader stream = .ok (value, next) →
    ∃ tokens, p tokens value ∧ stream.Passes tokens next

/-- A value that was known before the current token was passed. -/
theorem passes_of_return {token : Token} {x value : α} (current : stream.current = some token)
    (ok : (do return (x, ← stream.advance) : Except ParseError (α × TokenStream)) =
      .ok (value, next)) : x = value ∧ stream.Passes [token] next := by
  obtain ⟨after, advanced, ok⟩ := bind_ok ok
  cases ok
  exact ⟨rfl, TokenStream.passes_advance current advanced⟩

/-! ## Dice -/

theorem readQuantity_consumes : readQuantity.Consumes fun tokens value =>
    ∃ quantity : Option Score, tokens = (quantity.map Token.number).toList ∧
      value = quantity.getD 1 := by
  intro stream value next ok
  unfold readQuantity at ok
  split at ok
  next quantity current =>
    obtain ⟨rfl, passes⟩ := passes_of_return current ok
    exact ⟨_, ⟨some quantity, rfl, rfl⟩, passes⟩
  next =>
    cases ok
    exact ⟨_, ⟨none, rfl, rfl⟩, stream.passes_nil⟩

/-- Whether tokens and the faces they give can come next in a list of faces.
Behind a minus sign there must be a number, and everywhere else the list may
end. -/
def FacePart.Gives : FacePart → List Token → List Score → Prop
  | .entry, tokens, faces => ∃ listed trailing,
    tokens = listedFaceTokens trailing listed ∧ faces = listed.map SignedForm.value
  | .magnitude, tokens, faces => ∃ magnitude listed trailing,
    tokens = .number magnitude :: moreFaceTokens trailing listed ∧
      faces = .clamp (-magnitude.val) :: listed.map SignedForm.value
  | .separator, tokens, faces => ∃ listed trailing,
    tokens = moreFaceTokens trailing listed ∧ faces = listed.map SignedForm.value

/-- The faces of a list are read up to its closing bracket, from wherever the
reader is in the list. -/
theorem readFaces_consumes {fault : Option Fault} {stop : Nat} {placed : List PlacedToken} :
    ∀ {part : FacePart} {seen faces : List Score},
      readFaces fault stop part seen placed = .ok (faces, next) →
        ∃ tokens given, part.Gives tokens given ∧ faces = seen.reverse ++ given ∧
          TokenStream.Passes ⟨placed, fault, stop⟩ (tokens ++ [.rightBracket]) next := by
  induction placed with
  | nil => intro part seen faces ok; cases ok
  | cons first rest ih =>
    intro part seen faces ok
    unfold readFaces at ok
    split at ok
    next close =>
      obtain ⟨after, ready, ok⟩ := bind_ok ok
      cases ok
      rw [TokenStream.eq_of_ready ready]
      exact ⟨[], [], ⟨[], false, rfl, rfl⟩, by simp, TokenStream.passes_cons close ready⟩
    next close =>
      obtain ⟨after, ready, ok⟩ := bind_ok ok
      cases ok
      rw [TokenStream.eq_of_ready ready]
      exact ⟨[], [], ⟨[], false, rfl, rfl⟩, by simp, TokenStream.passes_cons close ready⟩
    next minus =>
      obtain ⟨after, ready, ok⟩ := bind_ok ok
      have step := TokenStream.passes_cons minus ready
      obtain ⟨tokens, given, ⟨magnitude, listed, trailing, rfl, rfl⟩, rfl, passes⟩ := ih ok
      exact ⟨_, _, ⟨.minus magnitude :: listed, trailing, rfl, rfl⟩, rfl, step.append passes⟩
    next value number =>
      obtain ⟨after, ready, ok⟩ := bind_ok ok
      have step := TokenStream.passes_cons number ready
      obtain ⟨tokens, given, ⟨listed, trailing, rfl, rfl⟩, rfl, passes⟩ := ih ok
      exact ⟨_, _, ⟨.plain value :: listed, trailing, rfl, rfl⟩, by simp [SignedForm.value],
        step.append passes⟩
    next value number =>
      obtain ⟨after, ready, ok⟩ := bind_ok ok
      have step := TokenStream.passes_cons number ready
      obtain ⟨tokens, given, ⟨listed, trailing, rfl, rfl⟩, rfl, passes⟩ := ih ok
      exact ⟨_, _, ⟨value, listed, trailing, rfl, rfl⟩, by simp, step.append passes⟩
    next comma =>
      obtain ⟨after, ready, ok⟩ := bind_ok ok
      have step := TokenStream.passes_cons comma ready
      obtain ⟨tokens, given, ⟨listed, trailing, rfl, rfl⟩, rfl, passes⟩ := ih ok
      -- a comma in front of the closing bracket is a trailing one
      cases listed with
      | nil => exact ⟨_, _, ⟨[], true, rfl, rfl⟩, rfl, step.append passes⟩
      | cons face listed =>
        exact ⟨_, _, ⟨face :: listed, trailing, rfl, rfl⟩, rfl, step.append passes⟩
    next => cases ok

/-- What was built is what the constructor gives. The stream matters only for
the position of an error. -/
theorem toOption_of_built {made : Except BuildError α} {value : α}
    (ok : built stream made = .ok value) : made.toOption = some value := by
  cases made with
  | ok made => exact congrArg some (Except.ok.inj ok)
  | error error => cases ok

/-- A size was read, or there is none and the dice have six sides. The tokens
that were passed are those of the size. -/
theorem readSize_consumes : readSize.Consumes fun tokens die => ∃ size : Option SizeForm,
    tokens = size.elim [] SizeForm.tokens ∧
      size.elim (some Die.sixSided) SizeForm.die? = some die := by
  intro stream die next ok
  unfold readSize at ok
  split at ok
  next sides current =>
    obtain ⟨made, done, ok⟩ := bind_ok ok
    obtain ⟨rfl, passes⟩ := passes_of_return current ok
    exact ⟨_, ⟨some (.sides sides), rfl, toOption_of_built done⟩, passes⟩
  next current =>
    obtain ⟨rfl, passes⟩ := passes_of_return current ok
    exact ⟨_, ⟨some .fudge, rfl, rfl⟩, passes⟩
  next current =>
    obtain ⟨rfl, passes⟩ := passes_of_return current ok
    exact ⟨_, ⟨some .percent, rfl, rfl⟩, passes⟩
  next current =>
    -- a bracket, the faces up to the other bracket, and the die that they make
    obtain ⟨inside, advanced, ok⟩ := bind_ok ok
    obtain ⟨⟨faces, closed⟩, read, ok⟩ := bind_ok ok
    obtain ⟨tokens, given, ⟨listed, trailing, rfl, rfl⟩, rfl, passes⟩ := readFaces_consumes read
    obtain ⟨made, done, ok⟩ := bind_ok ok
    cases ok
    have opened := TokenStream.passes_advance current advanced
    exact ⟨_, ⟨some (.faces listed trailing), rfl, toOption_of_built done⟩,
      opened.append passes⟩
  next =>
    cases ok
    exact ⟨_, ⟨none, rfl, rfl⟩, stream.passes_nil⟩

/-- The dice in front of the modifiers, as parts of a form. Their quantity is
within the limit, as it was accepted. -/
theorem readDice_consumes : readDice.Consumes fun tokens e =>
    ∃ (quantity : Option Score) (size : Option SizeForm),
      tokens = (quantity.map Token.number).toList ++ .dice :: size.elim [] SizeForm.tokens ∧
      (size.elim (some Die.sixSided) SizeForm.die?).bind (dice? (quantity.getD 1).val.toNat) =
        some e := by
  intro stream e next ok
  unfold readDice at ok
  obtain ⟨⟨value, start⟩, counted, ok⟩ := bind_ok ok
  obtain ⟨_, ⟨quantity, rfl, rfl⟩, front⟩ := readQuantity_consumes _ _ _ counted
  dsimp only at ok
  split at ok
  next current =>
    obtain ⟨opened, advanced, ok⟩ := bind_ok ok
    have letter := TokenStream.passes_advance current advanced
    obtain ⟨⟨die, closed⟩, sized, ok⟩ := bind_ok ok
    obtain ⟨_, ⟨size, rfl, made⟩, back⟩ := readSize_consumes _ _ _ sized
    dsimp only at ok
    split at ok
    next => cases ok
    -- the limit is asked for last, when quantity and size have been read
    next fits =>
      cases ok
      have few : ((quantity.getD 1).val.toNat : Int) ≤ quantityLimit := by
        simp only [quantityLimit] at fits ⊢
        omega
      refine ⟨_, ⟨quantity, size, rfl, ?_⟩, front.append (letter.append back)⟩
      rw [made, Option.bind_some, dice?, if_pos few]
  next => cases ok

/-! ## Modifiers -/

theorem readSelection_consumes (e : Expr) (rule : Selection) :
    (readSelection e rule).Consumes fun tokens made => ∃ threshold : Option Score,
      tokens = (threshold.map Token.number).toList ∧
        (ModifierForm.selection rule threshold).applied e = some made := by
  intro stream made next ok
  unfold readSelection at ok
  split at ok
  next threshold current =>
    obtain ⟨after, advanced, ok⟩ := bind_ok ok
    obtain ⟨selected, done, ok⟩ := bind_ok ok
    cases ok
    exact ⟨_, ⟨some threshold, rfl, toOption_of_built done⟩,
      TokenStream.passes_advance current advanced⟩
  next =>
    obtain ⟨selected, done, ok⟩ := bind_ok ok
    cases ok
    exact ⟨_, ⟨none, rfl, toOption_of_built done⟩, stream.passes_nil⟩

theorem readComparator_consumes : readComparator.Consumes fun tokens c =>
    tokens = (c.map Token.comparator).toList := by
  intro stream c next ok
  unfold readComparator at ok
  split at ok
  next c current =>
    obtain ⟨rfl, passes⟩ := passes_of_return current ok
    exact ⟨_, rfl, passes⟩
  next =>
    cases ok
    exact ⟨_, rfl, stream.passes_nil⟩

/-- Without a comparator only a number is a threshold. A minus sign is left for
the operators. -/
theorem readThreshold_consumes_plain : (readThreshold none).Consumes fun tokens threshold =>
    tokens = (threshold.map Token.number).toList := by
  intro stream threshold next ok
  unfold readThreshold at ok
  split at ok
  next value current =>
    obtain ⟨rfl, passes⟩ := passes_of_return current ok
    exact ⟨_, rfl, passes⟩
  next none _ => cases none
  next =>
    cases ok
    exact ⟨_, rfl, stream.passes_nil⟩

/-- After a comparator no minus sign is left in the place of a threshold. It was
taken for a sign, and a number had to follow. -/
theorem readThreshold_consumes_signed {c : Comparator} {threshold : Option Score}
    (ok : readThreshold (some c) stream = .ok (threshold, next)) :
    ∃ form : Option SignedForm, threshold = form.map SignedForm.value ∧
      stream.Passes (form.elim [] SignedForm.tokens) next ∧
        (form = none → next.current ≠ some (.operator .subtract)) := by
  unfold readThreshold at ok
  split at ok
  next value current =>
    obtain ⟨rfl, passes⟩ := passes_of_return current ok
    exact ⟨some (.plain value), rfl, passes, by simp⟩
  next minus =>
    obtain ⟨after, advanced, ok⟩ := bind_ok ok
    have sign := TokenStream.passes_advance minus advanced
    split at ok
    next value current =>
      obtain ⟨rfl, passes⟩ := passes_of_return current ok
      exact ⟨some (.minus value), rfl, sign.append passes, by simp⟩
    next => cases ok
  next other =>
    cases ok
    exact ⟨none, rfl, stream.passes_nil, fun _ minus => other c rfl minus⟩

/-- Whether tokens can follow a modifier: a minus sign after a bare comparator
would be taken for that of its threshold. -/
def ModifierForm.Before (form : Option ModifierForm) (token : Option Token) : Prop :=
  ∀ c, form = some (.comparison c none) → token ≠ some (.operator .subtract)

/-- Behind the mark of an explosion there may be a comparator, and a threshold
with a sign only behind that. -/
theorem readExplosion_consumes {made : Expr} (ok : readExplosion e stream = .ok (made, next)) :
    ∃ form : ModifierForm, form.applied e = some made ∧
      (∃ tokens, form.tokens = .explode :: tokens ∧ stream.Passes tokens next) ∧
        ModifierForm.Before (some form) next.current := by
  unfold readExplosion at ok
  obtain ⟨⟨c, compared⟩, read, ok⟩ := bind_ok ok
  obtain ⟨_, rfl, front⟩ := readComparator_consumes _ _ _ read
  obtain ⟨⟨threshold, limited⟩, read, ok⟩ := bind_ok ok
  obtain ⟨exploded, done, ok⟩ := bind_ok ok
  cases ok
  cases c with
  | none =>
    obtain ⟨_, rfl, back⟩ := readThreshold_consumes_plain _ _ _ read
    exact ⟨.explosion threshold, toOption_of_built done, ⟨_, rfl, front.append back⟩, by
      simp [ModifierForm.Before]⟩
  | some c =>
    obtain ⟨form, rfl, back, left⟩ := readThreshold_consumes_signed read
    refine ⟨.comparison c form, toOption_of_built done, ⟨_, rfl, front.append back⟩, ?_⟩
    intro other same
    cases same
    exact left rfl

/-- A modifier was read, or there is none and the expression stays as it is.
What comes next tells operators from a sign. -/
theorem readModifier_consumes {made : Expr} (ok : readModifier e stream = .ok (made, next)) :
    ∃ form : Option ModifierForm, form.elim (some e) (·.applied e) = some made ∧
      stream.Passes (form.elim [] ModifierForm.tokens) next ∧
        ModifierForm.Before form next.current := by
  unfold readModifier at ok
  split at ok
  -- the letters of a rule
  next rule current =>
    obtain ⟨after, advanced, ok⟩ := bind_ok ok
    have letters := TokenStream.passes_advance current advanced
    obtain ⟨_, ⟨threshold, rfl, applied⟩, passes⟩ := readSelection_consumes e rule _ _ _ ok
    exact ⟨some (.selection rule threshold), applied, letters.append passes, by
      simp [ModifierForm.Before]⟩
  -- the mark of an explosion
  next current =>
    obtain ⟨after, advanced, ok⟩ := bind_ok ok
    have mark := TokenStream.passes_advance current advanced
    obtain ⟨form, applied, ⟨tokens, same, passes⟩, before⟩ := readExplosion_consumes ok
    refine ⟨some form, applied, ?_, before⟩
    rw [Option.elim_some, same]
    exact mark.append passes
  next =>
    cases ok
    exact ⟨none, rfl, TokenStream.passes_nil _, by simp [ModifierForm.Before]⟩

/-! ## Operators -/

/-- A number that is allowed as a constant is that of a constant. -/
theorem clamp_toNat_ofNat {operand : Score} (nonneg : 0 ≤ operand.val)
    (fits : ¬ operandLimit < operand.val) :
    Score.clamp (UInt32.ofNat operand.val.toNat).toNat = operand := by
  have small : operand.val.toNat < 2 ^ 32 := by
    simp only [operandLimit] at fits
    omega
  rw [UInt32.toNat_ofNat_of_lt' small, Int.toNat_of_nonneg nonneg, Score.clamp_val]

/-- Operators were read with their constants, no more of them than may be read.
The induction is on how many may still come. -/
theorem readOperators_consumes {made : Expr} : ∀ {count : Nat} {e : Expr} {stream : TokenStream},
    Unsigned stream.tokens → readOperators count e stream = .ok (made, next) →
      ∃ operators, operators.length ≤ count ∧ operate? e operators = some made ∧
        stream.Passes (operatorTokens operators) next := by
  intro count
  induction count with
  | zero =>
    intro e stream unsigned ok
    cases ok
    exact ⟨[], by simp, rfl, TokenStream.passes_nil _⟩
  | succ count ih =>
    intro e stream unsigned ok
    unfold readOperators at ok
    split at ok
    next op current =>
      obtain ⟨after, advanced, ok⟩ := bind_ok ok
      have symbol := TokenStream.passes_advance current advanced
      split at ok
      next operand current =>
        obtain ⟨rest, advanced, ok⟩ := bind_ok ok
        have number := TokenStream.passes_advance current advanced
        split at ok
        next => cases ok
        next fits =>
          obtain ⟨combined, done, ok⟩ := bind_ok ok
          have unsigned := symbol.unsigned unsigned
          have exact := clamp_toNat_ofNat (nonneg_of_current unsigned current) fits
          -- the tokens behind the constant are those of a stream that was unsigned all along
          obtain ⟨operators, few, operated, passes⟩ := ih (number.unsigned unsigned) ok
          refine ⟨(op, .ofNat operand.val.toNat) :: operators, Nat.succ_le_succ few, ?_, ?_⟩
          · rw [operate?, toOption_of_built done, Option.bind_some, operated]
          · rw [operatorTokens, exact]
            exact symbol.append (number.append passes)
      next => cases ok
    next =>
      cases ok
      exact ⟨[], by simp, rfl, TokenStream.passes_nil _⟩

/-! ## Segments -/

/-- What is read as modifiers has a form of the same tokens that makes the same
of the expression. -/
theorem exists_form_of_readModifiers {made : Expr} (ready : stream.ready = .ok stream)
    (unsigned : Unsigned stream.tokens) (ok : readModifiers e stream = .ok made) :
    ∃ (modifier : Option ModifierForm) (operators : List (Operator × UInt32)),
      stream.Holds (modifier.elim [] ModifierForm.tokens ++ operatorTokens operators) ∧
      (modifier.elim (some e) (·.applied e)).bind (operate? · operators) = some made ∧
      operators.length ≤ 2 ∧ ∀ c, modifier = some (.comparison c none) →
        operators.head?.map (·.1) ≠ some .subtract := by
  unfold readModifiers at ok
  obtain ⟨⟨modified, afterModifier⟩, read, ok⟩ := bind_ok ok
  obtain ⟨modifier, applied, front, before⟩ := readModifier_consumes read
  obtain ⟨⟨combined, afterOperators⟩, read, ok⟩ := bind_ok ok
  obtain ⟨operators, few, operated, back⟩ := readOperators_consumes (front.unsigned unsigned) read
  dsimp only at ok
  split at ok
  next ended =>
    cases ok
    refine ⟨modifier, operators, (front.append back).holds ready ended, ?_, few, ?_⟩
    · rw [applied, Option.bind_some, operated]
    -- a minus sign behind a bare comparator would have been read as that of a threshold
    · intro c bare minus
      refine before c bare ?_
      cases operators with
      | nil => cases minus
      | cons first rest =>
        have current : afterModifier.current = some (.operator first.1) := by
          rw [TokenStream.current, ← List.head?_map, back.tokens_eq]
          rfl
        rw [current, show first.1 = .subtract from Option.some.inj minus]
  next => cases ok

/-- **What is read as a segment has a form of the same tokens and the same
expression.** -/
theorem exists_form_of_readSegment (ready : stream.ready = .ok stream)
    (unsigned : Unsigned stream.tokens) (ok : readSegment stream = .ok e) :
    ∃ form : SegmentForm, stream.Holds form.tokens ∧ form.expr? = some e := by
  unfold readSegment at ok
  obtain ⟨⟨dice, afterDice⟩, read, ok⟩ := bind_ok ok
  obtain ⟨_, ⟨quantity, size, rfl, counted⟩, front⟩ := readDice_consumes _ _ _ read
  obtain ⟨modifier, operators, back, made, few, unmistaken⟩ :=
    exists_form_of_readModifiers (front.ready ready) (front.unsigned unsigned) ok
  refine ⟨⟨quantity, size, modifier, operators, few, unmistaken⟩, front.holds_append back, ?_⟩
  show (((size.elim (some Die.sixSided) SizeForm.die?).bind _).bind _).bind _ = _
  rw [counted, Option.bind_some, made]

end Dice.Notation
