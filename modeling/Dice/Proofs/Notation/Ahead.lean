import Dice.Proofs.Notation.Consumed
import Dice.Proofs.Notation.Spelt

/-!
# Reading ahead of a fault

The reader of a stream is one token ahead, so it can meet a fault in the text
behind some tokens before it has read these. If the tokens themselves are
accepted that makes no difference. Reading them comes down to what is read
next, whatever is behind them (`StepsTo`), because the fault that is met early
is the one that would be met at the start of the rest.

That goes from one token to the next, so each part of dice has it: the
quantity, the faces in their brackets and the other sizes. `StepsTo` is put
together like the tokens (`StepsTo.append`), and goes through what is done
with the value that was read (`StepsTo.bind`).

A size may be left out, and then the rest of the stream decides: it must not
begin with a token that could be one (`Sizeless`).

Main statement: `ready_behind_bind_readSegment`.
-/

namespace Dice.Notation

variable {α β : Type} {stream : TokenStream} {placed : List PlacedToken}

/-! ## Streams with tokens in front -/

namespace TokenStream

/-- A fault that is met with some tokens in front is met without them. Tokens in
front can only put it off. -/
theorem ready_of_behind {error : ParseError}
    (failed : (stream.behind placed).ready = .error error) : stream.ready = .error error := by
  obtain ⟨tokens, fault, stop⟩ := stream
  -- a reader looks no further than two tokens, so at most one is in front of the fault
  match placed, tokens, fault with
  | [], _, _ => exact failed
  | _ :: _ :: _, _, _ | [_], _ :: _, _ | [_], [], none => cases failed
  | [_], [], some fault => exact failed

/-- What a reader makes of some tokens may be said of a stream that is ready.
The tokens are there, and whether the rest is ready is asked once. -/
theorem ready_behind_bind {reader next : TokenStream → Except ParseError α}
    (step : reader (stream.behind placed) = stream.ready >>= next) :
    ((stream.behind placed).ready >>= reader) = stream.ready >>= next := by
  cases ahead : (stream.behind placed).ready with
  | error error =>
    rw [ready_of_behind ahead]
    rfl
  | ok ready =>
    obtain rfl := eq_of_ready ahead
    exact step

/-- Being ready leaves a stream as it is. -/
theorem ready_bind_self (next : TokenStream → Except ParseError α) :
    (stream.ready >>= fun _ => next stream) = stream.ready >>= next := by
  cases ahead : stream.ready with
  | error error => rfl
  | ok ready =>
    obtain rfl := eq_of_ready ahead
    rfl

end TokenStream

open TokenStream

/-- Whether reading some tokens comes down to what is read next, whatever is
behind them. -/
def StepsTo (tokens : List Token) (reader next : TokenStream → Except ParseError α) : Prop :=
  ∀ placed : List PlacedToken, placed.map (·.token) = tokens → ∀ stream : TokenStream,
    ((stream.behind placed).ready >>= reader) = stream.ready >>= next

namespace StepsTo

variable {token : Token} {tokens more : List Token}
  {reader next last : TokenStream → Except ParseError α}

/-- A single token is read so if its reader takes it and makes the rest ready.
All steps are put together from steps of this kind. -/
theorem of_token (step : ∀ stop (stream : TokenStream),
    reader (stream.behind [⟨token, stop⟩]) = stream.ready >>= next) :
    StepsTo [token] reader next := by
  intro placed same stream
  obtain ⟨⟨token, stop⟩, rfl, rfl⟩ := List.map_eq_singleton_iff.1 same
  exact ready_behind_bind (step stop stream)

/-- Tokens behind others are read where reading those has come to. This is how
the readers of a form follow each other. -/
theorem append (first : StepsTo tokens reader next) (second : StepsTo more next last) :
    StepsTo (tokens ++ more) reader last := by
  intro placed same stream
  obtain ⟨front, back, rfl, here, there⟩ := List.map_eq_append_iff.1 same
  rw [← behind_behind, first front here, second back there]

theorem bind (steps : StepsTo tokens reader next) (f : α → Except ParseError β) :
    StepsTo tokens (fun stream => reader stream >>= f) (fun stream => next stream >>= f) := by
  intro placed same stream
  rw [← bind_assoc, steps placed same, bind_assoc]

end StepsTo

/-! ## Dice -/

/-- The faces in the rest of a stream. The reader of faces goes along a list of
tokens; this puts it among the readers of streams. -/
def facesFrom (part : FacePart) (seen : List Score) : Reader (List Score) := fun stream =>
  readFaces stream.fault stream.stop part seen stream.tokens

/-- A face is read with its sign and put behind those before it. The list of
those seen is in reverse, as in the reader. -/
theorem stepsTo_signed (face : SignedForm) (seen : List Score) :
    StepsTo face.tokens (facesFrom .entry seen) (facesFrom .separator (face.value :: seen)) := by
  cases face with
  | plain magnitude =>
    exact .of_token fun _ _ => ready_bind_self (facesFrom .separator (magnitude :: seen))
  | minus magnitude =>
    have sign : StepsTo [.operator .subtract] (facesFrom .entry seen) (facesFrom .magnitude seen) :=
      .of_token fun _ _ => ready_bind_self (facesFrom .magnitude seen)
    have digits : StepsTo [.number magnitude] (facesFrom .magnitude seen)
        (facesFrom .separator (.clamp (-magnitude.val) :: seen)) :=
      .of_token fun _ _ => ready_bind_self
        (facesFrom .separator (.clamp (-magnitude.val) :: seen))
    exact sign.append digits

/-- A closing bracket ends the list wherever a face or a comma could stand. -/
theorem stepsTo_close {part : FacePart} (open' : part ≠ .magnitude) (seen : List Score) :
    StepsTo [.rightBracket] (facesFrom part seen) (fun stream => .ok (seen.reverse, stream)) := by
  cases part with
  | magnitude => exact absurd rfl open'
  | entry | separator => exact .of_token fun _ _ => rfl

theorem stepsTo_comma (seen : List Score) :
    StepsTo [.comma] (facesFrom .separator seen) (facesFrom .entry seen) :=
  .of_token fun _ _ => ready_bind_self (facesFrom .entry seen)

/-- The faces behind the first one are read up to the closing bracket, with a
comma at the end or without. -/
theorem stepsTo_more (trailing : Bool) (listed : List SignedForm) (seen : List Score) :
    StepsTo (moreFaceTokens trailing listed ++ [.rightBracket]) (facesFrom .separator seen)
      (fun stream => .ok (seen.reverse ++ listed.map SignedForm.value, stream)) := by
  induction listed generalizing seen with
  | nil =>
    rw [List.map_nil, List.append_nil]
    cases trailing with
    | false => exact stepsTo_close (by decide) seen
    | true => exact (stepsTo_comma seen).append (stepsTo_close (by decide) seen)
  | cons face rest ih =>
    have tail := ih (face.value :: seen)
    rw [List.reverse_cons, List.append_assoc, List.singleton_append] at tail
    rw [moreFaceTokens, List.cons_append, List.append_assoc]
    exact (stepsTo_comma seen).append ((stepsTo_signed face seen).append tail)

/-- A list of faces is read up to its closing bracket, also with one more comma
behind the last face. -/
theorem stepsTo_faces (trailing : Bool) (listed : List SignedForm) :
    StepsTo (listedFaceTokens trailing listed ++ [.rightBracket]) (facesFrom .entry [])
      (fun stream => .ok (listed.map SignedForm.value, stream)) := by
  cases listed with
  | nil => exact stepsTo_close (by decide) []
  | cons face rest =>
    rw [listedFaceTokens, List.append_assoc]
    exact (stepsTo_signed face []).append (stepsTo_more trailing rest [face.value])

/-- A size is read as its die. -/
theorem stepsTo_size (size : SizeForm) {die : Die} (sized : size.die? = some die) :
    StepsTo size.tokens readSize (fun stream => .ok (die, stream)) := by
  cases size with
  | sides count =>
    refine .of_token fun stop stream => ?_
    show (built _ (Die.ofSides count) >>= fun die => stream.ready >>= fun next => .ok (die, next)) =
      stream.ready >>= fun next => .ok (die, next)
    rw [ok_of_toOption sized]
    rfl
  | fudge | percent =>
    cases sized
    exact .of_token fun _ _ => rfl
  -- the bracket is read first, then the list up to the other bracket, then the die is made
  | faces listed trailing =>
    have opened : StepsTo [.leftBracket] readSize (fun stream => facesFrom .entry [] stream >>=
        fun read => built read.2 (Die.ofFaces read.1) >>= fun die => .ok (die, read.2)) :=
      .of_token fun _ _ => rfl
    have closed := (stepsTo_faces trailing listed).bind fun read =>
      built read.2 (Die.ofFaces read.1) >>= fun die => .ok (die, read.2)
    have made : (fun stream => built stream (Die.ofFaces (listed.map SignedForm.value)) >>=
        fun die => .ok (die, stream)) = fun stream => .ok (die, stream) := by
      rw [ok_of_toOption sized]
      rfl
    rw [SizeForm.tokens, ← made]
    exact opened.append closed

/-- A quantity and the letter of a die are read up to the size of the die. That
the quantity fits is used only after the size. -/
theorem stepsTo_quantity (quantity : Option Score)
    (fits : ¬ quantityLimit < (quantity.getD 1).val) :
    StepsTo ((quantity.map Token.number).toList ++ [.dice]) readSegment (fun stream =>
      readSize stream >>= fun read =>
        readModifiers (.copies (.die read.1) (quantity.getD 1).val.toNat) read.2) := by
  -- the quantity is checked only after the size was read
  have limited : ∀ stream : TokenStream, ((stream.ready >>= fun stream =>
      readSize stream >>= fun read => if quantityLimit < (quantity.getD 1).val then
        read.2.fail (.outOfRange ("quantity " ++ String.ofList (quantity.getD 1).text))
      else .ok (.copies (.die read.1) (quantity.getD 1).val.toNat, read.2)) >>=
        fun read => readModifiers read.1 read.2) =
      stream.ready >>= fun stream => readSize stream >>= fun read =>
        readModifiers (.copies (.die read.1) (quantity.getD 1).val.toNat) read.2 := by
    intro stream
    simp only [if_neg fits, bind_assoc]
    rfl
  cases quantity with
  | none => exact .of_token fun _ stream => limited stream
  | some quantity =>
    have counted : StepsTo [.number quantity] readQuantity
        (fun stream => .ok (quantity, stream)) := .of_token fun _ _ => rfl
    exact ((counted.bind _).bind _).append (.of_token fun _ stream => limited stream)

/-- Whether no size begins with the tokens. Then a die in front of them has no
size written and six sides. -/
def Sizeless (tokens : List Token) : Prop :=
  Detached tokens ∧ ∀ token ∈ tokens.head?,
    token ≠ .fudge ∧ token ≠ .percent ∧ token ≠ .leftBracket

/-- Without a size the dice have six sides, and nothing is read. The tokens are
left to the modifiers. -/
theorem readSize_of_sizeless (sizeless : Sizeless (stream.tokens.map (·.token))) :
    readSize stream = .ok (.sixSided, stream) := by
  have first : stream.current = (stream.tokens.map (·.token)).head? := (List.head?_map ..).symm
  unfold readSize
  rw [first]
  split
  next number => cases sizeless.1 _ number
  next fudge => exact absurd rfl (sizeless.2 _ fudge).1
  next percent => exact absurd rfl (sizeless.2 _ percent).2.1
  next bracket => exact absurd rfl (sizeless.2 _ bracket).2.2
  next => rfl

theorem ready_bind_readSize (sizeless : Sizeless (stream.tokens.map (·.token))) :
    (stream.ready >>= readSize) = stream.ready >>= fun stream => .ok (.sixSided, stream) := by
  cases ahead : stream.ready with
  | error error => rfl
  | ok ready =>
    obtain rfl := eq_of_ready ahead
    exact readSize_of_sizeless sizeless

/-- A size that may be left out is read as its die. If it is left out, the
tokens behind the letter must not look like one. -/
theorem ready_behind_bind_readSize (size : Option SizeForm) {die : Die}
    (sized : size.elim (some Die.sixSided) SizeForm.die? = some die)
    (same : placed.map (·.token) = size.elim [] SizeForm.tokens)
    (sizeless : Sizeless (stream.tokens.map (·.token))) :
    ((stream.behind placed).ready >>= readSize) =
      stream.ready >>= fun stream => .ok (die, stream) := by
  cases size with
  | none =>
    cases sized
    rw [List.map_eq_nil_iff.1 same]
    exact ready_bind_readSize sizeless
  | some size => exact stepsTo_size size sized placed same stream

/-- **Dice are read as their expression, whatever is behind them.** That may be
a fault, which is then met by the reader of the modifiers. -/
theorem ready_behind_bind_readSegment (form : SegmentForm) {e : Expr} (made : form.dice? = some e)
    (same : placed.map (·.token) = form.diceTokens)
    (sizeless : Sizeless (stream.tokens.map (·.token))) :
    ((stream.behind placed).ready >>= readSegment) = stream.ready >>= readModifiers e := by
  obtain ⟨die, sized, counted⟩ := Option.bind_eq_some_iff.1 made
  obtain ⟨fits, rfl⟩ : ((form.quantity.getD 1).val.toNat : Int) ≤ quantityLimit ∧
      Expr.copies (.die die) (form.quantity.getD 1).val.toNat = e := by
    simpa [Notation.dice?] using counted
  have limited : ¬ quantityLimit < (form.quantity.getD 1).val := by
    simp only [quantityLimit] at fits ⊢
    omega
  rw [SegmentForm.diceTokens, List.append_cons] at same
  obtain ⟨front, back, rfl, here, there⟩ := List.map_eq_append_iff.1 same
  have size := ready_behind_bind_readSize form.size sized there sizeless
  rw [← behind_behind, stepsTo_quantity form.quantity limited front here, ← bind_assoc, size,
    bind_assoc]
  rfl

end Dice.Notation
