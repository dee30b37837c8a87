import Dice.Proofs.Notation.Nesting
import Dice.Proofs.Notation.Pieces
import Dice.Proofs.Notation.Placed
import Dice.Proofs.Notation.Spelt

/-!
# What notations denote

Which notations are accepted, and as what, said without reading them. A
segment denotes the expression of a form of its tokens, or it is a notation in
parentheses with modifiers behind it, and those make an expression of what the
notation denotes. A notation denotes the sum of what its segments denote.

Nothing here limits how deep parentheses are nested; that is all the reader
adds. A notation that denotes an expression is read as it if the nesting is
within the limit, and else the first parenthesis past the limit is what is
reported, before anything else could be (`Limited`).

That what is read is denoted holds of any reader that is sound for what is
inside of parentheses, and so of the reader with any number of levels, by
induction on them (`sound_readPieceWithin`). The other direction is an
induction over how an expression is denoted, for all numbers of levels at
once.

Main statement: `parse_eq_ok_iff`, put together from `denotes_of_parse` and
`limited_parse`.
-/

namespace Dice.Notation

open Text

variable {text segment suffix : Text} {e made : Expr} {offset limit : Nat}
  {read : Nat → Text → Reading Expr}

/-! ## Tokens -/

/-- Whether a text of modifiers makes one expression of another. The tokens are
those of a modifier, if there is one, and of at most two operators. -/
def Amends (text : Text) (e made : Expr) : Prop :=
  ∃ (modifier : Option ModifierForm) (operators : List (Operator × UInt32)),
    Lexes text (modifier.elim [] ModifierForm.tokens ++ operatorTokens operators) ∧
      (modifier.elim (some e) (·.applied e)).bind (operate? · operators) = some made ∧
      operators.length ≤ 2 ∧ ∀ c, modifier = some (.comparison c none) →
        operators.head?.map (·.1) ≠ some .subtract

/-- Modifiers are read as what they make of an expression. Both directions hold,
so a text of any other form is refused. -/
theorem readModifiers_eq_ok_iff (position : Nat) :
    ((TokenStream.ofText position text).ready >>= readModifiers e) = .ok made ↔
      Amends text e made := by
  constructor
  · intro ok
    obtain ⟨stream, ready, ok⟩ := bind_ok ok
    obtain rfl := TokenStream.eq_of_ready ready
    obtain ⟨modifier, operators, holds, read⟩ :=
      exists_form_of_readModifiers ready (unsigned_ofText position text) ok
    exact ⟨modifier, operators, (holds_ofText_iff position).1 holds, read⟩
  · intro amends
    obtain ⟨modifier, operators, lexes, read, few, unmistaken⟩ := amends
    have holds := (holds_ofText_iff position).2 lexes
    rw [holds.ready]
    exact ok_of_toOption ((readModifiers_form modifier few unmistaken e holds).trans read)

/-- A text of a form is read as its expression, and what is read is of a form.
The position where it stands plays no part. -/
theorem readSegment_eq_ok_iff (position : Nat) :
    ((TokenStream.ofText position text).ready >>= readSegment) = .ok e ↔
      ∃ form : SegmentForm, Lexes text form.tokens ∧ form.expr? = some e := by
  constructor
  · intro ok
    obtain ⟨stream, ready, ok⟩ := bind_ok ok
    obtain rfl := TokenStream.eq_of_ready ready
    obtain ⟨form, holds, read⟩ :=
      exists_form_of_readSegment ready (unsigned_ofText position text) ok
    exact ⟨form, (holds_ofText_iff position).1 holds, read⟩
  · intro accepted
    obtain ⟨form, lexes, read⟩ := accepted
    have holds := (holds_ofText_iff position).2 lexes
    rw [holds.ready]
    exact ok_of_toOption ((readSegment_form form holds).trans read)

theorem amends_trimEnd_iff : Amends text.trimEnd e made ↔ Amends text e made := by
  simp only [Amends, lexes_trimEnd_iff]

/-- Nothing but blanks leaves an expression as it is. -/
theorem amends_blank (blank : text.blank = true) (e : Expr) : Amends text e e := by
  have lexes : Lexes ([] ++ text) [] := (lexes_append_blanks_iff blank).2 ⟨rfl, rfl⟩
  exact ⟨none, [], lexes, rfl, Nat.zero_le 2, fun _ h => nomatch h⟩

/-- There are no parentheses in a text of modifiers. So the last parenthesis of
a segment is that of its group. -/
theorem Amends.plain (amends : Amends text e made) : ∀ c ∈ text, c ≠ '(' ∧ c ≠ ')' := by
  obtain ⟨modifier, operators, lexes, -⟩ := amends
  exact plain_of_lexes lexes

/-! ## Segments and notations -/

/-- Whether a segment denotes an expression. What it is read as is left out: the
relation is about texts and trees alone. -/
inductive Denotes : Text → Expr → Prop
  /-- Dice with their modifiers. -/
  | dice {segment : Text} {e : Expr} (form : SegmentForm) (lexes : Lexes segment form.tokens)
    (read : form.expr? = some e) : Denotes segment e
  /-- A notation in parentheses with its modifiers. -/
  | group {blanks interior suffix : Text} {made : Expr} (parts : List (Text × Expr))
    (blank : blanks.blank = true) (balanced : interior.Balanced) (solid : interior.blank = false)
    (cut : cutSegments interior = parts.map (·.1)) (each : ∀ part ∈ parts, Denotes part.1 part.2)
    (amends : Amends suffix (combine (parts.map (·.2))) made) :
    Denotes (blanks ++ '(' :: (interior ++ ')' :: suffix)) made

/-- Whether a notation denotes an expression: it is the sum of what the segments
denote. -/
structure DenotesSum (text : Text) (e : Expr) : Prop where
  balanced : text.Balanced
  solid : text.blank = false
  summed : ∃ parts : List (Text × Expr), cutSegments text = parts.map (·.1) ∧
    (∀ part ∈ parts, Denotes part.1 part.2) ∧ combine (parts.map (·.2)) = e

/-- A notation in parentheses is a segment, with modifiers behind it that may be
missing. -/
theorem DenotesSum.group {blanks interior : Text} (inside : DenotesSum interior e)
    (blank : blanks.blank = true) (amends : Amends suffix e made) :
    Denotes (blanks ++ '(' :: (interior ++ ')' :: suffix)) made := by
  obtain ⟨balanced, solid, parts, cut, each, rfl⟩ := inside
  exact .group parts blank balanced solid cut each amends

/-- A notation that is not cut denotes what its only segment denotes. No sum of
one is made. -/
theorem denotesSum_iff_of_cut (cut : cutSegments text = [text]) :
    DenotesSum text e ↔ text.Balanced ∧ text.blank = false ∧ Denotes text e := by
  constructor
  · rintro ⟨balanced, solid, parts, same, each, rfl⟩
    obtain ⟨part, rfl, whole⟩ := List.map_eq_singleton_iff.1 (same.symm.trans cut)
    have denotes := each part (by simp)
    rw [whole] at denotes
    exact ⟨balanced, solid, denotes⟩
  · rintro ⟨balanced, solid, denotes⟩
    exact ⟨balanced, solid, [(text, e)], cut, by simpa using denotes, rfl⟩

/-! ## Blanks around a segment -/

theorem trimStart_blanks {blanks : Text} (blank : blanks.blank = true) (text : Text) :
    (blanks ++ text).trimStart = text.trimStart :=
  List.dropWhile_append_of_pos (List.all_eq_true.1 blank)

theorem trimStart_cons {c : Char} (solid : isBlank c = false) (rest : Text) :
    trimStart (c :: rest) = c :: rest := List.dropWhile_cons_of_neg (by simp [solid])

/-- Behind a character that is no blank only the rest is trimmed. -/
theorem trimEnd_append_cons {c : Char} (solid : isBlank c = false) (front rest : Text) :
    (front ++ c :: rest).trimEnd = front ++ c :: rest.trimEnd := by
  have back : (c :: front.reverse).dropWhile isBlank = c :: front.reverse :=
    trimStart_cons solid _
  unfold trimEnd trimStart
  rw [List.reverse_append, List.reverse_cons, List.append_assoc, List.dropWhile_append]
  split
  next none =>
    have none := List.isEmpty_iff.1 none
    rw [List.singleton_append, back, none]
    simp
  next => simp

/-- What is left of a text that is not blank begins with a character that is
none. -/
theorem exists_trimStart (solid : text.blank = false) :
    ∃ c rest, text.trimStart = c :: rest ∧ isBlank c = false := by
  cases start : text.trimStart with
  | nil =>
    have blanks := blank_takeWhile text
    have whole := takeWhile_append_trimStart text
    rw [start, List.append_nil] at whole
    rw [whole, solid] at blanks
    cases blanks
  | cons c rest => exact ⟨c, rest, rfl, isBlank_of_trimStart_eq_cons start⟩

/-- Only the last part of a text is trimmed at the end, unless it is blank.
Parts in front keep their blanks. -/
theorem trimEnd_append (solid : text.blank = false) (front : Text) :
    (front ++ text).trimEnd = front ++ text.trimEnd := by
  obtain ⟨c, rest, start, first⟩ := exists_trimStart solid
  have whole := takeWhile_append_trimStart text
  rw [start] at whole
  rw [← whole, trimEnd_append_cons first, ← List.append_assoc, trimEnd_append_cons first,
    List.append_assoc]

/-- A balanced segment is blank, begins with a parenthesis that is closed, or
begins with something else. -/
theorem segment_cases (balanced : segment.Balanced) : segment.trimStart.trimEnd = [] ∨
    (∃ blanks interior suffix : Text, segment = blanks ++ '(' :: (interior ++ ')' :: suffix) ∧
      blanks.blank = true ∧ interior.Balanced) ∨
    ∃ first rest, segment.trimStart.trimEnd = first :: rest ∧ first ≠ '(' := by
  have trimmed := balanced_trim balanced
  obtain ⟨back, blank, whole⟩ := exists_trimEnd_append segment.trimStart
  cases text : segment.trimStart.trimEnd with
  | nil => exact .inl rfl
  | cons first rest =>
    by_cases opens : first = '('
    · subst opens
      rw [text] at trimmed whole
      obtain ⟨interior, suffix, rfl, inside, -⟩ := exists_splitAtClose trimmed
      refine .inr (.inl ⟨segment.takeWhile isBlank, interior, suffix ++ back, ?_,
        blank_takeWhile segment, inside⟩)
      calc segment = segment.takeWhile isBlank ++ segment.trimStart :=
            (takeWhile_append_trimStart segment).symm
        _ = _ := by rw [← whole]; simp
    · exact .inr (.inr ⟨first, rest, rfl, opens⟩)

/-! ## Reading a segment -/

/-- The fault of a parenthesis that is nested too deep. It is met at the
parenthesis, before what is in it is looked at. -/
def tooDeep : Fault := .outOfRange ("nesting deeper than " ++ nestingLimit.repr)

/-- A balanced text is read segment by segment. Only parentheses can keep it
from being cut. -/
theorem readText_of_balanced (balanced : text.Balanced) (solid : text.blank = false)
    (offset : Nat) : (readText read offset text).result =
      (readAll read offset #[] [] (cutSegments text)).result.map combine := by
  rw [readText, solid, if_neg Bool.false_ne_true,
    segments_ok (unbalanced?_eq_none balanced offset)]

/-- A text that is not cut is read as its only segment is. -/
theorem readText_of_uncut (uncut : Uncut text) (solid : text.blank = false) (offset : Nat) :
    (readText read offset text).result = (read offset text).result := by
  rw [readText_of_balanced uncut.balanced solid, cutSegments_uncut uncut, readAll_cons]
  cases (read offset text).result <;> rfl

variable {inner : Option (Nat → Text → Reading Expr)}

/-- A segment that does not begin with a parenthesis is read from its tokens.
Where it begins is left open, as its tokens do not depend on that. -/
theorem readPiece_of_trim (inner : Option (Nat → Text → Reading Expr)) {first : Char} {rest : Text}
    (trimmed : segment.trimStart.trimEnd = first :: rest) (plain : first ≠ '(') (offset : Nat) :
    ∃ position, (readPiece inner offset segment).result =
      (TokenStream.ofText position (first :: rest)).ready >>= readSegment := by
  refine ⟨offset + (segment.byteLength - segment.trimStart.byteLength), ?_⟩
  rw [readPiece]
  simp only [trimmed, if_neg plain]

/-- A segment of the tokens of a form is read as its expression, or refused if
it has none. -/
theorem readsPiece_of_lexes (form : SegmentForm) (lexes : Lexes segment form.tokens)
    (levels : Nat) : ReadsPiece levels segment form.expr? := by
  intro offset
  obtain ⟨inner, same⟩ := exists_inner levels
  have trim := lexes_trim_iff.2 lexes
  cases trimmed : segment.trimStart.trimEnd with
  | nil =>
    -- every form has the letter of a die
    rw [trimmed] at trim
    have none : form.tokens = [] := trim.tokens_eq.symm
    simp [SegmentForm.tokens, SegmentForm.diceTokens] at none
  | cons first rest =>
    rw [trimmed] at trim
    have opens := (plain_of_lexes trim first (by simp)).1
    obtain ⟨position, result⟩ := readPiece_of_trim inner trimmed opens offset
    have holds := (holds_ofText_iff position).2 trim
    rw [same, result, holds.ready]
    exact readSegment_form form holds

variable {blanks interior : Text}

/-- A segment that begins with a parenthesis is read from the text after that,
whose offset comes from the blanks in front. -/
theorem readPiece_nested (blank : blanks.blank = true) (offset : Nat) :
    (readPiece inner offset (blanks ++ '(' :: (interior ++ ')' :: suffix))).result =
      (readNested inner (offset + blanks.byteLength)
        (interior ++ ')' :: suffix.trimEnd)).result := by
  have opens : isBlank '(' = false := by decide
  have closes : isBlank ')' = false := by decide
  have start : (blanks ++ '(' :: (interior ++ ')' :: suffix)).trimStart =
      '(' :: (interior ++ ')' :: suffix) := by
    rw [trimStart_blanks blank, trimStart_cons opens]
  have trimmed : trimEnd ('(' :: (interior ++ ')' :: suffix)) =
      '(' :: (interior ++ ')' :: suffix.trimEnd) := by
    exact trimEnd_append_cons closes ('(' :: interior) suffix
  have place : (blanks ++ '(' :: (interior ++ ')' :: suffix)).byteLength -
      byteLength ('(' :: (interior ++ ')' :: suffix)) = blanks.byteLength := by
    rw [byteLength_append, Nat.add_sub_cancel]
  rw [readPiece]
  simp only [start, trimmed, place, if_true]

/-- Behind an opening parenthesis the text up to its partner is read, and then
the modifiers behind that. -/
theorem readNested_group (balanced : interior.Balanced) (solid : interior.blank = false)
    (offset : Nat) : (readNested (some read) offset (interior ++ ')' :: suffix)).result =
      (readText read (offset + 1) interior).result >>= fun e =>
        (TokenStream.ofText (offset + interior.byteLength + 2) suffix).ready >>=
          readModifiers e := by
  rw [readNested]
  simp only [splitAtClose_close balanced, solid, if_neg Bool.false_ne_true]

/-! ## What is read is denoted -/

/-- Whether a balanced text denotes whatever it is read as. It is a property of
the reader of segments, and shown by induction on the levels. -/
def Sound (read : Nat → Text → Reading Expr) : Prop :=
  ∀ offset text e, text.Balanced → (read offset text).result = .ok e → Denotes text e

/-- Segments that are read by a sound reader denote what they are read as. Each
of them gets its own expression, in their order. -/
theorem Sound.readAll (sound : Sound read) {pieces : List Text}
    (balanced : ∀ piece ∈ pieces, piece.Balanced) {visits : Array Visit} {trees all : List Expr}
    (ok : (readAll read offset visits trees pieces).result = .ok all) :
    ∃ parts : List (Text × Expr), pieces = parts.map (·.1) ∧
      (∀ part ∈ parts, Denotes part.1 part.2) ∧ all = trees.reverse ++ parts.map (·.2) := by
  induction pieces generalizing offset visits trees with
  | nil =>
    rw [readAll_nil] at ok
    cases ok
    exact ⟨[], rfl, by simp, by simp⟩
  | cons piece rest ih =>
    rw [readAll_cons] at ok
    split at ok
    next => cases ok
    next tree single =>
      obtain ⟨first, others⟩ := List.forall_mem_cons.1 balanced
      obtain ⟨parts, rfl, each, rfl⟩ := ih others ok
      have head := sound offset piece tree first single
      exact ⟨(piece, tree) :: parts, rfl, List.forall_mem_cons.2 ⟨head, each⟩, by simp⟩

/-- A text that is read by a sound reader denotes the sum of its segments. A
single one is no sum. -/
theorem Sound.readText (sound : Sound read) (balanced : text.Balanced) (solid : text.blank = false)
    (ok : (readText read offset text).result = .ok e) : DenotesSum text e := by
  rw [readText_of_balanced balanced solid] at ok
  cases all : (Notation.readAll read offset #[] [] (cutSegments text)).result with
  | error error =>
    rw [all] at ok
    cases ok
  | ok trees =>
    obtain ⟨parts, cut, each, rfl⟩ :=
      sound.readAll (fun piece mem => (cutSegments_of_mem balanced mem).1) all
    rw [all] at ok
    exact ⟨balanced, solid, parts, cut, each, Except.ok.inj ok⟩

/-- If what is inside of parentheses is read by a sound reader, so are segments.
-/
theorem Sound.readPiece (sound : ∀ read ∈ inner, Sound read) : Sound (readPiece inner) := by
  intro offset segment e balanced ok
  -- a balanced segment is blank, begins with a group, or begins with something else
  rcases segment_cases balanced with blank | ⟨blanks, interior, suffix, rfl, blank, inside⟩ |
    ⟨first, rest, trimmed, plain⟩
  · rw [Notation.readPiece] at ok
    simp only [blank] at ok
    cases ok
  · rw [readPiece_nested blank] at ok
    cases inner with
    | none => cases ok
    | some read =>
      cases solid : interior.blank with
      | true =>
        rw [readNested] at ok
        simp only [splitAtClose_close inside, solid, if_true] at ok
        cases ok
      | false =>
        rw [readNested_group inside solid] at ok
        obtain ⟨inner, within, ok⟩ := bind_ok ok
        have nested := (sound read rfl).readText inside solid within
        exact nested.group blank (amends_trimEnd_iff.1 ((readModifiers_eq_ok_iff _).1 ok))
  · obtain ⟨position, same⟩ := readPiece_of_trim inner trimmed plain offset
    rw [same] at ok
    obtain ⟨form, lexes, read⟩ := (readSegment_eq_ok_iff position).1 ok
    rw [← trimmed] at lexes
    exact .dice form (lexes_trim_iff.1 lexes) read

theorem sound_readPieceWithin (levels : Nat) : Sound (readPieceWithin levels) := by
  induction levels with
  | zero => exact Sound.readPiece (by simp)
  | succ levels ih => exact Sound.readPiece (by simpa using ih)

/-- **A notation denotes what it is read as.** With the other direction this
says for every text whether it is accepted, and as what. -/
theorem denotes_of_parse (solid : text.blank = false) (ok : parse text = .ok e) :
    DenotesSum text e := by
  cases found : unbalanced? 0 0 text with
  | none =>
    have balanced := balanced_of_unbalanced? found
    exact (sound_readPieceWithin nestingLimit).readText balanced solid ok
  | some error =>
    rw [parse_of_unbalanced? found] at ok
    cases ok

/-! ## The first parenthesis past the limit -/

/-- Whether the first parenthesis of a text that is nested past a limit stands
behind `before`. -/
structure FirstPast (limit : Nat) (text before : Text) : Prop where
  opens : before ++ ['('] <+: text
  within : before.nesting ≤ limit
  level_eq : before.count '(' = before.count ')' + limit

namespace FirstPast

variable {a b before : Text}

theorem append_right (first : FirstPast limit a before) (b : Text) :
    FirstPast limit (a ++ b) before :=
  ⟨first.opens.trans (List.prefix_append a b), first.within, first.level_eq⟩

/-- A balanced text in front that is within the limit moves the place by its
length. -/
theorem append_left (first : FirstPast limit b before) (balanced : a.Balanced)
    (fits : a.nesting ≤ limit) : FirstPast limit (a ++ b) (a ++ before) := by
  have even := (balanced_iff.1 balanced).2
  refine ⟨?_, ?_, ?_⟩
  · rw [List.append_assoc]
    exact (List.prefix_append_right_inj a).2 first.opens
  · rw [balanced.nesting_append]
    exact Nat.max_le.2 ⟨fits, first.within⟩
  · have level := first.level_eq
    rw [List.count_append, List.count_append]
    omega

/-- Behind an opening parenthesis one level less is left. The first one past the
limit is the same. -/
theorem nested (first : FirstPast limit a before) :
    FirstPast (limit + 1) ('(' :: a) ('(' :: before) := by
  refine ⟨?_, ?_, ?_⟩
  · exact (List.prefix_cons_inj '(').2 first.opens
  · have deeper := deepest_succ_le 0 before
    have within := first.within
    rw [nesting, deepest_open]
    exact Nat.le_trans deeper (Nat.succ_le_succ within)
  · rw [List.count_cons_self, List.count_cons_of_ne (by decide), first.level_eq, Nat.add_assoc]

end FirstPast

theorem firstPast_zero (rest : Text) : FirstPast 0 ('(' :: rest) [] :=
  ⟨⟨rest, rfl⟩, Nat.le_refl 0, rfl⟩

/-- What comes of reading a text that stands for a value when parentheses may
nest `limit` deep: the value, or the fault of the first parenthesis past that. -/
inductive Limited {α : Type} (limit offset : Nat) (text : Text) (value : α) :
    Except ParseError α → Prop
  | within (fits : text.nesting ≤ limit) : Limited limit offset text value (.ok value)
  | past {before : Text} (deep : limit < text.nesting) (first : FirstPast limit text before) :
    Limited limit offset text value (.error (tooDeep.located (offset + before.byteLength)))

/-! ## What is denoted is read -/

theorem nesting_blank (blank : blanks.blank = true) : blanks.nesting = 0 := by
  have other : ∀ c, isBlank c = true → c ≠ '(' ∧ c ≠ ')' := forall_isBlank (by decide +kernel)
  exact nesting_of_plain fun c mem => other c (List.all_eq_true.1 blank c mem)

/-- What stands in parentheses is nested one deeper, and modifiers add nothing.
The levels of a reader count in the same way. -/
theorem nesting_group (balanced : interior.Balanced)
    (plain : ∀ c ∈ suffix, c ≠ '(' ∧ c ≠ ')') :
    nesting ('(' :: (interior ++ ')' :: suffix)) = interior.nesting + 1 := by
  have whole : '(' :: (interior ++ ')' :: suffix) = interior.parenthesized ++ suffix := by
    simp [parenthesized]
  rw [whole, balanced.parenthesized.nesting_append, balanced.nesting_parenthesized,
    nesting_of_plain plain, Nat.max_zero]

namespace Limited

variable {α β : Type} {value : α} {result : Except ParseError α}

/-- Doing something to the value makes no difference to a fault. -/
theorem map (limited : Limited limit offset text value result) (f : α → β) :
    Limited limit offset text (f value) (result.map f) := by
  cases limited with
  | within fits => exact .within fits
  | past deep first => exact .past deep first

/-- What is past the limit in front of a text is past it in the whole. The error
is met there, before the rest is read. -/
theorem of_left {a : Text} {other : β} (balanced : a.Balanced) (deep : limit < a.nesting)
    {before : Text} (first : FirstPast limit a before) (b : Text) :
    Limited limit offset (a ++ b) other
      (.error (tooDeep.located (offset + before.byteLength))) := by
  refine .past ?_ (first.append_right b)
  rw [balanced.nesting_append]
  exact Nat.lt_of_lt_of_le deep (Nat.le_max_left _ _)

/-- A text behind one that is within the limit. -/
theorem of_right {a : Text} (balanced : a.Balanced) (fits : a.nesting ≤ limit) {b : Text}
    (limited : Limited limit (offset + a.byteLength) b value result) :
    Limited limit offset (a ++ b) value result := by
  have whole := balanced.nesting_append b
  cases limited with
  | within fits' =>
    refine .within ?_
    rw [whole]
    exact Nat.max_le.2 ⟨fits, fits'⟩
  | past deep first =>
    rw [Nat.add_assoc, ← byteLength_append]
    refine .past ?_ (first.append_left balanced fits)
    rw [whole]
    exact Nat.lt_of_lt_of_le deep (Nat.le_max_right _ _)

/-- Parts that are read one after the other, up to the first one that is nested
too deep. -/
theorem readAll {parts : List (Text × Expr)} (balanced : ∀ part ∈ parts, part.1.Balanced)
    (each : ∀ part ∈ parts, ∀ offset,
      Limited limit offset part.1 part.2 (read offset part.1).result)
    (offset : Nat) (visits : Array Visit) (trees : List Expr) :
    Limited limit offset (join ['+'] (parts.map (·.1))) (trees.reverse ++ parts.map (·.2))
      (Notation.readAll read offset visits trees (parts.map (·.1))).result := by
  induction parts generalizing offset visits trees with
  | nil =>
    rw [List.map_nil, List.map_nil, List.append_nil, readAll_nil]
    exact .within (Nat.zero_le limit)
  | cons part rest ih =>
    obtain ⟨even, others⟩ := List.forall_mem_cons.1 balanced
    obtain ⟨head, tail⟩ := List.forall_mem_cons.1 each
    have head := head offset
    have tail := ih others tail (offset + part.1.byteLength + 1)
      (visits ++ (read offset part.1).visits) (part.2 :: trees)
    rw [List.map_cons, List.map_cons, readAll_cons]
    generalize (read offset part.1).visits = met at tail ⊢
    generalize (read offset part.1).result = result at head ⊢
    cases head with
    -- the first segment is too deep, and the others are not read
    | past deep first =>
      cases rest with
      | nil =>
        rw [List.map_nil, join_singleton]
        exact .past deep first
      | cons next rest =>
        rw [List.map_cons, join_cons_cons, List.append_assoc]
        exact .of_left even deep first _
    -- the first segment is read, and the limit goes for what is behind its plus sign
    | within fits =>
      cases rest with
      | nil =>
        rw [List.map_nil, List.map_nil, join_singleton, ← List.reverse_cons]
        exact .within fits
      | cons next rest =>
        have front : Balanced (part.1 ++ ['+']) :=
          even.append (.plain '+' [] (by decide) (by decide) .nil)
        have fits' : nesting (part.1 ++ ['+']) ≤ limit := by
          rw [even.nesting_append]
          exact Nat.max_le.2 ⟨fits, Nat.zero_le limit⟩
        have place : offset + byteLength (part.1 ++ ['+']) = offset + part.1.byteLength + 1 := by
          rw [byteLength_append, Nat.add_assoc]
          rfl
        rw [List.map_cons, join_cons_cons]
        refine .of_right front fits' ?_
        rw [place]
        simpa using tail

/-- A notation, segment by segment. The first segment past the limit is the
first one that is refused. -/
theorem readText {parts : List (Text × Expr)} (balanced : text.Balanced)
    (solid : text.blank = false) (cut : cutSegments text = parts.map (·.1))
    (each : ∀ part ∈ parts, ∀ offset,
      Limited limit offset part.1 part.2 (read offset part.1).result) (offset : Nat) :
    Limited limit offset text (combine (parts.map (·.2)))
      (Notation.readText read offset text).result := by
  have even : ∀ part ∈ parts, part.1.Balanced := by
    intro part mem
    have inside : part.1 ∈ cutSegments text := cut ▸ List.mem_map_of_mem mem
    exact (cutSegments_of_mem balanced inside).1
  have all := Limited.readAll even each offset #[] []
  rw [← cut, join_cutSegments] at all
  rw [readText_of_balanced balanced solid]
  exact all.map combine

/-- A text in parentheses, with something plain behind it. One level of the
limit is used up by them. -/
theorem group {next : α → Except ParseError β} {other : β}
    (inside : Limited limit (offset + 1) text value result) (balanced : text.Balanced)
    (plain : ∀ c ∈ suffix, c ≠ '(' ∧ c ≠ ')') (after : next value = .ok other) :
    Limited (limit + 1) offset ('(' :: (text ++ ')' :: suffix)) other (result >>= next) := by
  have whole := nesting_group balanced plain
  cases inside with
  | within fits =>
    show Limited (limit + 1) offset ('(' :: (text ++ ')' :: suffix)) other (next value)
    rw [after]
    exact .within (whole ▸ Nat.succ_le_succ fits)
  | @past before deep first =>
    have size : byteLength ('(' :: before) = 1 + before.byteLength := byteLength_cons '(' before
    show Limited _ _ _ _ (.error (tooDeep.located (offset + 1 + before.byteLength)))
    rw [Nat.add_assoc, ← size]
    exact .past (whole ▸ Nat.succ_lt_succ deep) (first.nested.append_right (')' :: suffix))

end Limited

/-- A segment that denotes an expression is read as it with any number of
levels, or the first parenthesis past them is reported. -/
theorem limited_of_denotes (denotes : Denotes segment e) :
    ∀ levels offset, Limited levels offset segment e
      (readPieceWithin levels offset segment).result := by
  induction denotes with
  | dice form lexes read =>
    intro levels offset
    have nested := nesting_of_plain (plain_of_lexes lexes)
    rw [ok_of_toOption ((readsPiece_of_lexes form lexes levels offset).trans read)]
    exact .within (nested ▸ Nat.zero_le levels)
  -- the parenthesis takes one level, so the recursion is on fewer of them
  | @group blanks interior suffix made parts blank balanced solid cut each amends ih =>
    intro levels offset
    have whole := nesting_group balanced amends.plain
    refine .of_right (balanced_of_blank blank) (nesting_blank blank ▸ Nat.zero_le levels) ?_
    cases levels with
    | zero =>
      rw [readPieceWithin, readPiece_nested blank]
      exact .past (whole ▸ Nat.succ_pos _) (firstPast_zero _)
    | succ levels =>
      rw [readPieceWithin, readPiece_nested blank, readNested_group balanced solid]
      have summed := Limited.readText balanced solid cut (fun part mem => ih part mem levels)
        (offset + blanks.byteLength + 1)
      exact summed.group balanced amends.plain
        ((readModifiers_eq_ok_iff _).2 (amends_trimEnd_iff.2 amends))

/-- **A notation is read as what it denotes,** unless parentheses in it are
nested too deep. -/
theorem limited_parse (denotes : DenotesSum text e) :
    Limited nestingLimit 0 text e (parse text) := by
  obtain ⟨balanced, solid, parts, cut, each, rfl⟩ := denotes
  exact Limited.readText balanced solid cut
    (fun part mem => limited_of_denotes (each part mem) nestingLimit) 0

/-- Which notations are accepted, and as what: what they denote, and only within
the limit. -/
theorem parse_eq_ok_iff (solid : text.blank = false) :
    parse text = .ok e ↔ DenotesSum text e ∧ text.nesting ≤ nestingLimit := by
  constructor
  · intro ok
    have denotes := denotes_of_parse solid ok
    have limited := limited_parse denotes
    rw [ok] at limited
    cases limited with
    | within fits => exact ⟨denotes, fits⟩
  · intro accepted
    obtain ⟨denotes, fits⟩ := accepted
    have limited := limited_parse denotes
    generalize parse text = result at limited ⊢
    cases limited with
    | within => rfl
    | past deep => exact absurd fits (Nat.not_le_of_lt deep)

end Dice.Notation
