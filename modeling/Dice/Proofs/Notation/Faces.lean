import Dice.Proofs.Notation.Enclosed
import Dice.Proofs.Notation.Parts
import Dice.Proofs.Roundtrip

/-!
# Lists of faces

Which texts stand between the brackets of a custom die, said without tokens:
faces with one comma between each two of them. A face is a number in digits
with or without a minus sign, and there may be blanks anywhere but in the
digits. The sign is a token of its own and what is behind it is read first, so
a face has a magnitude that is itself a score, and the least score cannot be
written.

The list may go on with one more comma, and nothing but blanks behind that.
Nothing else is accepted: not an empty entry, a second comma or one in front,
and no text behind the closing bracket.

It follows which dice are read from their own texts: all but the custom ones
with the least score among their faces.

In one direction the tokens of an accepted text are those of a form, and a
form with a bracket behind its letter is that of a list. In the other
direction the pieces between the commas are put together to the tokens of a
list.

Main statements: `parse_faces_iff` and `parse_die_text_iff`.
-/

namespace Dice

open Text

/-! ## Numbers in digits -/

/-- Whether a text is a number in digits, with any number of zeros in front.
Digits are those of ASCII. -/
structure Decimal (digits : Text) (n : Nat) : Prop where
  some : digits ≠ []
  all : ∀ c ∈ digits, c.isDigit = true
  value_eq : Nat.ofDigitChars 10 digits 0 = n

theorem decimal_ofNat (n : Nat) : Decimal (ofNat n) n :=
  ⟨ofNat_ne_nil n, fun _ mem => isDigit_of_mem_ofNat mem, Nat.ofDigitChars_ten_toDigits⟩

/-- Digits are read as their number if that is a score. Otherwise they are
refused, and not brought into the range. -/
theorem Score.read_eq_ok_iff {digits : Text} (all : ∀ c ∈ digits, c.isDigit = true)
    {value : Score} :
    Score.read digits = .ok value ↔ ∃ n : Nat, Decimal digits n ∧ value.val = n := by
  cases digits with
  | nil =>
    constructor
    · intro read
      cases read
    · rintro ⟨n, decimal, -⟩
      exact absurd rfl decimal.some
  | cons c rest =>
    have digit := all c (by simp)
    rw [read_of_isDigit digit, readDigits_eq all (Nat.zero_le _)]
    constructor
    · intro read
      split at read
      next fits =>
        cases read
        exact ⟨_, ⟨by simp, all, rfl⟩, Score.val_clamp_of_mem (by omega) (by omega)⟩
      next => cases read
    · rintro ⟨n, decimal, same⟩
      have le := value.le_highest
      rw [decimal.value_eq, if_pos (by omega)]
      refine congrArg Except.ok (Score.ext_val ?_)
      rw [same]
      exact Score.val_clamp_of_mem (by omega) (by omega)

namespace Notation

variable {text inner : Text} {e : Expr} {c : Char} {faces : List Score} {listed : List SignedForm}
  {value : Score}

/-! ## Faces -/

/-- Whether a face is written in a text, as digits or with a minus sign in front
of them. -/
inductive WritesFace : Text → Score → Prop
  | plain {front digits back : Text} {n : Nat} {value : Score} (left : front.blank = true)
    (decimal : Decimal digits n) (right : back.blank = true) (value_eq : value.val = n) :
    WritesFace (front ++ (digits ++ back)) value
  | minus {front between digits back : Text} {n : Nat} {value : Score} (left : front.blank = true)
    (inside : between.blank = true) (decimal : Decimal digits n) (right : back.blank = true)
    (value_eq : value.val = -n) (ne : value ≠ .lowest) :
    WritesFace (front ++ '-' :: (between ++ (digits ++ back))) value

/-- Whether faces are written in a text, with a comma between each two of them.
Blanks may stand around every face. -/
def WritesFaces (text : Text) (faces : List Score) : Prop :=
  ∃ pieces, text = join [','] pieces ∧ List.Forall₂ WritesFace pieces faces

/-- A minus sign is a token of its own, with the magnitude behind it. There may
be blanks between the two. -/
theorem spelt_minus_iff {magnitude : Score} :
    Spelt text (SignedForm.minus magnitude).tokens ↔
      ∃ a b, text = a ++ '-' :: b ∧ a.blank = true ∧ Spelt b [.number magnitude] := by
  have symbol : Token.ofSymbol? '-' = some (.operator .subtract) := rfl
  have parts : Spelt text ([] ++ .operator .subtract :: [.number magnitude]) ↔ _ :=
    spelt_symbol_iff symbol
  simp only [← spelt_nil_iff]
  exact parts

/-- A face is written as the tokens of a signed number. Different forms can be
written for one face, as for zero. -/
theorem writesFace_iff : WritesFace text value ↔
    ∃ face : SignedForm, Spelt text face.tokens ∧ face.value = value := by
  constructor
  · intro face
    cases face with
    | plain left decimal right same =>
      have read := (Score.read_eq_ok_iff decimal.all).2 ⟨_, decimal, same⟩
      exact ⟨.plain value, spelt_number_iff.2 ⟨_, _, _, rfl, left, right, decimal.all, read⟩, rfl⟩
    | @minus front between digits back n _ left inside decimal right same ne =>
      have low := value.lowest_le
      have above : value.val ≠ -9223372036854775808 := fun least => ne (Score.ext_val least)
      -- the least score is ruled out, so the magnitude is a score
      have magnitude : (Score.clamp n).val = n := Score.val_clamp_of_mem (by omega) (by omega)
      have read := (Score.read_eq_ok_iff decimal.all).2 ⟨n, decimal, magnitude⟩
      refine ⟨.minus (.clamp n), spelt_minus_iff.2 ⟨front, _, rfl, left, ?_⟩, ?_⟩
      · exact spelt_number_iff.2 ⟨between, digits, back, rfl, inside, right, decimal.all, read⟩
      · rw [SignedForm.value, magnitude, ← same, Score.clamp_val]
  · rintro ⟨face, spelt, rfl⟩
    cases face with
    | plain magnitude =>
      obtain ⟨front, digits, back, rfl, left, right, all, read⟩ := spelt_number_iff.1 spelt
      obtain ⟨n, decimal, same⟩ := (Score.read_eq_ok_iff all).1 read
      exact .plain left decimal right same
    | minus magnitude =>
      obtain ⟨front, rest, rfl, left, number⟩ := spelt_minus_iff.1 spelt
      obtain ⟨between, digits, back, rfl, inside, right, all, read⟩ := spelt_number_iff.1 number
      obtain ⟨n, decimal, same⟩ := (Score.read_eq_ok_iff all).1 read
      have high := magnitude.le_highest
      have negated : (SignedForm.minus magnitude).value.val = -n := by
        rw [SignedForm.value, same]
        exact Score.val_clamp_of_mem (by omega) (by omega)
      -- the negative of a score is above the least score
      refine .minus left inside decimal right negated fun least => ?_
      have lowest : (SignedForm.minus magnitude).value.val = -9223372036854775808 := by
        rw [least]
        rfl
      omega

/-! ## Lists -/

/-- Faces with commas between them are pieces of text with commas between them.
The induction is on the faces, with one comma less each time. -/
theorem spelt_faces_iff (face : SignedForm) (listed : List SignedForm) :
    Spelt text (listedFaceTokens false (face :: listed)) ↔
      ∃ pieces, text = join [','] pieces ∧
        List.Forall₂ (fun piece face => Spelt piece face.tokens) pieces (face :: listed) := by
  have comma : Token.ofSymbol? ',' = some .comma := rfl
  induction listed generalizing text face with
  | nil =>
    have alone : listedFaceTokens false [face] = face.tokens := List.append_nil _
    rw [alone]
    constructor
    · exact fun spelt => ⟨[text], (join_singleton _ _).symm, .cons spelt .nil⟩
    · rintro ⟨pieces, rfl, each⟩
      obtain ⟨piece, spelt, rfl⟩ : ∃ piece, Spelt piece face.tokens ∧ pieces = [piece] := by
        simpa [List.forall₂_cons_right_iff] using each
      rwa [join_singleton]
  | cons next rest ih =>
    show Spelt text (face.tokens ++ .comma :: listedFaceTokens false (next :: rest)) ↔ _
    -- the text is cut at the first comma among its tokens
    rw [spelt_symbol_iff comma]
    constructor
    · rintro ⟨a, b, rfl, head, tail⟩
      obtain ⟨pieces, rfl, each⟩ := (ih next).1 tail
      refine ⟨a :: pieces, ?_, .cons head each⟩
      cases each with
      | cons => rw [join_cons_cons, List.append_assoc, List.singleton_append]
    · rintro ⟨pieces, rfl, each⟩
      cases each with
      | @cons a _ pieces _ head each =>
        refine ⟨a, join [','] pieces, ?_, head, (ih next).2 ⟨pieces, rfl, each⟩⟩
        cases each with
        | cons => rw [join_cons_cons, List.append_assoc, List.singleton_append]

/-- Pieces with faces written in them are pieces of signed numbers. For each
piece a form has to be chosen. -/
theorem forall₂_writesFace_iff {pieces : List Text} : List.Forall₂ WritesFace pieces faces ↔
    ∃ listed, List.Forall₂ (fun piece face => Spelt piece (SignedForm.tokens face)) pieces listed ∧
      listed.map SignedForm.value = faces := by
  induction pieces generalizing faces with
  | nil => simp [List.forall₂_nil_left_iff, eq_comm]
  | cons piece rest ih =>
    constructor
    · intro each
      cases each with
      | cons head tail =>
        obtain ⟨face, spelt, rfl⟩ := writesFace_iff.1 head
        obtain ⟨listed, others, rfl⟩ := ih.1 tail
        exact ⟨face :: listed, .cons spelt others, rfl⟩
    · rintro ⟨listed, each, rfl⟩
      cases each with
      | @cons _ face _ listed spelt others =>
        exact .cons (writesFace_iff.2 ⟨face, spelt, rfl⟩) (ih.2 ⟨listed, others, rfl⟩)

/-- Faces are written as the tokens of a list without a comma at the end. -/
theorem writesFaces_iff (some : faces ≠ []) : WritesFaces text faces ↔
    ∃ listed, Spelt text (listedFaceTokens false listed) ∧
      listed.map SignedForm.value = faces := by
  constructor
  · rintro ⟨pieces, rfl, each⟩
    obtain ⟨listed, spelt, rfl⟩ := forall₂_writesFace_iff.1 each
    obtain ⟨face, rest, rfl⟩ := List.exists_cons_of_ne_nil (l := listed) (by simpa using some)
    exact ⟨face :: rest, (spelt_faces_iff face rest).2 ⟨pieces, rfl, spelt⟩, rfl⟩
  · rintro ⟨listed, spelt, rfl⟩
    obtain ⟨face, rest, rfl⟩ := List.exists_cons_of_ne_nil (l := listed) (by simpa using some)
    obtain ⟨pieces, rfl, each⟩ := (spelt_faces_iff face rest).1 spelt
    exact ⟨pieces, rfl, forall₂_writesFace_iff.2 ⟨face :: rest, each, rfl⟩⟩

/-- One more comma stands behind the faces, with nothing but blanks behind it.
The faces are written in front of it as they are without it. -/
theorem spelt_trailing_iff (some : listed ≠ []) :
    Spelt text (listedFaceTokens true listed) ↔
      ∃ front back : Text, text = front ++ ',' :: back ∧ back.blank = true ∧
        Spelt front (listedFaceTokens false listed) := by
  have comma : Token.ofSymbol? ',' = .some .comma := rfl
  have more : ∀ rest, moreFaceTokens true rest = moreFaceTokens false rest ++ [.comma] := by
    intro rest
    induction rest with
    | nil => rfl
    | cons face rest ih => simp [moreFaceTokens, ih]
  obtain ⟨face, rest, rfl⟩ := List.exists_cons_of_ne_nil some
  have tokens : listedFaceTokens true (face :: rest) =
      listedFaceTokens false (face :: rest) ++ [.comma] := by
    simp [listedFaceTokens, more]
  rw [tokens, spelt_symbol_iff comma]
  simp only [spelt_nil_iff, and_comm, Text.blank]

/-! ## Dice with a list of faces -/

/-- The form of a die with a list of faces. Nothing stands in front of the
letter or behind the bracket. -/
def SegmentForm.listing (listed : List SignedForm) (trailing : Bool) : SegmentForm :=
  .unmodified none (some (.faces listed trailing))

namespace SegmentForm

theorem tokens_listing (listed : List SignedForm) (trailing : Bool) :
    (listing listed trailing).tokens =
      .dice :: .leftBracket :: (listedFaceTokens trailing listed ++ [.rightBracket]) :=
  tokens_unmodified none _

/-- A list of at least two faces is accepted as the die with these faces,
whether a comma stands behind them or not. -/
theorem expr?_listing (listed : List SignedForm) (trailing : Bool) :
    (listing listed trailing).expr? = some e ↔
      ∃ atLeastTwo, e = .die (.custom (listed.map SignedForm.value) atLeastTwo) := by
  rw [listing, expr?_unmodified]
  have one : ((none : Option Score).getD 1).val.toNat = 1 := rfl
  simp only [dice?, unmodified, Option.elim_some, SizeForm.die?, Die.ofFaces, one]
  split
  next several =>
    have die : Notation.dice? 1 (.custom (listed.map SignedForm.value) several) =
        some (.die (.custom (listed.map SignedForm.value) several)) := rfl
    constructor
    · intro made
      exact ⟨several, (Option.some.inj (die.symm.trans made)).symm⟩
    · rintro ⟨-, rfl⟩
      exact die
  next few =>
    constructor
    · intro made
      cases made
    · rintro ⟨several, -⟩
      exact absurd several few

end SegmentForm

/-- A text of the tokens of a form that nothing cuts is read as the expression
of the form. -/
theorem parse_of_lexes (form : SegmentForm) (lexes : Lexes text form.tokens)
    (whole : .operator .add ∉ form.tokens) (read : form.expr? = some e) : parse text = .ok e := by
  have uncut := uncut_of_lexes lexes whole
  have dice : .dice ∈ form.tokens := by simp [SegmentForm.tokens, SegmentForm.diceTokens]
  have solid : text.blank = false := blank_of_lexes lexes dice
  have sum : DenotesSum text e := (denotesSum_iff_of_cut (cutSegments_uncut uncut)).2
    ⟨uncut.balanced, solid, .dice form lexes read⟩
  refine (parse_eq_ok_iff solid).2 ⟨sum, ?_⟩
  rw [nesting_of_plain (plain_of_lexes lexes)]
  exact Nat.zero_le _

/-- What a notation begins with denotes something, and it is the whole or a plus
sign follows. -/
theorem DenotesSum.exists_first (sum : DenotesSum text e) :
    ∃ segment extra x, text = segment ++ extra ∧ Denotes segment x ∧
      (extra = [] ∧ e = x ∨ ∃ more, extra = '+' :: more) := by
  obtain ⟨-, solid, parts, cut, each, rfl⟩ := sum
  have whole : join ['+'] (parts.map (·.1)) = text := by rw [← cut, join_cutSegments]
  cases parts with
  | nil =>
    rw [← whole] at solid
    cases solid
  | cons part rest =>
    have head := each part (by simp)
    rw [← whole]
    cases rest with
    | nil => exact ⟨part.1, [], part.2, by simp, head, .inl ⟨rfl, rfl⟩⟩
    | cons next rest =>
      refine ⟨part.1, '+' :: join ['+'] ((next :: rest).map (·.1)), part.2, ?_, head, .inr ⟨_, rfl⟩⟩
      simp [join_cons_cons]

theorem ModifierForm.tokens_ne_nil (m : ModifierForm) : m.tokens ≠ [] := by
  cases m <;> simp [ModifierForm.tokens]

/-- A form whose die has a bracket behind it is that of a list of faces. If
nothing stands behind the list, it is the whole form. -/
theorem SegmentForm.exists_listed {form : SegmentForm} {tokens : List Token}
    (same : form.tokens = .dice :: .leftBracket :: tokens) :
    ∃ listed trailing more, tokens = listedFaceTokens trailing listed ++ .rightBracket :: more ∧
      (more = [] → form = .listing listed trailing) := by
  obtain ⟨quantity, size, modifier, operators, few, unmistaken⟩ := form
  cases quantity with
  | some quantity => cases same
  | none =>
    cases size with
    | none =>
      -- behind the letter alone there is a modifier or an operator, or nothing
      have behind : modifier.elim [] ModifierForm.tokens ++ operatorTokens operators =
          .leftBracket :: tokens := by
        simpa [SegmentForm.tokens, diceTokens] using same
      cases modifier with
      | none => cases operators <;> simp [operatorTokens] at behind
      | some m => cases m <;> simp [ModifierForm.tokens] at behind
    | some size =>
      cases size with
      | faces listed trailing =>
        refine ⟨listed, trailing, modifier.elim [] ModifierForm.tokens ++ operatorTokens operators,
          ?_, fun none => ?_⟩
        · simpa [SegmentForm.tokens, diceTokens, SizeForm.tokens, eq_comm] using same
        · obtain ⟨unmodified, unoperated⟩ := List.append_eq_nil_iff.1 none
          cases modifier with
          | none =>
            cases operators with
            | nil => rfl
            | cons => cases unoperated
          | some m => exact absurd unmodified m.tokens_ne_nil
      | sides | fudge | percent => cases same

/-- The letter of a die and a bracket behind it are the first two tokens. The
rest of the text has the others. -/
theorem spelt_bracket_iff (letter : c.toLower = 'd') {tokens : List Token} :
    Spelt (c :: '[' :: text) tokens ↔
      ∃ more, tokens = .dice :: .leftBracket :: more ∧ Spelt text more := by
  have dice : Token.SpelledBy .dice [c] := by simpa [Token.SpelledBy, Token.spelling] using letter
  have opens : Token.SpelledBy .leftBracket ['['] := rfl
  have ends : Token.Ends .dice ('[' :: text) := by
    rintro d ⟨⟩
    decide
  constructor
  · intro spelt
    obtain ⟨behind, rfl, after⟩ := (spelt_token_iff dice ends).1 spelt
    obtain ⟨more, rfl, inside⟩ := (spelt_token_iff opens trivial).1 after
    exact ⟨more, rfl, inside⟩
  · rintro ⟨more, rfl, spelt⟩
    exact .token dice ends (.token opens trivial spelt)

/-- The letter of a die with a bracket behind it begins a list of faces, up to a
closing one. -/
theorem SegmentForm.exists_list_of_lexes {form : SegmentForm} {rest : Text}
    (letter : c.toLower = 'd') (lexes : Lexes (c :: '[' :: rest) form.tokens) :
    ∃ listed trailing more inner behind, rest = inner ++ ']' :: behind ∧
      Spelt inner (listedFaceTokens trailing listed) ∧ Spelt behind more ∧
      (more = [] → form = .listing listed trailing) := by
  obtain ⟨tokens, same, inside⟩ := (spelt_bracket_iff letter).1 (spelt_of_lexes lexes)
  obtain ⟨listed, trailing, more, rfl, form⟩ := SegmentForm.exists_listed same
  obtain ⟨inner, behind, rfl, list, after⟩ := inside.split_symbol (c := ']') rfl
  exact ⟨listed, trailing, more, inner, behind, rfl, list, after, form⟩

/-- Whether a text lists faces, and may go on with one more comma. This is what
the brackets of a die may hold. -/
def ListsFaces (inner : Text) (faces : List Score) : Prop :=
  WritesFaces inner faces ∨ ∃ front back : Text, inner = front ++ ',' :: back ∧
    back.blank = true ∧ WritesFaces front faces

/-- A text lists faces if it is spelled by the tokens of a list. The two cases
are those of a form with a comma at the end and without. -/
theorem listsFaces_iff (some : faces ≠ []) : ListsFaces inner faces ↔
    ∃ listed trailing, Spelt inner (listedFaceTokens trailing listed) ∧
      listed.map SignedForm.value = faces := by
  have nonempty : ∀ {listed : List SignedForm}, listed.map SignedForm.value = faces →
      listed ≠ [] := by
    rintro _ rfl rfl
    exact some rfl
  constructor
  · rintro (list | ⟨front, back, rfl, blank, list⟩)
    · obtain ⟨listed, spelt, same⟩ := (writesFaces_iff some).1 list
      exact ⟨listed, false, spelt, same⟩
    · obtain ⟨listed, spelt, same⟩ := (writesFaces_iff some).1 list
      exact ⟨listed, true, (spelt_trailing_iff (nonempty same)).2 ⟨front, back, rfl, blank, spelt⟩,
        same⟩
  · rintro ⟨listed, trailing, spelt, same⟩
    cases trailing with
    | false => exact .inl ((writesFaces_iff some).2 ⟨listed, spelt, same⟩)
    | true =>
      obtain ⟨front, back, rfl, blank, spelt⟩ := (spelt_trailing_iff (nonempty same)).1 spelt
      exact .inr ⟨front, back, rfl, blank, (writesFaces_iff some).2 ⟨listed, spelt, same⟩⟩

/-- What begins with the letter of a die and a bracket, and ends with the only
closing one, denotes the die of the list in between. -/
theorem denotes_bracket {segment extra : Text} {x : Expr} (letter : c.toLower = 'd')
    (plain : ']' ∉ inner) (whole : c :: '[' :: (inner ++ [']']) = segment ++ extra)
    (denotes : Denotes segment x) (kind : extra = [] ∨ ∃ more, extra = '+' :: more) :
    extra = [] ∧ ∃ listed trailing, Spelt inner (listedFaceTokens trailing listed) ∧
      (SegmentForm.listing listed trailing).expr? = some x := by
  have solid : isBlank c = false ∧ c ≠ '(' := by
    rcases eq_or_eq_of_toLower_eq letter with rfl | rfl <;> decide
  cases denotes with
  | dice form lexes read =>
    match segment with
    | [] =>
      have none : form.tokens = [] := lexes.tokens_eq.symm
      simp [SegmentForm.tokens, SegmentForm.diceTokens] at none
    | [d] =>
      obtain ⟨-, behind⟩ := List.cons.inj whole
      rcases kind with rfl | ⟨more, rfl⟩ <;> cases behind
    | d :: b :: rest =>
      obtain ⟨rfl, behind⟩ := List.cons.inj whole
      obtain ⟨rfl, -⟩ := List.cons.inj behind
      obtain ⟨listed, trailing, more, front, back, rfl, list, after, form_eq⟩ :=
        SegmentForm.exists_list_of_lexes letter lexes
      -- there is only one closing bracket
      have same : inner ++ ']' :: [] = front ++ ']' :: (back ++ extra) := by simpa using whole
      obtain ⟨rfl, -, none⟩ := (List.append_cons_inj_of_notMem plain (by simp)).1 same
      obtain ⟨rfl, rfl⟩ := List.append_eq_nil_iff.1 none.symm
      have none : more = [] := (lexes_of_spelt after).tokens_eq.symm
      exact ⟨rfl, listed, trailing, list, form_eq none ▸ read⟩
  | @group blanks interior suffix made parts blank =>
    cases blanks with
    | nil => exact absurd (List.cons.inj whole).1 solid.2
    | cons d blanks =>
      have first : isBlank d = true := List.all_eq_true.1 blank d (by simp)
      rw [← (List.cons.inj whole).1, solid.1] at first
      cases first

/-- **A list of faces follows its grammar, but for one more comma.** A die with
a text in brackets is accepted exactly if two or more faces are written in the
text, with one comma between each two of them and at most one behind the last,
and nothing else but blanks. It has these faces. -/
theorem parse_faces_iff (letter : c.toLower = 'd') (plain : ']' ∉ inner) :
    parse (c :: '[' :: (inner ++ [']'])) = .ok e ↔
      ∃ faces atLeastTwo, e = .die (.custom faces atLeastTwo) ∧ ListsFaces inner faces := by
  have solid : Text.blank (c :: '[' :: (inner ++ [']'])) = false := by
    have bracket : isBlank '[' = false := by decide
    simp [Text.blank, bracket]
  have nonempty : ∀ {faces : List Score}, 2 ≤ faces.length → faces ≠ [] := by
    rintro _ several rfl
    cases several
  constructor
  -- the only closing bracket is at the end, so nothing can stand behind the list
  · intro ok
    obtain ⟨segment, extra, x, whole, denotes, kind⟩ :=
      ((parse_eq_ok_iff solid).1 ok).1.exists_first
    obtain ⟨rfl, listed, trailing, spelt, read⟩ :=
      denotes_bracket letter plain whole denotes (kind.imp_left And.left)
    obtain ⟨several, rfl⟩ := (SegmentForm.expr?_listing listed trailing).1 read
    obtain rfl : e = _ := by
      rcases kind with ⟨-, same⟩ | ⟨more, ⟨⟩⟩
      exact same
    exact ⟨_, several, rfl, (listsFaces_iff (nonempty several)).2 ⟨listed, trailing, spelt, rfl⟩⟩
  · rintro ⟨faces, several, rfl, list⟩
    obtain ⟨listed, trailing, spelt, rfl⟩ := (listsFaces_iff (nonempty several)).1 list
    refine parse_of_lexes (.listing listed trailing) ?_ ?_
      ((SegmentForm.expr?_listing listed trailing).2 ⟨several, rfl⟩)
    · rw [SegmentForm.tokens_listing]
      have closes : Spelt (inner ++ [']']) (listedFaceTokens trailing listed ++ [.rightBracket]) :=
        (spelt_symbol_iff rfl).2 ⟨inner, [], rfl, spelt, .nil⟩
      exact lexes_of_spelt ((spelt_bracket_iff letter).2 ⟨_, rfl, closes⟩)
    · rw [SegmentForm.listing, SegmentForm.tokens_unmodified]
      exact add_notMem_diceTokens _

/-- A minus sign apart from its digits, leading zeros, blanks of three bytes and
one more comma. -/
def looseFaces : Text := " - 2 ,007\u3000, ".toList

/-- The two faces of the die are those that are listed in front of the last
comma. -/
theorem parse_faces_iff_loose :
    parse ('d' :: '[' :: (looseFaces ++ [']'])) =
        .ok (.die (.custom [.clamp (-2), 7] (by decide))) ∧
      ∃ faces atLeastTwo, Expr.die (.custom [.clamp (-2), 7] (by decide)) =
        .die (.custom faces atLeastTwo) ∧ ListsFaces looseFaces faces := by
  have accepted : parse ('d' :: '[' :: (looseFaces ++ [']'])) =
      .ok (.die (.custom [.clamp (-2), 7] (by decide))) := by decide +kernel
  exact ⟨accepted, (parse_faces_iff (by decide) (by decide)).1 accepted⟩

/-- There is no comma in a face. -/
theorem WritesFace.comma_notMem (face : WritesFace text value) : ',' ∉ text := by
  have digits : ∀ {digits : Text} {n : Nat}, Decimal digits n → ',' ∉ digits :=
    fun decimal mem => absurd (decimal.all ',' mem) (by decide)
  have blanks : ∀ {blanks : Text}, blanks.blank = true → ',' ∉ blanks :=
    fun blank mem => absurd (List.all_eq_true.1 blank ',' mem) (by decide)
  cases face with
  | plain left decimal right => simp [blanks left, digits decimal, blanks right]
  | minus left inside decimal right =>
    simp [blanks left, blanks inside, digits decimal, blanks right]

/-- There is one comma less than faces. So a list with one more comma is not a
list of faces that are written. -/
theorem WritesFaces.count_comma (list : WritesFaces text faces) (some : faces ≠ []) :
    text.count ',' + 1 = faces.length := by
  obtain ⟨pieces, rfl, each⟩ := list
  induction each with
  | nil => exact absurd rfl some
  | @cons piece face pieces faces head tail ih =>
    have none : piece.count ',' = 0 := List.count_eq_zero.2 head.comma_notMem
    cases tail with
    | nil => rw [join_singleton, none]; rfl
    | cons =>
      have ih := ih (by simp)
      have one : List.count ',' [','] = 1 := by decide
      rw [join_cons_cons, List.count_append, List.count_append, none, one, List.length_cons, ← ih]
      omega

/-- One more comma is accepted, and there is no face behind it: not everything
that is accepted is a list with commas between its faces. -/
theorem not_writesFaces_of_parse :
    ¬ ∀ c inner e, c.toLower = 'd' → '[' ∉ inner → ']' ∉ inner →
      parse (c :: '[' :: (inner ++ [']'])) = .ok e →
        ∃ faces atLeastTwo, e = .die (.custom faces atLeastTwo) ∧ WritesFaces inner faces := by
  intro always
  have accepted : parse ('d' :: '[' :: ("1,2,".toList ++ [']'])) =
      .ok (.die (.custom [1, 2] (by decide))) := by decide +kernel
  obtain ⟨faces, several, same, list⟩ :=
    always 'd' "1,2,".toList _ (by decide) (by decide) (by decide) accepted
  obtain rfl : [1, 2] = faces := by
    injection same with same
    injection same
  have count := list.count_comma (by simp)
  exact absurd count (by decide)

/-! ## Dice and their texts -/

/-- What is accepted without parentheses and plus signs is a segment of dice. So
it has a form, and the form is read off its tokens. -/
theorem exists_form_of_parse (solid : text.blank = false)
    (plain : ∀ c ∈ text, c ≠ '(' ∧ c ≠ '+') (ok : parse text = .ok e) :
    ∃ form : SegmentForm, Lexes text form.tokens ∧ form.expr? = some e := by
  obtain ⟨segment, extra, x, rfl, denotes, kind⟩ := ((parse_eq_ok_iff solid).1 ok).1.exists_first
  rcases kind with ⟨rfl, rfl⟩ | ⟨more, rfl⟩
  · rw [List.append_nil] at plain ⊢
    cases denotes with
    | dice form lexes read => exact ⟨form, lexes, read⟩
    | group => exact absurd rfl (plain '(' (by simp)).1
  · exact absurd rfl (plain '+' (by simp)).2

/-- A die whose text is accepted has tokens, and so none of its faces is the
least score. -/
theorem legibleDie_of_parse {d : Die} (ok : parse d.text = .ok e) : LegibleDie d := by
  have letter : ∃ rest, d.text = 'D' :: rest := by cases d <;> exact ⟨_, rfl⟩
  have solid : d.text.blank = false := by
    obtain ⟨rest, whole⟩ := letter
    have first : isBlank 'D' = false := by decide
    simp [whole, Text.blank, first]
  obtain ⟨form, lexes, -⟩ := exists_form_of_parse solid
    (fun c mem => ⟨(Die.of_mem_text mem).2.1, (Die.of_mem_text mem).2.2.2⟩) ok
  exact (spelt_die_iff.1 (spelt_of_lexes lexes)).1

/-- **A die is read from its text exactly if the least score is none of its
faces,** and as itself. If it is, the text is refused. -/
theorem parse_die_text_iff (d : Die) :
    (parse d.text = .ok (.die d) ↔ LegibleDie d) ∧
      ((∃ e, parse d.text = .ok e) ↔ LegibleDie d) := by
  have ok_of_legible : LegibleDie d → parse d.text = .ok (.die d) := by
    intro legible
    have read := parse_text (Expr.Every.die_iff.2 legible)
    rw [Expr.reading, Expr.rereadable_die, if_pos rfl, Expr.regrouped_die, Expr.text] at read
    exact ok_of_toOption read
  exact ⟨⟨legibleDie_of_parse, ok_of_legible⟩,
    ⟨fun accepted => accepted.elim fun e ok => legibleDie_of_parse ok,
      fun legible => ⟨_, ok_of_legible legible⟩⟩⟩

/-- The digits of the least score are past the range, and the minus sign does
not belong to them. -/
theorem not_parse_die_text : ¬ ∀ d : Die, parse d.text = .ok (.die d) := by
  intro always
  have refused : parse (Die.custom [.lowest, 1] (by decide)).text =
      .error ((Fault.number .tooLarge).located 22) := by decide +kernel
  rw [always] at refused
  cases refused

end Notation

end Dice
