import Dice.Proofs.DieText
import Dice.Proofs.Notation.Spelt
import Dice.Proofs.Notation.Tokens

/-!
# Parts of a spelled text

A text that is spelled by tokens can be taken apart in two ways. In front of a
character that no token goes on with, the tokens of the text are those of the
part before it and then those of the part after it (`Spelt.split`). And if one
of its tokens is a symbol, that symbol stands in the text, between what spells
the tokens before and what spells those after it (`Spelt.split_symbol`). What
has no tokens is blank, and a single number is digits with blanks around them.

Put together again, the parts are spelled by all of the tokens
(`Spelt.append`).

From this follows which written parts have tokens at all. A number has one if
it is a score, a die has its tokens unless the least score is one of its
faces, and a modifier has its tokens unless its number is past the range. In
each case the part is taken apart around the number in question.

Main statements: `Spelt.split`, `spelt_symbol_iff` and `spelt_number_iff`.
-/

namespace Dice.Notation

open Text

variable {a b text rest : Text} {token : Token} {tokens more : List Token} {c : Char}

/-! ## Where tokens end -/

theorem Token.Ends.of_append (ends : token.Ends (a ++ b)) : token.Ends a := by
  cases a with
  | nil => exact separate_nil.ends token
  | cons c a => cases token <;> exact ends

/-- A token that ends in front of a text ends in front of a longer one, if no
token goes on with what is added. -/
theorem Token.Ends.append (ends : token.Ends a) (separate : Separate b) : token.Ends (a ++ b) := by
  cases a with
  | nil => exact separate.ends token
  | cons c a => cases token <;> exact ends

/-- No token goes on with a blank. Blanks can be put between any two tokens. -/
theorem separate_blank (blank : isBlank c = true) (rest : Text) : Separate (c :: rest) := by
  obtain ⟨digit, -, h, l⟩ := ends_at_blank c blank
  simp [Separate, digit, h, l]

theorem separate_of_blank (blank : text.blank = true) : Separate text := by
  cases text with
  | nil => exact separate_nil
  | cons c rest => exact separate_blank (List.all_eq_true.1 blank c (by simp)) rest

/-- A symbol is no letter and no digit, so it is read by itself wherever it
stands. -/
theorem plain_of_ofSymbol? (symbol : Token.ofSymbol? c = some token) :
    c.isAlpha = false ∧ c.isDigit = false ∧ c.toLower ≠ 'h' ∧ c.toLower ≠ 'l' := by
  unfold Token.ofSymbol? at symbol
  split at symbol
  case h_6 =>
    split at symbol
    next op found =>
      unfold Operator.ofSymbol? at found
      split at found <;> first | decide | cases found
    next comparison _ found =>
      unfold Comparator.ofSymbol? at found
      split at found <;> first | decide | cases found
    next => cases symbol
  all_goals decide

/-- No token goes on with a symbol. In front of a symbol a text can be cut. -/
theorem separate_symbol (symbol : Token.ofSymbol? c = some token) (rest : Text) :
    Separate (c :: rest) := by
  simpa [Separate] using (plain_of_ofSymbol? symbol).2

/-! ## Putting together -/

/-- Two spelled texts are spelled by both lists of tokens, if the second begins
with nothing that the last token of the first could go on with. -/
theorem Spelt.append (front : Spelt a tokens) (separate : Separate b) (back : Spelt b more) :
    Spelt (a ++ b) (tokens ++ more) := by
  induction front with
  | nil => exact back
  | blank blank after ih => exact .blank blank ih
  | token spelled ends after ih =>
    rw [List.append_assoc]
    exact .token spelled (ends.append separate) ih

/-- Blanks in front of a text have no tokens. -/
theorem Spelt.behind_blanks (blank : a.blank = true) (back : Spelt b tokens) :
    Spelt (a ++ b) tokens := by
  induction a with
  | nil => exact back
  | cons c a ih =>
    have both : isBlank c = true ∧ Text.blank a = true := by simpa [Text.blank] using blank
    exact .blank both.1 (ih both.2)

/-- Nothing but blanks has no tokens, and a text without tokens is nothing but
blanks. -/
theorem spelt_nil_iff : Spelt text [] ↔ text.blank = true := by
  constructor
  · intro spelt
    generalize none : ([] : List Token) = tokens at spelt
    induction spelt with
    | nil => rfl
    | blank blank after ih => exact Bool.and_eq_true_iff.2 ⟨blank, ih none⟩
    | token => cases none
  · intro blank
    simpa using Spelt.behind_blanks blank .nil

/-! ## Taking apart -/

/-- A token in front of a text is the first of its tokens, and the others are
those of the rest. -/
theorem spelt_token_iff (spelled : token.SpelledBy a) (ends : token.Ends rest) :
    Spelt (a ++ rest) tokens ↔ ∃ more, tokens = token :: more ∧ Spelt rest more := by
  constructor
  · intro spelt
    have lexes := lexes_of_spelt spelt
    rw [Lexes, TokenStream.ofText_token spelled ends] at lexes
    exact ⟨_, lexes.tokens_eq.symm, spelt_of_lexes ((holds_ofText_iff _).1 ⟨lexes.sound, rfl⟩)⟩
  · rintro ⟨more, rfl, spelt⟩
    exact .token spelled ends spelt

/-- A token that is spelled in several characters goes on with digits, or with
an `h` or an `l`. -/
theorem Token.SpelledBy.of_inner (spelled : token.SpelledBy (a ++ c :: rest)) (some : a ≠ []) :
    c.isDigit = true ∨ c.toLower = 'h' ∨ c.toLower = 'l' := by
  obtain ⟨first, a, rfl⟩ := List.exists_cons_of_ne_nil some
  cases token with
  | number value => exact .inl (spelled.1 c (by simp))
  | selection rule =>
    refine .inr ?_
    have whole : ∃ letter, a.map Char.toLower ++ c.toLower :: rest.map Char.toLower = [letter] ∧
        (letter = 'h' ∨ letter = 'l') := by
      cases rule <;> exact ⟨_, by simpa using (List.cons.inj spelled).2, by decide⟩
    obtain ⟨letter, single, kind⟩ := whole
    cases a with
    | nil =>
      obtain ⟨rfl, -⟩ := List.cons.inj single
      exact kind
    | cons => simp at single
  | operator op => cases op <;> simp [SpelledBy, spelling] at spelled
  | comparator d => cases d <;> simp [SpelledBy, spelling] at spelled
  | _ => simp [SpelledBy, spelling] at spelled

/-- **A text is taken apart in front of a character that no token goes on
with.** -/
theorem Spelt.split (spelt : Spelt (a ++ b) tokens) (separate : Separate b) :
    ∃ before after, tokens = before ++ after ∧ Spelt a before ∧ Spelt b after := by
  generalize whole : a ++ b = text at spelt
  induction spelt generalizing a with
  | nil =>
    obtain ⟨rfl, rfl⟩ := List.append_eq_nil_iff.1 whole
    exact ⟨[], [], rfl, .nil, .nil⟩
  | @blank c rest tokens blank spelt ih =>
    cases a with
    | nil =>
      obtain rfl : b = c :: rest := whole
      exact ⟨[], tokens, rfl, .nil, .blank blank spelt⟩
    | cons d a =>
      obtain ⟨rfl, rfl⟩ := List.cons.inj whole
      obtain ⟨before, after, rfl, left, right⟩ := ih rfl
      exact ⟨before, after, rfl, .blank blank left, right⟩
  | @token front rest token tokens spelled ends spelt ih =>
    rcases List.append_eq_append_iff.1 whole with ⟨inner, rfl, rfl⟩ | ⟨inner, rfl, rfl⟩
    · -- the text is taken apart in a token, and then in front or behind it
      by_cases none : a = []
      · subst none
        exact ⟨[], _, rfl, .nil, .token spelled ends spelt⟩
      cases inner with
      | nil =>
        obtain ⟨before, after, rfl, left, right⟩ := ih (List.nil_append rest)
        rw [List.append_nil] at spelled
        have alone := Spelt.token spelled ends.of_append left
        rw [List.append_nil] at alone
        exact ⟨token :: before, after, rfl, alone, right⟩
      | cons c inner =>
        -- a token that goes on behind the cut would have to go on with what no token goes on with
        obtain ⟨digit, h, l⟩ := separate c rfl
        rcases spelled.of_inner none with isDigit | is | is
        · rw [digit] at isDigit
          cases isDigit
        · exact absurd is h
        · exact absurd is l
    · obtain ⟨before, after, rfl, left, right⟩ := ih rfl
      exact ⟨token :: before, after, rfl, .token spelled ends.of_append left, right⟩

/-- A symbol is spelled in one way. -/
theorem eq_singleton_of_spelledBy (symbol : Token.ofSymbol? c = some token)
    (spelled : token.SpelledBy a) : a = [c] := by
  have plain := (plain_of_ofSymbol? symbol).1
  have own := (spelledBy_of_ofSymbol? symbol).1
  cases token with
  | number value => exact absurd symbol (ofSymbol?_ne_number c value)
  | _ => exact eq_singleton_of_map_toLower_eq plain (Eq.trans spelled own.symm)

/-- In front of a symbol and behind it a text is taken apart. The induction is
on how the text is spelled. -/
theorem Spelt.split_symbol (symbol : Token.ofSymbol? c = some token)
    (spelt : Spelt text (tokens ++ token :: more)) :
    ∃ a b, text = a ++ c :: b ∧ Spelt a tokens ∧ Spelt b more := by
  generalize whole : tokens ++ token :: more = all at spelt
  induction spelt generalizing tokens with
  | nil => simp at whole
  | @blank d rest all blank spelt ih =>
    obtain ⟨a, b, rfl, left, right⟩ := ih whole
    exact ⟨d :: a, b, rfl, .blank blank left, right⟩
  | @token front rest next all spelled ends spelt ih =>
    cases tokens with
    | nil =>
      obtain ⟨rfl, rfl⟩ := List.cons.inj whole
      rw [eq_singleton_of_spelledBy symbol spelled]
      exact ⟨[], rest, rfl, .nil, spelt⟩
    | cons first tokens =>
      obtain ⟨rfl, rfl⟩ := List.cons.inj whole
      obtain ⟨a, b, rfl, left, right⟩ := ih rfl
      exact ⟨front ++ a, b, by simp, .token spelled ends.of_append left, right⟩

/-- **A symbol among the tokens of a text stands between its parts.** Lists of
faces are taken apart with it, comma by comma. -/
theorem spelt_symbol_iff (symbol : Token.ofSymbol? c = some token) :
    Spelt text (tokens ++ token :: more) ↔
      ∃ a b, text = a ++ c :: b ∧ Spelt a tokens ∧ Spelt b more := by
  refine ⟨Spelt.split_symbol symbol, ?_⟩
  rintro ⟨a, b, rfl, left, right⟩
  obtain ⟨own, ends⟩ := spelledBy_of_ofSymbol? symbol
  exact left.append (separate_symbol symbol b) (.token own (ends b) right)

/-- A number alone is its digits, with blanks around them. -/
theorem spelt_number_iff {value : Score} : Spelt text [.number value] ↔
    ∃ front digits back : Text, text = front ++ (digits ++ back) ∧ front.blank = true ∧
      back.blank = true ∧ (∀ c ∈ digits, c.isDigit = true) ∧ Score.read digits = .ok value := by
  constructor
  · intro spelt
    generalize single : [Token.number value] = tokens at spelt
    induction spelt with
    | nil => cases single
    | @blank c rest tokens blank spelt ih =>
      obtain ⟨front, digits, back, rfl, left, right, spelled⟩ := ih single
      exact ⟨c :: front, digits, back, rfl, Bool.and_eq_true_iff.2 ⟨blank, left⟩, right, spelled⟩
    | @token front rest next tokens spelled ends spelt ih =>
      obtain ⟨rfl, rfl⟩ := List.cons.inj single
      exact ⟨[], front, rest, rfl, rfl, spelt_nil_iff.1 spelt, spelled⟩
  · rintro ⟨front, digits, back, rfl, left, right, spelled⟩
    have number : Token.SpelledBy (.number value) digits := spelled
    have ends : Token.Ends (.number value) back := (separate_of_blank right).ends _
    exact .behind_blanks left (.token number ends (spelt_nil_iff.2 right))

/-! ## Written numbers -/

/-- A text is spelled by one list of tokens only. A spelling says what is read,
and a text is read in one way. -/
theorem Spelt.unique (spelt : Spelt text tokens) (spelt' : Spelt text more) : tokens = more :=
  (lexes_of_spelt spelt).tokens_eq.symm.trans (lexes_of_spelt spelt').tokens_eq

/-- Tokens that are written down are the tokens of their text. Nothing needs to
be put between them. -/
theorem Spelled.spelt (spelled : Spelled tokens) : Spelt (tokens.flatMap Token.spelling) tokens :=
  spelt_of_lexes (holds_ofText_spelling spelled.spellable spelled.apart 0)

/-- The digits of a number are one token if the number is a score, and else they
are none. -/
theorem spelt_ofNat_iff {n : Nat} : Spelt (ofNat n) tokens ↔
    (n : Int) ≤ Score.highest.val ∧ tokens = [.number (.clamp n)] := by
  have written : (n : Int) ≤ Score.highest.val → Spelt (ofNat n) [.number (.clamp n)] := by
    intro fits
    have exact : (Score.clamp n).val = n := Score.val_clamp_of_mem (by omega) fits
    have spelt := (spelled_number (Score.nonneg_clamp n)).spelt
    simpa [Token.spelling, exact] using spelt
  constructor
  · intro spelt
    by_cases fits : (n : Int) ≤ Score.highest.val
    · exact ⟨fits, spelt.unique (written fits)⟩
    -- past the range the digits are at fault, and a text with a fault is not spelled at all
    · have past : Score.highest.val < n := by omega
      have ends : ∀ c ∈ ([] : Text).head?, c.isDigit = false := by simp
      obtain ⟨fault, stop, stream⟩ := ofText_of_lt past ends 0
      have sound := (lexes_of_spelt spelt).sound
      rw [List.append_nil] at stream
      rw [stream] at sound
      cases sound
  · rintro ⟨fits, rfl⟩
    exact written fits

/-- The text of a score has tokens unless it is that of the least one. The
digits of that are past the greatest score. -/
theorem spelt_score_iff {a : Score} :
    Spelt a.text tokens ↔ a ≠ .lowest ∧ tokens = scoreTokens a := by
  have written : a ≠ .lowest → Spelt a.text (scoreTokens a) := fun ne =>
    spelling_scoreTokens ne ▸ (spelled_scoreTokens a).spelt
  constructor
  · intro spelt
    have ne : a ≠ .lowest := by
      rintro rfl
      have minus : Token.ofSymbol? '-' = some (.operator .subtract) := rfl
      have written : Spelt (['-'] ++ ofNat 9223372036854775808) tokens := spelt
      obtain ⟨behind, -, digits⟩ :=
        (spelt_token_iff (spelledBy_of_ofSymbol? minus).1 trivial).1 written
      exact absurd (spelt_ofNat_iff.1 digits).1 (by decide)
    exact ⟨ne, spelt.unique (written ne)⟩
  · rintro ⟨ne, rfl⟩
    exact written ne

/-! ## Written dice and modifiers -/

/-- If the text of a die has tokens, the least score is not among its faces: its
digits would be a token of their own. -/
theorem legibleDie_of_spelt {d : Die} (spelt : Spelt d.text tokens) : LegibleDie d := by
  cases d with
  | custom faces several =>
    rintro _ mem rfl
    obtain ⟨front, back, joined, kind⟩ : ∃ front back, join [','] (faces.map Score.text) =
        front ++ (Score.lowest.text ++ back) ∧ (back = [] ∨ ∃ rest, back = ',' :: rest) :=
      exists_join_of_mem (List.mem_map_of_mem mem)
    have bracket : Token.ofSymbol? ']' = some .rightBracket := rfl
    have comma : Token.ofSymbol? ',' = some .comma := rfl
    have minus : Token.ofSymbol? '-' = some (.operator .subtract) := rfl
    have separate : Separate (back ++ [']']) := by
      rcases kind with rfl | ⟨rest, rfl⟩
      · exact separate_symbol bracket []
      · exact separate_symbol comma _
    have written : (Die.custom faces several).text =
        ('D' :: '[' :: front) ++ (Score.lowest.text ++ (back ++ [']'])) := by
      simp [Die.text, joined]
    -- the face stands between characters that no token goes on with
    rw [written] at spelt
    obtain ⟨-, behind, -, -, face⟩ := spelt.split (separate_symbol minus _)
    obtain ⟨alone, -, -, face, -⟩ := face.split separate
    exact (spelt_score_iff.1 face).1 rfl
  | _ => trivial

/-- The text of a die has tokens unless the least score is one of its faces.
Then they are the tokens of the die. -/
theorem spelt_die_iff {d : Die} : Spelt d.text tokens ↔ LegibleDie d ∧ tokens = dieTokens d := by
  have written : LegibleDie d → Spelt d.text (dieTokens d) := fun legible =>
    spelling_dieTokens legible ▸ (spelled_dieTokens d).spelt
  constructor
  · intro spelt
    have legible := legibleDie_of_spelt spelt
    exact ⟨legible, spelt.unique (written legible)⟩
  · rintro ⟨legible, rfl⟩
    exact written legible

/-- If the text of a modifier has tokens, its number is within the range. A text
with any other number has no tokens at all. -/
theorem legible_of_spelt {m : Modifier} (spelt : Spelt m.text tokens) : m.Legible := by
  cases m with
  | selection rule threshold =>
    have letters : Token.SpelledBy (.selection rule) rule.text := rfl
    obtain ⟨more, -, digits⟩ := (spelt_token_iff letters trivial).1 spelt
    exact (spelt_ofNat_iff.1 digits).1
  | explosion c threshold =>
    rintro rfl
    have mark : Token.SpelledBy .explode ['!'] := rfl
    obtain ⟨symbol, ends⟩ := spelledBy_of_ofSymbol? (Token.ofSymbol?_comparator c)
    have written : (Modifier.explosion c (some .lowest)).text =
        ['!'] ++ ([c.symbol] ++ Score.lowest.text) := by cases c <;> rfl
    rw [written] at spelt
    obtain ⟨condition, -, spelt⟩ := (spelt_token_iff mark trivial).1 spelt
    obtain ⟨score, -, spelt⟩ := (spelt_token_iff symbol (ends _)).1 spelt
    exact (spelt_score_iff.1 spelt).1 rfl

/-- The text of a modifier has tokens unless its number is out of range. With
`spelt_die_iff` this covers all numbers of a segment but the quantity. -/
theorem spelt_modifier_iff {m : Modifier} :
    Spelt m.text tokens ↔ m.Legible ∧ tokens = m.tokens := by
  have written : m.Legible → Spelt m.text m.tokens := fun legible =>
    spelling_modifierTokens legible ▸ (spelled_modifierTokens m).spelt
  constructor
  · intro spelt
    have legible := legible_of_spelt spelt
    exact ⟨legible, spelt.unique (written legible)⟩
  · rintro ⟨legible, rfl⟩
    exact written legible

/-- Operators with their constants are spelled by their tokens. -/
theorem spelt_operators (operators : List (Operator × UInt32)) :
    Spelt (operatorsText operators) (operatorTokens operators) :=
  spelling_operatorTokens operators ▸ (spelled_operatorTokens operators).spelt

end Dice.Notation
