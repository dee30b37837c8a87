import Mathlib.Data.List.Forall2
import Dice.Proofs.Notation.Lexed

/-!
# Texts as spellings of tokens

Which texts consist of some tokens, said without reading them. A token is
spelled by its digits or by its letters in either case (`Token.SpelledBy`),
and a text is `Spelt` by tokens if it is their spellings in order, with blanks
wherever one likes, and each token ends where the next part begins
(`Token.Ends`): digits that follow would belong to a number, and an `h` or an
`l` to the letter of a die.

A text that is spelt may have another one behind it. The tokens of both are
then those of the first and those of the second, and how the second goes on
makes no difference to the first (`ofText_append`).

That reading and spelling come to the same is shown for one token at a time. A
token is read where it is spelled and ends (`read_of_spelledBy`), and where it
is read it was spelled and ended (`exists_spelling_of_read`). Both go through
the tokens by what their spelling begins with.

Main statements: `ofText_append`, `lexes_iff_spelt` and
`holds_ofText_spelling`.
-/

namespace Dice

namespace Text

variable {c d : Char}

/-! ## Letters of either case -/

/-- A character is its own lower case, or it is a capital letter. Letters
outside of ASCII are left as they are. -/
theorem eq_or_isUpper_of_toLower_eq (same : c.toLower = d) :
    c = d ∨ 65 ≤ c.toNat ∧ c.toNat ≤ 90 ∧ d.toNat = c.toNat + 32 := by
  unfold Char.toLower at same
  split at same
  next upper =>
    have low : 65 ≤ c.toNat := UInt32.le_iff_toNat_le.1 upper.1
    have high : c.toNat ≤ 90 := UInt32.le_iff_toNat_le.1 upper.2
    refine .inr ⟨low, high, ?_⟩
    rw [← same]
    show (c.val + 32).toNat = c.toNat + 32
    rw [UInt32.toNat_add, Char.toNat_val]
    exact Nat.mod_eq_of_lt (by simp; omega)
  next => exact .inl same

/-- There are two characters with the lower case of a letter. Which letters can
spell a token is decided by looking at both. -/
theorem eq_or_eq_of_toLower_eq (same : c.toLower = d) :
    c = d ∨ c = Char.ofNat (d.toNat - 32) := by
  rcases eq_or_isUpper_of_toLower_eq same with rfl | ⟨-, -, place⟩
  · exact .inl rfl
  · rw [place, Nat.add_sub_cancel, Char.ofNat_toNat]
    exact .inr rfl

theorem toNat_of_isAlpha_eq_false (plain : d.isAlpha = false) :
    (65 ≤ d.toNat → 90 < d.toNat) ∧ (97 ≤ d.toNat → 122 < d.toNat) := by
  obtain ⟨upper, lower⟩ : d.isUpper = false ∧ d.isLower = false := Bool.or_eq_false_iff.1 plain
  have upper : ¬ (65 ≤ d.toNat ∧ d.toNat ≤ 90) := of_decide_eq_false upper
  have lower : (decide (97 ≤ d.toNat) && decide (d.toNat ≤ 122)) = false := lower
  rw [Bool.and_eq_false_imp, decide_eq_true_eq, decide_eq_false_iff_not] at lower
  omega

/-- Only letters have another case. -/
theorem eq_of_toLower_eq (plain : d.isAlpha = false) (same : c.toLower = d.toLower) : c = d := by
  have other := toNat_of_isAlpha_eq_false plain
  rcases eq_or_isUpper_of_toLower_eq (rfl : d.toLower = d.toLower) with own | upper
  · rcases eq_or_isUpper_of_toLower_eq (same.trans own.symm) with rfl | upper
    · rfl
    · omega
  · omega

/-- A text without letters is written in one way only. Numbers and symbols are
such texts. -/
theorem eq_of_map_toLower_eq {a b : Text} (plain : ∀ c ∈ b, c.isAlpha = false)
    (same : a.map Char.toLower = b.map Char.toLower) : a = b := by
  induction a generalizing b with
  | nil => exact (List.map_eq_nil_iff.1 same.symm).symm
  | cons c a ih =>
    obtain ⟨d, b, rfl, lower, rest⟩ := List.map_eq_cons_iff.1 same.symm
    obtain ⟨other, others⟩ := List.forall_mem_cons.1 plain
    rw [eq_of_toLower_eq other lower.symm, ih others rest.symm]

theorem eq_singleton_of_map_toLower_eq {a : Text} (plain : d.isAlpha = false)
    (same : a.map Char.toLower = [d.toLower]) : a = [d] :=
  eq_of_map_toLower_eq (by simpa using plain) same

end Text

namespace Notation

open Text

variable {text rest after front back : Text} {token : Token} {tokens : List Token} {c first : Char}

/-! ## Spellings -/

namespace Token

/-- Whether a text is one of the ways to write a token: as digits, or in letters
of any case. -/
def SpelledBy : Token → Text → Prop
  | number value, text => (∀ c ∈ text, c.isDigit = true) ∧ Score.read text = .ok value
  | token, text => text.map Char.toLower = token.spelling.map Char.toLower

/-- Whether a token ends in front of a text, so that the text cannot be taken
for more of it. -/
def Ends : Token → Text → Prop
  | number _, rest => ∀ c ∈ rest.head?, c.isDigit = false
  | dice, rest => ∀ c ∈ rest.head?, c.toLower ≠ 'h' ∧ c.toLower ≠ 'l'
  | _, _ => True

theorem SpelledBy.ne_nil (spelled : token.SpelledBy text) : text ≠ [] := by
  intro none
  subst none
  cases token with
  | number value => cases spelled.2
  | operator op => cases op <;> cases spelled
  | comparator c => cases c <;> cases spelled
  | selection rule => cases rule <;> cases spelled
  | _ => cases spelled

end Token

/-! ## Reading one token -/

/-- Letters that make a token are read as it. -/
theorem read_of_ofLetters? {width : Nat}
    (found : Token.ofLetters? first rest = some (token, width)) :
    Lexeme.read first rest = .token token width := by
  have letter : first.toLower = 'd' ∨ first.toLower = 'k' ∨ first.toLower = 'f' := by
    unfold Token.ofLetters? at found
    split at found <;> simp_all
  have kind : isBlank first = false ∧ first.isDigit = false ∧ first.isAlpha = true := by
    rcases letter with lower | lower | lower <;>
    · rcases eq_or_eq_of_toLower_eq lower with rfl | rfl <;> decide
  simp [Lexeme.read, kind, found]

/-- A token is read where it is spelled and ends. That it ends is a condition on
the text behind it alone. -/
theorem read_of_spelledBy {tail : Text} (spelled : token.SpelledBy (first :: tail))
    (ends : token.Ends rest) :
    Lexeme.read first (tail ++ rest) = .token token (tail.length + 1) := by
  cases token with
  | number value =>
    obtain ⟨all, value_eq⟩ := spelled
    rw [read_digits all ends, value_eq]
  -- the letter alone, as the one behind it makes no name of a rule of it
  | dice =>
    obtain ⟨c, same, lower⟩ := List.map_eq_singleton_iff.1 spelled
    obtain ⟨rfl, rfl⟩ := List.cons.inj same
    refine read_of_ofLetters? ?_
    have lower : first.toLower = 'd' := lower
    cases rest with
    | nil => simp [Token.ofLetters?, lower]
    | cons second rest =>
      have other := ends second rfl
      simp [Token.ofLetters?, lower, other]
  | fudge =>
    obtain ⟨c, same, lower⟩ := List.map_eq_singleton_iff.1 spelled
    obtain ⟨rfl, rfl⟩ := List.cons.inj same
    have lower : first.toLower = 'f' := lower
    exact read_of_ofLetters? (by simp [Token.ofLetters?, lower])
  | selection rule =>
    cases rule <;>
    · obtain ⟨c, more, same, lower, after⟩ := List.map_eq_cons_iff.1 spelled
      obtain ⟨rfl, rfl⟩ := List.cons.inj same
      obtain ⟨second, rfl, lower'⟩ := List.map_eq_singleton_iff.1 after
      exact read_of_ofLetters? (by simp [Token.ofLetters?, lower, lower'])
  | operator op =>
    cases op <;>
    · obtain ⟨rfl, rfl⟩ := List.cons.inj (eq_singleton_of_map_toLower_eq rfl spelled)
      rfl
  | comparator c =>
    cases c <;>
    · obtain ⟨rfl, rfl⟩ := List.cons.inj (eq_singleton_of_map_toLower_eq rfl spelled)
      rfl
  | _ =>
    obtain ⟨rfl, rfl⟩ := List.cons.inj (eq_singleton_of_map_toLower_eq rfl spelled)
    rfl

/-- What is read as a blank is one. -/
theorem isBlank_of_read (read : Lexeme.read first rest = .blank) : isBlank first = true := by
  unfold Lexeme.read at read
  split at read
  next blank => exact blank
  next =>
    split at read
    next =>
      dsimp only at read
      split at read <;> cases read
    next => split at read <;> split at read <;> cases read

/-- The symbol of a token is its spelling. -/
theorem spelledBy_of_ofSymbol? (symbol : Token.ofSymbol? c = some token) :
    token.SpelledBy [c] ∧ ∀ rest, token.Ends rest := by
  unfold Token.ofSymbol? at symbol
  split at symbol
  case h_6 =>
    split at symbol
    next op found =>
      cases symbol
      unfold Operator.ofSymbol? at found
      split at found <;> cases found <;> exact ⟨rfl, fun _ => trivial⟩
    next comparison _ found =>
      cases symbol
      unfold Comparator.ofSymbol? at found
      split at found <;> cases found <;> exact ⟨rfl, fun _ => trivial⟩
    next => cases symbol
  all_goals
    cases symbol
    exact ⟨rfl, fun _ => trivial⟩

/-- The letters of a token are its spelling, one or two of them. After two of
them anything may follow. -/
theorem exists_spelling_of_ofLetters? {width : Nat}
    (found : Token.ofLetters? first rest = some (token, width)) :
    ∃ tail after, rest = tail ++ after ∧ width = tail.length + 1 ∧
      token.SpelledBy (first :: tail) ∧ token.Ends after := by
  have next : ∀ letter, rest.head?.map Char.toLower = some letter →
      ∃ second after, rest = second :: after ∧ second.toLower = letter := by
    intro letter some
    obtain ⟨second, head, lower⟩ := Option.map_eq_some_iff.1 some
    obtain ⟨after, whole⟩ := List.head?_eq_some_iff.1 head
    exact ⟨second, after, whole, lower⟩
  unfold Token.ofLetters? at found
  split at found
  -- a single letter of a die: the next one is none of a rule
  case h_5 lower h l =>
    cases found
    refine ⟨[], rest, rfl, rfl, by simpa [Token.SpelledBy, Token.spelling] using lower, ?_⟩
    intro c head
    exact ⟨fun same => h (by rw [Option.mem_def.1 head, Option.map_some, same]),
      fun same => l (by rw [Option.mem_def.1 head, Option.map_some, same])⟩
  case h_6 lower =>
    cases found
    exact ⟨[], rest, rfl, rfl, by simpa [Token.SpelledBy, Token.spelling] using lower, trivial⟩
  case h_7 => cases found
  -- the four rules, with a second letter
  all_goals
    next lower lower' =>
    cases found
    obtain ⟨second, after, rfl, low⟩ := next _ lower'
    refine ⟨[second], after, rfl, rfl, ?_, trivial⟩
    simp only [Token.SpelledBy, List.map_cons, List.map_nil, lower, low]
    rfl

/-- Where a token is read, it is spelled and ends. With `read_of_spelledBy` this
says exactly what is read at the front of a text. -/
theorem exists_spelling_of_read {width : Nat} (read : Lexeme.read first rest = .token token width) :
    ∃ tail after, rest = tail ++ after ∧ width = tail.length + 1 ∧
      token.SpelledBy (first :: tail) ∧ token.Ends after := by
  unfold Lexeme.read at read
  split at read
  next => cases read
  next =>
    split at read
    next digit =>
      dsimp only at read
      split at read
      next value value_eq =>
        cases read
        -- the digits that are taken are all that there are
        rw [List.takeWhile_cons_of_pos digit] at value_eq ⊢
        refine ⟨rest.takeWhile Char.isDigit, rest.dropWhile Char.isDigit,
          List.takeWhile_append_dropWhile.symm, rfl, ⟨?_, value_eq⟩, ?_⟩
        · exact List.forall_mem_cons.2 ⟨digit, List.all_eq_true.1 List.all_takeWhile⟩
        · intro c mem
          have stop := List.head?_dropWhile_not Char.isDigit rest
          rw [Option.mem_def.1 mem] at stop
          simpa using stop
      next => cases read
    next =>
      split at read
      next =>
        split at read
        next found width letters =>
          cases read
          exact exists_spelling_of_ofLetters? letters
        next => cases read
      next =>
        split at read
        next symbol =>
          cases read
          obtain ⟨spelled, ends⟩ := spelledBy_of_ofSymbol? symbol
          exact ⟨[], rest, rfl, rfl, spelled, ends rest⟩
        next => cases read

/-! ## Streams with tokens in front -/

namespace TokenStream

/-- A stream with some tokens in front of it. Its end and its fault are those of
the stream. -/
def behind (placed : List PlacedToken) (stream : TokenStream) : TokenStream :=
  { stream with tokens := placed ++ stream.tokens }

@[simp] theorem behind_nil (stream : TokenStream) : stream.behind [] = stream := rfl

@[simp] theorem behind_behind (stream : TokenStream) (a b : List PlacedToken) :
    (stream.behind b).behind a = stream.behind (a ++ b) := by
  simp [behind, List.append_assoc]

/-- The tokens that were found earlier stand in front of those that are found in
the rest of the text. -/
theorem scan_seen (text : Text) : ∀ (skip position : Nat) (seen : List PlacedToken),
    scan skip position seen text = (scan skip position [] text).behind seen.reverse := by
  induction text with
  | nil =>
    intro skip position seen
    simp [scan, behind]
  | cons c rest ih =>
    intro skip position seen
    cases skip with
    | succ skip => exact ih skip _ seen
    | zero =>
      unfold scan
      cases Lexeme.read c rest with
      | blank => exact ih 0 _ seen
      | token found width =>
        dsimp only
        rw [ih _ _ (_ :: seen), ih _ _ [_], behind_behind]
        simp
      | broken fault width => simp [behind]

/-- A blank in front is passed over, and counts as one position. -/
theorem ofText_blank (blank : isBlank c = true) (position : Nat) (rest : Text) :
    ofText position (c :: rest) = ofText (position + 1) rest := by
  have read : Lexeme.read c rest = .blank := by simp [Lexeme.read, blank]
  rw [ofText, scan, read]
  rfl

/-- A token in front is the first one of the stream, placed where it ends. -/
theorem ofText_token (spelled : token.SpelledBy front) (ends : token.Ends rest) (position : Nat) :
    ofText position (front ++ rest) =
      (ofText (position + front.length) rest).behind [⟨token, position + front.length⟩] := by
  cases front with
  | nil => exact absurd rfl spelled.ne_nil
  | cons first tail =>
    have read := read_of_spelledBy spelled ends
    have place : position + 1 + tail.length = position + (first :: tail).length := by
      rw [List.length_cons]
      omega
    rw [ofText, List.cons_append, scan, read]
    dsimp only
    rw [Nat.add_sub_cancel, scan_skip, scan_seen, place]
    rfl

end TokenStream

/-! ## Texts -/

/-- Whether a text is spelled by some tokens, with blanks anywhere between them.
-/
inductive Spelt : Text → List Token → Prop
  | nil : Spelt [] []
  | blank {c : Char} {rest : Text} {tokens : List Token} (blank : isBlank c = true)
    (after : Spelt rest tokens) : Spelt (c :: rest) tokens
  | token {front rest : Text} {token : Token} {tokens : List Token}
    (spelled : token.SpelledBy front) (ends : token.Ends rest) (after : Spelt rest tokens) :
    Spelt (front ++ rest) (token :: tokens)

/-- Whether every token ends in front of a text. Digits would go on with a
number, and two letters with the name of a rule. -/
def Separate (text : Text) : Prop :=
  ∀ c ∈ text.head?, c.isDigit = false ∧ c.toLower ≠ 'h' ∧ c.toLower ≠ 'l'

theorem separate_nil : Separate [] := by simp [Separate]

theorem Separate.ends (separate : Separate text) (token : Token) : token.Ends text := by
  cases token with
  | number value => exact fun c mem => (separate c mem).1
  | dice => exact fun c mem => (separate c mem).2
  | _ => trivial

/-- **The tokens of a text and of what comes after it** are those of the one and
then those of the other. -/
theorem ofText_append (spelt : Spelt front tokens) (separate : Separate back) (position : Nat) :
    ∃ placed : List PlacedToken, placed.map (·.token) = tokens ∧
      TokenStream.ofText position (front ++ back) =
        (TokenStream.ofText (position + front.length) back).behind placed := by
  induction spelt generalizing position with
  | nil => exact ⟨[], rfl, rfl⟩
  | @blank c rest tokens blank after ih =>
    obtain ⟨placed, same, stream⟩ := ih (position + 1)
    refine ⟨placed, same, ?_⟩
    rw [List.cons_append, TokenStream.ofText_blank blank, stream, List.length_cons,
      Nat.add_assoc, Nat.add_comm 1]
  | @token front rest token tokens spelled ends after ih =>
    obtain ⟨placed, same, stream⟩ := ih (position + front.length)
    -- a token that ends the front has the text behind it to end before
    have ends' : token.Ends (rest ++ back) := by
      cases rest with
      | nil => exact separate.ends token
      | cons c rest => cases token <;> exact ends
    refine ⟨⟨token, position + front.length⟩ :: placed, by simp [same], ?_⟩
    rw [List.append_assoc, TokenStream.ofText_token spelled ends', stream,
      TokenStream.behind_behind, List.length_append, Nat.add_assoc]
    rfl

theorem lexes_of_spelt (spelt : Spelt text tokens) : Lexes text tokens := by
  obtain ⟨placed, same, stream⟩ := ofText_append spelt separate_nil 0
  rw [List.append_nil] at stream
  rw [Lexes, stream]
  exact ⟨rfl, by simpa [TokenStream.behind] using same⟩

/-- A text is spelled by the tokens that are read from it. The induction is on
the length of the text, as a token takes several characters. -/
theorem spelt_of_lexes (lexes : Lexes text tokens) : Spelt text tokens := by
  -- a token takes several characters at once, so the induction is on the length
  induction length : text.length using Nat.strongRecOn generalizing text tokens with
  | ind n ih =>
    subst length
    cases text with
    | nil =>
      rw [show tokens = [] from lexes.tokens_eq.symm]
      exact .nil
    | cons c rest =>
      cases read : Lexeme.read c rest with
      | blank =>
        have blank := isBlank_of_read read
        rw [Lexes, TokenStream.ofText_blank blank, holds_ofText_iff] at lexes
        exact .blank blank (ih _ (by simp) lexes rfl)
      | token found width =>
        obtain ⟨tail, after, rfl, rfl, spelled, ends⟩ := exists_spelling_of_read read
        have stream := TokenStream.ofText_token spelled ends 0
        rw [List.cons_append] at stream
        rw [Lexes, stream] at lexes
        obtain ⟨more, rfl, left⟩ : ∃ more, tokens = found :: more ∧ Lexes after more :=
          ⟨_, lexes.tokens_eq.symm, (holds_ofText_iff _).1 ⟨lexes.sound, rfl⟩⟩
        have shorter : after.length < (c :: (tail ++ after)).length := by
          rw [List.length_cons, List.length_append]
          omega
        exact .token spelled ends (ih _ shorter left rfl)
      | broken fault width =>
        have sound := lexes.sound
        rw [TokenStream.ofText, TokenStream.scan, read] at sound
        cases sound

/-- **A text consists of the tokens that it is spelled by.** From here on texts
are taken apart into spellings, without a look at the reader. -/
theorem lexes_iff_spelt : Lexes text tokens ↔ Spelt text tokens := ⟨spelt_of_lexes, lexes_of_spelt⟩

/-! ## What is in a spelling -/

/-- What is no letter is the same in every spelling. -/
theorem mem_of_map_toLower_eq {a b : Text} (same : a.map Char.toLower = b.map Char.toLower)
    (plain : c.isAlpha = false) (mem : c ∈ a) : c ∈ b := by
  have lower : c.toLower ∈ b.map Char.toLower := same ▸ List.mem_map_of_mem mem
  obtain ⟨d, inside, same⟩ := List.mem_map.1 lower
  rwa [← eq_of_toLower_eq plain same]

/-- A token is spelled without blanks and parentheses, and only one of them with
a plus sign. -/
theorem Token.SpelledBy.of_mem (spelled : token.SpelledBy text) : ∀ c ∈ text,
    isBlank c = false ∧ c ≠ '(' ∧ c ≠ ')' ∧ (c = '+' → token = .operator .add) := by
  -- letters aside, a text has the characters of the spelling that the token has
  have plain : ∀ c, isBlank c = true → c.isAlpha = false := forall_isBlank (by decide +kernel)
  have letters : text.map Char.toLower = token.spelling.map Char.toLower → ∀ c ∈ text,
      isBlank c = false ∧ c ≠ '(' ∧ c ≠ ')' ∧ (c = '+' → token = .operator .add) := by
    intro same c mem
    have written := token.of_mem_spelling c
    have inside : c.isAlpha = false → c ∈ token.spelling := fun other =>
      mem_of_map_toLower_eq same other mem
    refine ⟨Bool.eq_false_iff.2 fun blank => ?_, ?_, ?_, ?_⟩
    · exact absurd blank (Bool.eq_false_iff.1 (written (inside (plain c blank))).1)
    · intro is
      subst is
      exact (written (inside rfl)).2.1 rfl
    · intro is
      subst is
      exact (written (inside rfl)).2.2.1 rfl
    · intro is
      subst is
      exact (written (inside rfl)).2.2.2 rfl
  cases token with
  | number value =>
    have other : ∀ c, c.isDigit = true →
        isBlank c = false ∧ c ≠ '(' ∧ c ≠ ')' ∧ c ≠ '+' := forall_isDigit (by decide)
    intro c mem
    obtain ⟨blank, opens, closes, plus⟩ := other c (spelled.1 c mem)
    exact ⟨blank, opens, closes, fun same => absurd same plus⟩
  | _ => exact letters spelled

/-- No token is taken for the end of the one before it, unless both are numbers.
-/
theorem Token.SpelledBy.of_head (spelled : token.SpelledBy (first :: rest)) :
    (first.isDigit = true → token.isNumber = true) ∧
      first.toLower ≠ 'h' ∧ first.toLower ≠ 'l' := by
  have letters : (first :: rest).map Char.toLower = token.spelling.map Char.toLower →
      (first.isDigit = true → token.isNumber = true) ∧
        first.toLower ≠ 'h' ∧ first.toLower ≠ 'l' := by
    intro same
    obtain ⟨c, tail, written, digit, h, l, -⟩ := token.spelling_eq_cons
    rw [written] at same
    have lower : first.toLower = c.toLower := (List.cons.inj same).1
    have plain : ∀ c : Char, c.isDigit = true → c.isAlpha = false := forall_isDigit (by decide)
    refine ⟨fun isDigit => digit ?_, lower ▸ h, lower ▸ l⟩
    rwa [eq_of_toLower_eq (plain first isDigit) lower.symm]
  cases token with
  | number value =>
    have other : ∀ c : Char, c.isDigit = true → c.toLower ≠ 'h' ∧ c.toLower ≠ 'l' :=
      forall_isDigit (by decide)
    exact ⟨fun _ => rfl, other first (spelled.1 first (by simp))⟩
  | _ => exact letters spelled

/-- A text of tokens has no parentheses, and no plus sign without the token of
it. -/
theorem Spelt.of_mem (spelt : Spelt text tokens) : ∀ c ∈ text,
    c ≠ '(' ∧ c ≠ ')' ∧ (c = '+' → .operator .add ∈ tokens) := by
  induction spelt with
  | nil => simp
  | blank blank _ ih =>
    have other : ∀ c, isBlank c = true → c ≠ '(' ∧ c ≠ ')' ∧ c ≠ '+' :=
      forall_isBlank (by decide +kernel)
    obtain ⟨opens, closes, plus⟩ := other _ blank
    exact List.forall_mem_cons.2 ⟨⟨opens, closes, fun same => absurd same plus⟩, ih⟩
  | @token front rest token tokens spelled _ _ ih =>
    intro c mem
    rcases List.mem_append.1 mem with mem | mem
    · obtain ⟨-, opens, closes, plus⟩ := spelled.of_mem c mem
      exact ⟨opens, closes, fun same => by simp [plus same]⟩
    · obtain ⟨opens, closes, plus⟩ := ih c mem
      exact ⟨opens, closes, fun same => List.mem_cons_of_mem _ (plus same)⟩

theorem plain_of_lexes (lexes : Lexes text tokens) : ∀ c ∈ text, c ≠ '(' ∧ c ≠ ')' := fun c mem =>
  have ⟨opens, closes, _⟩ := (lexes_iff_spelt.1 lexes).of_mem c mem
  ⟨opens, closes⟩

/-- Where no number follows another, each token ends by itself, in front of a
blank as well as in front of the next spelling. -/
theorem Spelt.ends_of_apart (spelt : Spelt text tokens) (apart : Apart (token :: tokens)) :
    token.Ends text := by
  cases spelt with
  | nil => exact separate_nil.ends token
  | @blank c rest _ blank _ =>
    obtain ⟨digit, -, h, l⟩ := ends_at_blank c blank
    have separate : Separate (c :: rest) := by simp [Separate, digit, h, l]
    exact separate.ends token
  | @token front rest next tokens spelled _ _ =>
    cases front with
    | nil => exact absurd rfl spelled.ne_nil
    | cons first tail =>
      -- only a number and the letter of a die ask for anything of what follows
      obtain ⟨digit, h, l⟩ := spelled.of_head
      have other := (List.isChain_cons_cons.1 apart).1
      cases token with
      | number value =>
        intro c mem
        cases mem
        refine Bool.eq_false_iff.2 fun isDigit => ?_
        rw [other rfl] at digit
        cases digit isDigit
      | dice =>
        intro c mem
        cases mem
        exact ⟨h, l⟩
      | _ => trivial

/-! ## Spellings put together -/

/-- A token is spelled by what is written for it. Other spellings of it differ
in the case of letters and in zeros in front. -/
theorem Token.spelledBy_spelling (spellable : token.Spellable) :
    token.SpelledBy token.spelling := by
  cases token with
  | number value =>
    have low : 0 ≤ value.val := spellable
    have high := value.le_highest
    refine ⟨fun c mem => isDigit_of_mem_ofNat mem, ?_⟩
    rw [Token.spelling, Score.read_ofNat (by simp only [Score.highest]; omega),
      Int.natAbs_of_nonneg low, Score.clamp_val]
  | _ => rfl

/-- Where no number follows another, spellings need nothing between them.
Letters and symbols end by themselves. -/
theorem spelt_flatten {pieces : List Text} (spelled : List.Forall₂ Token.SpelledBy tokens pieces)
    (apart : Apart tokens) : Spelt pieces.flatten tokens := by
  induction spelled with
  | nil => exact .nil
  | cons own others ih =>
    have after := ih apart.tail
    exact .token own (after.ends_of_apart apart) after

/-- **A list of tokens reads as it is spelled**, as long as no number follows
another. -/
theorem holds_ofText_spelling (spellable : ∀ token ∈ tokens, token.Spellable) (apart : Apart tokens)
    (position : Nat) :
    (TokenStream.ofText position (tokens.flatMap Token.spelling)).Holds tokens := by
  have spelled : List.Forall₂ Token.SpelledBy tokens (tokens.map Token.spelling) :=
    List.forall₂_map_right_iff.2 (List.forall₂_same.2 fun token mem =>
      token.spelledBy_spelling (spellable token mem))
  rw [holds_ofText_iff, List.flatMap_def]
  exact lexes_of_spelt (spelt_flatten spelled apart)

end Notation

end Dice
