import Dice.Proofs.Notation.Parts
import Dice.Proofs.Notation.Placed
import Dice.Proofs.Notation.Visited

/-!
# Where an invalid character is reported

A character that no token begins with is the fault of the segment in which it
stands. The reader has passed what is in front of it, tokens and blanks, and
counts each of them as one on from the byte at which it began: that of the
segment, or the one behind the parentheses that the segment begins with.

Tokens are spelled in characters of one byte, but a blank may take two or
three. So the position is the byte of the character only as long as no such
blank was passed; behind one it is too small, and as the character is not
among those that were passed, it is not even the byte of another one like it.

`Visit.Shows` says where the character stands in a segment and how its
position is counted. It is carried from the segments to the texts that hold
them, as every fault is reported together with the segments that were visited
until then.

Main statement: `invalid_at_iff`.
-/

namespace Dice

open Text

namespace Notation

variable {α : Type} {c : Char} {text passed : Text} {token : Token} {tokens : List Token}
  {position : Nat} {visits : Array Visit} {read : Nat → Text → Reading Expr}

/-! ## Invalid characters -/

/-- Whether no token begins with a character, and it is no blank. A letter of
ASCII is not invalid: it is reported as a word. -/
structure Invalid (c : Char) : Prop where
  blank : isBlank c = false
  digit : c.isDigit = false
  letter : c.isAlpha = false
  symbol : Token.ofSymbol? c = none

/-- The character at fault is the one at the front, and nothing behind it was
looked at. -/
theorem invalid_of_broken {first : Char} {rest : Text} {width : Nat}
    (read : Lexeme.read first rest = .broken (.invalidToken c) width) :
    c = first ∧ width = 0 ∧ Invalid c := by
  unfold Lexeme.read at read
  split at read
  next => cases read
  next blank =>
    split at read
    next =>
      dsimp only at read
      split at read <;> cases read
    next digit =>
      split at read
      next =>
        split at read
        next => cases read
        next =>
          -- stray words have faults of their own
          injection read with read _
          unfold Lexeme.strayWord at read
          split at read <;> cases read
      next letter =>
        split at read
        next => cases read
        next symbol =>
          cases read
          simp only [Bool.not_eq_true] at blank digit letter
          exact ⟨rfl, rfl, blank, digit, letter, symbol⟩

/-- Symbols are tokens by themselves, and everything else in a token is a digit
or a letter. -/
theorem Invalid.notMem_spelling (invalid : Invalid c) (token : Token) : c ∉ token.spelling := by
  have only : ∀ {d : Char}, Token.ofSymbol? d = some token → c ≠ d := by
    rintro d symbol rfl
    rw [invalid.symbol] at symbol
    cases symbol
  have letters : ∀ {d : Char}, d.isAlpha = true → c ≠ d := by
    rintro d letter rfl
    rw [invalid.letter] at letter
    cases letter
  -- the character differs from every digit, letter and symbol that a token is made of
  cases token with
  | number value =>
    intro mem
    have digit := invalid.digit
    rw [isDigit_of_mem_ofNat mem] at digit
    cases digit
  | operator op => simpa [Token.spelling] using only (Token.ofSymbol?_symbol op)
  | comparator d => simpa [Token.spelling] using only (Token.ofSymbol?_comparator d)
  | selection rule =>
    cases rule <;>
      simpa [Token.spelling, Selection.text] using ⟨letters (by decide), letters (by decide)⟩
  | dice | fudge => simpa [Token.spelling] using letters (by decide)
  | percent | leftBracket | rightBracket | comma | explode =>
    simpa [Token.spelling] using only rfl

/-- Whichever way a token is written, the character is not in it. Tokens consist
of digits, of letters, or of one symbol. -/
theorem Invalid.notMem_of_spelledBy (invalid : Invalid c) (spelled : token.SpelledBy text) :
    c ∉ text := by
  intro mem
  cases token with
  | number value =>
    have digit := invalid.digit
    rw [spelled.1 c mem] at digit
    cases digit
  | _ => exact invalid.notMem_spelling _ (mem_of_map_toLower_eq spelled invalid.letter mem)

/-- What was passed does not hold the character. -/
theorem Invalid.notMem_of_spelt (invalid : Invalid c) (spelt : Spelt passed tokens) :
    c ∉ passed := by
  induction spelt with
  | nil => exact List.not_mem_nil
  | @blank d rest tokens blank after ih =>
    refine List.not_mem_cons_of_ne_of_not_mem ?_ ih
    rintro rfl
    rw [invalid.blank] at blank
    cases blank
  | token spelled ends after ih =>
    exact fun mem => (List.mem_append.1 mem).elim (invalid.notMem_of_spelledBy spelled) ih

/-! ## Bytes that were passed -/

theorem utf8Size_of_isAlpha {d : Char} (letter : d.isAlpha = true) : d.utf8Size = 1 := by
  have low : d.val.toNat ≤ 122 := by
    rcases Bool.or_eq_true_iff.1 letter with upper | lower
    · obtain ⟨-, high⟩ : 'A'.val ≤ d.val ∧ d.val ≤ 'Z'.val := of_decide_eq_true upper
      exact Nat.le_trans (UInt32.le_iff_toNat_le.1 high) (by decide)
    · have high : d.val ≤ 'z'.val := of_decide_eq_true (Bool.and_eq_true_iff.1 lower).2
      exact UInt32.le_iff_toNat_le.1 high
  rw [Char.utf8Size_eq_one_iff, UInt32.le_iff_toNat_le]
  exact Nat.le_trans low (by decide)

/-- A token is spelled in characters of one byte. So a count of its characters
is one of its bytes. -/
theorem Token.SpelledBy.utf8Size (spelled : token.SpelledBy text) :
    ∀ d ∈ text, d.utf8Size = 1 := by
  have symbols : ∀ d ∈ token.spelling, d.utf8Size = 1 := by
    cases token with
    | number value =>
      exact fun d mem => forall_isDigit (p := (·.utf8Size = 1)) (by decide) d
        (isDigit_of_mem_ofNat mem)
    | operator op => cases op <;> exact forall_mem (by decide)
    | comparator d => cases d <;> exact forall_mem (by decide)
    | selection rule => cases rule <;> exact forall_mem (by decide)
    | _ => exact forall_mem (by decide)
  intro d mem
  cases letter : d.isAlpha with
  | true => exact utf8Size_of_isAlpha letter
  | false =>
    cases token with
    | number value => exact forall_isDigit (p := (·.utf8Size = 1)) (by decide) d (spelled.1 d mem)
    | _ => exact symbols d (mem_of_map_toLower_eq spelled letter mem)

/-- What was passed are blanks and characters of one byte. Only blanks can make
characters and bytes differ. -/
theorem Spelt.utf8Size (spelt : Spelt passed tokens) :
    ∀ d ∈ passed, isBlank d = false → d.utf8Size = 1 := by
  induction spelt with
  | nil => simp
  | blank blank after ih =>
    refine List.forall_mem_cons.2 ⟨fun other => ?_, ih⟩
    rw [blank] at other
    cases other
  | token spelled ends after ih =>
    intro d mem other
    exact (List.mem_append.1 mem).elim (spelled.utf8Size d) fun mem => ih d mem other

/-- A text has as many bytes as characters if each of them has one byte. -/
theorem byteLength_eq_length_iff (text : Text) :
    text.byteLength = text.length ↔ ∀ d ∈ text, d.utf8Size = 1 := by
  induction text with
  | nil => simp
  | cons d rest ih =>
    have size := d.utf8Size_pos
    have short := length_le_byteLength rest
    rw [List.forall_mem_cons, ← ih, byteLength_cons, List.length_cons]
    omega

/-- What was passed has as many bytes as characters exactly if its blanks have
one byte each. -/
theorem Spelt.byteLength_eq_length_iff (spelt : Spelt passed tokens) :
    passed.byteLength = passed.length ↔ ∀ d ∈ passed, isBlank d = true → d.utf8Size = 1 := by
  rw [Notation.byteLength_eq_length_iff]
  refine ⟨fun all d mem _ => all d mem, fun blanks d mem => ?_⟩
  cases blank : isBlank d with
  | true => exact blanks d mem blank
  | false => exact spelt.utf8Size d mem blank

/-! ## Streams -/

/-- Where a stream stops for an invalid character, it has passed what is in
front of it. -/
theorem exists_passed {text : Text} (position : Nat)
    (failed : (TokenStream.ofText position text).fault = some (.invalidToken c)) :
    ∃ passed after tokens, text = passed ++ c :: after ∧ Spelt passed tokens ∧ Invalid c ∧
      (TokenStream.ofText position text).stop = position + passed.length := by
  -- a token takes several characters at once, so the induction is on the length
  induction length : text.length using Nat.strongRecOn generalizing text position with
  | ind n ih =>
    subst length
    cases text with
    | nil => cases failed
    | cons first rest =>
      cases read : Lexeme.read first rest with
      | blank =>
        have blank := isBlank_of_read read
        rw [TokenStream.ofText_blank blank] at failed ⊢
        obtain ⟨passed, after, tokens, rfl, spelt, invalid, stop⟩ :=
          ih _ (by simp) (position + 1) failed rfl
        refine ⟨first :: passed, after, tokens, rfl, .blank blank spelt, invalid, ?_⟩
        rw [stop, List.length_cons]
        omega
      | token found width =>
        obtain ⟨tail, behind, rfl, rfl, spelled, ends⟩ := exists_spelling_of_read read
        have shorter : behind.length < (first :: (tail ++ behind)).length := by
          rw [List.length_cons, List.length_append]
          omega
        have stream := TokenStream.ofText_token spelled ends position
        rw [List.cons_append] at stream
        rw [stream] at failed ⊢
        obtain ⟨passed, after, tokens, rfl, spelt, invalid, stop⟩ := ih _ shorter _ failed rfl
        refine ⟨first :: tail ++ passed, after, found :: tokens, by simp,
          .token spelled ends.of_append spelt, invalid, ?_⟩
        rw [List.length_append, ← Nat.add_assoc]
        exact stop
      | broken fault width =>
        rw [TokenStream.ofText, TokenStream.scan, read] at failed ⊢
        obtain rfl : fault = .invalidToken c := Option.some.inj failed
        obtain ⟨rfl, rfl, invalid⟩ := invalid_of_broken read
        exact ⟨[], rest, [], rfl, .nil, invalid, rfl⟩

/-! ## Segments -/

/-- What is read of a segment token by token: all of it, or what is behind the
parentheses that it begins with. -/
def tokenText : Text → Text
  | [] => []
  | first :: rest =>
    if first = '(' then
      match splitAtClose 0 [] rest with
      | some (_, suffix) => suffix
      | none => []
    else first :: rest

theorem tokenText_cons {first : Char} (plain : first ≠ '(') (rest : Text) :
    tokenText (first :: rest) = first :: rest := if_neg plain

theorem tokenText_group {interior suffix rest : Text}
    (cut : splitAtClose 0 [] rest = some (interior, suffix)) :
    tokenText ('(' :: rest) = suffix := by
  rw [tokenText, if_pos rfl, cut]

/-- Whether an invalid character stands in what is read of a segment, and a
position counts what was passed from where that began. -/
def Visit.Shows (visit : Visit) (c : Char) (position : Nat) : Prop :=
  ∃ front passed after tokens, visit.text = front ++ (passed ++ c :: after) ∧
    tokenText visit.text = passed ++ c :: after ∧ Spelt passed tokens ∧ Invalid c ∧
    position = visit.offset + front.byteLength + passed.length

/-- Whether a fault, if it is that of an invalid character, is where a visited
segment shows it. -/
def Shown (visits : Array Visit) (fault : Fault) (position : Nat) : Prop :=
  ∀ c, fault = .invalidToken c → ∃ visit ∈ visits, visit.Shows c position

theorem Shown.of_other {fault : Fault}
    (other : ∀ c, fault ≠ .invalidToken c) : Shown visits fault position :=
  fun c same => absurd same (other c)

/-- What is shown by some segments is shown by more of them. -/
theorem Shown.mono {more : Array Visit} {fault : Fault}
    (le : ∀ visit ∈ visits, visit ∈ more) (shown : Shown visits fault position) :
    Shown more fault position := by
  intro c same
  obtain ⟨visit, met, shows⟩ := shown c same
  exact ⟨visit, le visit met, shows⟩

/-- The tokens of a segment show what is invalid in it. What stands in front of
the tokens is dice or parentheses, counted in bytes. -/
theorem allows_shown {visit : Visit} (met : visit ∈ visits) {front suffix : Text}
    (whole : visit.text = front ++ suffix)
    (tokens : tokenText visit.text = suffix) {place : Nat}
    (start : place = visit.offset + front.byteLength) :
    (TokenStream.ofText place suffix).Allows (Shown visits) := by
  constructor
  · rintro fault failed c rfl
    obtain ⟨passed, after, spelling, rfl, spelt, invalid, stop⟩ := exists_passed place failed
    exact ⟨visit, met, front, passed, after, spelling, whole, tokens, spelt, invalid, start ▸ stop⟩
  · rintro position mem fault grammatical
    refine .of_other ?_
    rintro c rfl
    cases grammatical

/-! ## Notations -/

/-- Whether an invalid character is reported as a segment shows it that was
visited. -/
def Reading.Shown (reading : Reading α) : Prop :=
  Reported (Notation.Shown reading.visits) (fun _ => True) reading.result

/-- Whether that is so of whatever is read of a text. -/
def Shows (read : Nat → Text → Reading Expr) : Prop := ∀ offset text, (read offset text).Shown

/-- Segments that are read one after the other show what is invalid in the last
one of them. -/
theorem Shows.readAll (shows : Shows read) (pieces : List Text) :
    ∀ (offset : Nat) (visits : Array Visit) (trees : List Expr),
      (readAll read offset visits trees pieces).Shown := by
  induction pieces with
  | nil => exact fun offset visits trees => .ok trivial
  | cons piece rest ih =>
    intro offset visits trees
    have first : (read offset piece).Shown := shows offset piece
    rw [readAll_cons]
    split
    next error failed =>
      rw [Reading.Shown, failed] at first
      cases first with
      | error allowed =>
        exact .error (allowed.mono fun visit met => Array.mem_append.2 (.inr met))
    next => exact ih _ _ _

/-- Parentheses are no invalid characters where a text is cut. The faults
reported there are of another kind. -/
theorem reported_segments (visits : Array Visit) (offset : Nat) (text : Text) :
    Reported (Shown visits) (fun _ => True) (segments offset text) := by
  have located : ∀ depth index error, unbalanced? depth index text = some error →
      ∃ fault position, error = Fault.located fault position ∧ Shown visits fault position := by
    intro depth index error found
    fun_induction unbalanced? depth index text with
    | case1 => cases found
    | case2 =>
      cases found
      exact ⟨_, _, rfl, .of_other nofun⟩
    | case4 =>
      cases found
      exact ⟨_, _, rfl, .of_other nofun⟩
    | case3 _ _ _ ih | case5 _ _ _ _ ih | case6 _ _ _ _ _ _ ih => exact ih found
  unfold segments
  split
  next error found =>
    obtain ⟨fault, position, rfl, shown⟩ := located 0 offset error found
    exact .error shown
  next => exact .ok trivial

theorem Shows.readText (shows : Shows read) : Shows (readText read) := by
  intro offset text
  unfold Notation.readText
  split
  next => exact .ok trivial
  next =>
    have cut := reported_segments #[] offset text
    split
    next error failed =>
      rw [failed] at cut
      cases cut with
      | error allowed => exact .error allowed
    next pieces _ =>
      exact (shows.readAll pieces offset #[] []).bind fun _ _ => .ok trivial

/-- Behind parentheses the tokens begin at the byte that follows them, which the
segment shows. -/
theorem Shows.readNested {inner : Option (Nat → Text → Reading Expr)}
    (shows : ∀ read ∈ inner, Shows read) (offset : Nat) (rest : Text)
    (met : ⟨'(' :: rest, offset⟩ ∈ visits)
    (within : ∀ visit ∈ (readNested inner offset rest).visits, visit ∈ visits) :
    Reported (Shown visits) (fun _ => True) (readNested inner offset rest).result := by
  unfold Notation.readNested at within ⊢
  cases inner with
  | none => exact .error (.of_other nofun)
  | some read =>
    cases cut : splitAtClose 0 [] rest with
    | none =>
      exact .error (.of_other nofun)
    | some parts =>
      obtain ⟨interior, suffix⟩ := parts
      rw [cut] at within
      dsimp only at within ⊢
      split
      next => exact .error (.of_other nofun)
      next solid =>
        rw [if_neg solid] at within
        have whole : rest = interior ++ ')' :: suffix := by
          simpa using reverse_append_of_splitAtClose cut
        have nested := Shows.readText (shows read rfl) (offset + 1) interior
        refine Reported.bind (nested.mono fun _ _ => Shown.mono within) fun e _ => ?_
        -- what is behind the parentheses begins one byte after the closing one
        have tokens : (TokenStream.ofText (offset + interior.byteLength + 2) suffix).Allows
            (Shown visits) := by
          have front : '(' :: rest = '(' :: (interior ++ [')']) ++ suffix := by simp [whole]
          refine allows_shown met front (tokenText_group cut) ?_
          have one : byteLength [')'] = 1 ∧ Char.utf8Size '(' = 1 := by decide
          rw [byteLength_cons, byteLength_append, one.1, one.2]
          dsimp only
          omega
        exact tokens.reported_ready.bind fun stream after => readModifiers_keeps e after

theorem Shows.readPiece {inner : Option (Nat → Text → Reading Expr)}
    (shows : ∀ read ∈ inner, Shows read) : Shows (readPiece inner) := by
  intro offset piece
  unfold Notation.readPiece
  dsimp only
  generalize offset + (piece.byteLength - piece.trimStart.byteLength) = place
  cases piece.trimStart.trimEnd with
  | nil => exact .error (.of_other nofun)
  | cons first rest =>
    dsimp only
    split
    next opens =>
      subst opens
      exact Shows.readNested shows place rest (by simp) fun visit met =>
        Array.mem_append.2 (.inr met)
    next plain =>
      have tokens : (TokenStream.ofText place (first :: rest)).Allows
          (Shown #[⟨first :: rest, place⟩]) :=
        allows_shown (Array.mem_singleton.2 rfl) (List.nil_append _).symm
          (tokenText_cons plain rest) rfl
      exact tokens.reported_ready.bind fun stream after => readSegment_keeps after

theorem shows_readPieceWithin (levels : Nat) : Shows (readPieceWithin levels) := by
  induction levels with
  | zero => exact Shows.readPiece (by simp)
  | succ levels ih => exact Shows.readPiece (by simpa using ih)

/-- An invalid character is shown by a segment that was visited. The segment
tells where the character stands and which position is reported. -/
theorem exists_visit_of_invalid
    (failed : parse text = .error ((Fault.invalidToken c).located position)) :
    ∃ visit ∈ (compile text).visits, visit.Shows c position := by
  have shown : (compile text).Shown := (shows_readPieceWithin nestingLimit).readText 0 text
  rw [Reading.Shown, show (compile text).result = _ from failed] at shown
  cases shown with
  | error allowed => exact allowed c rfl

/-! ## Bytes -/

/-- Whether a character stands at a byte of a text. It may stand at others as
well. -/
def StandsAt (text : Text) (c : Char) (position : Nat) : Prop :=
  ∃ front back, text = front ++ c :: back ∧ front.byteLength = position

/-- A character that was not passed before stands where characters are counted
for bytes only if they were bytes. -/
theorem standsAt_iff {before after : Text} (other : c ∉ passed) :
    StandsAt (before ++ passed ++ c :: after) c (before.byteLength + passed.length) ↔
      passed.byteLength = passed.length := by
  have short := length_le_byteLength passed
  constructor
  · rintro ⟨front, back, whole, place⟩
    rcases List.append_eq_append_iff.1 whole with ⟨more, rfl, rest⟩ | ⟨more, early, rest⟩
    · -- the character that was found is behind what was passed
      rw [byteLength_append, byteLength_append] at place
      omega
    -- found any earlier, the character would be in what was passed
    · cases more with
      | nil =>
        have size := congrArg byteLength early
        simp only [byteLength_append, List.append_nil] at size
        omega
      | cons d more =>
        obtain rfl : d = c := (List.cons.inj rest).1.symm
        exfalso
        rcases List.append_eq_append_iff.1 early with ⟨inner, rfl, rfl⟩ | ⟨inner, rfl, rest⟩
        · exact other (by simp)
        · rw [byteLength_append] at place
          cases inner with
          | nil =>
            have same : passed = d :: more := rest.symm
            exact other (by simp [same])
          | cons x inner =>
            have size := x.utf8Size_pos
            rw [byteLength_cons] at place
            omega
  · intro same
    exact ⟨before ++ passed, after, rfl, by rw [byteLength_append, same]⟩

/-- **An invalid character is reported where it stands exactly if only blanks of
one byte were passed.** It stands in a segment that was visited, behind what was
passed from the beginning of the segment, or of what is behind its parentheses.
The position is as many bytes on from there as characters were passed. -/
theorem invalid_at_iff
    (failed : parse text = .error ((Fault.invalidToken c).located position)) :
    ∃ visit ∈ (compile text).visits, ∃ front passed after tokens,
      visit.text = front ++ (passed ++ c :: after) ∧
      tokenText visit.text = passed ++ c :: after ∧ Spelt passed tokens ∧
      StandsAt text c (visit.offset + front.byteLength + passed.byteLength) ∧
      position = visit.offset + front.byteLength + passed.length ∧
      (StandsAt text c position ↔ ∀ d ∈ passed, isBlank d = true → d.utf8Size = 1) := by
  obtain ⟨visit, met, front, passed, after, tokens, whole, read, spelt, invalid, rfl⟩ :=
    exists_visit_of_invalid failed
  obtain ⟨before, behind, same, start⟩ :=
    (traced_compile text).stands visit (Array.mem_toList_iff.2 met)
  rw [Nat.zero_add] at start
  -- the segment stands in the text where its offset says, in bytes
  have split : text = (before ++ front) ++ passed ++ c :: (after ++ behind) := by
    rw [same, whole]
    simp
  have place : byteLength (before ++ front) = visit.offset + front.byteLength := by
    rw [byteLength_append, start]
  refine ⟨visit, met, front, passed, after, tokens, whole, read, spelt, ?_, rfl, ?_⟩
  · exact ⟨before ++ front ++ passed, after ++ behind, split, by rw [byteLength_append, place]⟩
  · rw [← spelt.byteLength_eq_length_iff, ← place, split]
    exact standsAt_iff (invalid.notMem_of_spelt spelt)

/-- Blanks of three bytes in front of a segment and in its parentheses do not
count, and one of two bytes behind the parentheses does: the character stands at
byte 17. -/
theorem invalid_at_iff_behind_parentheses :
    ∃ visit ∈ (compile "d4+\u3000(d6\u3000)*\u00a02$".toList).visits, ∃ front passed after tokens,
      visit.text = front ++ (passed ++ '$' :: after) ∧
      tokenText visit.text = passed ++ '$' :: after ∧ Spelt passed tokens ∧
      StandsAt "d4+\u3000(d6\u3000)*\u00a02$".toList '$'
        (visit.offset + front.byteLength + passed.byteLength) ∧
      16 = visit.offset + front.byteLength + passed.length ∧
      (StandsAt "d4+\u3000(d6\u3000)*\u00a02$".toList '$' 16 ↔
        ∀ d ∈ passed, isBlank d = true → d.utf8Size = 1) :=
  invalid_at_iff (by decide +kernel)

/-- Behind a blank of three bytes the position is two bytes too small: the blank
is counted as one. -/
theorem not_standsAt_of_invalid :
    ¬ ∀ text c position, parse text = .error ((Fault.invalidToken c).located position) →
      StandsAt text c position := by
  intro always
  have failed : parse "d6\u3000$".toList = .error ((Fault.invalidToken '$').located 3) := by
    decide +kernel
  have stands : StandsAt ([] ++ "d6\u3000".toList ++ '$' :: []) '$'
      (byteLength [] + "d6\u3000".toList.length) := always _ '$' 3 failed
  have same := (standsAt_iff (by decide)).1 stands
  exact absurd same (by decide)

end Notation

end Dice
