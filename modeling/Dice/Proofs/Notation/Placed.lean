import Dice.Proofs.Notation.Reported
import Dice.Proofs.Notation.Unbalanced

/-!
# Where a notation is at fault

The parentheses of a notation are looked at first, and only once: each segment
of a balanced text is balanced, and so is what stands in the parentheses that
a segment begins with. So whatever goes wrong after that has another reason,
at every depth.

A segment begins at a byte of the notation, and positions in it count
characters. As no character is shorter than a byte, they stay in the text all
the same.

`Reading.Within` says both of what comes of reading a balanced text, and that
all segments met on the way are balanced. It goes from the segments to the
texts that they make and to the texts around them.

What is said about parentheses is stated with counts only: a prefix that
closes more of them than it opens, or a text that opens more than it closes.

Main statements: `located_of_parse` and `parentheses_reported`.
-/

namespace Dice

open Text

namespace Notation

variable {α : Type} {text : Text} {limit : Nat} {read : Nat → Text → Reading Expr}

/-! ## Parts of a balanced text -/

theorem balanced_of_blank (blank : text.blank = true) : text.Balanced := by
  have other : ∀ c, isBlank c = true → c ≠ '(' ∧ c ≠ ')' := forall_isBlank (by decide +kernel)
  exact balanced_of_plain fun c mem => other c (List.all_eq_true.1 blank c mem)

/-- What comes after a balanced part is balanced if the whole is. Modifiers
behind parentheses are such a part. -/
theorem balanced_of_append_right {a b : Text} (ha : a.Balanced) (whole : (a ++ b).Balanced) :
    b.Balanced := by
  have sound := unbalanced?_eq_none whole 0
  rw [unbalanced?_append ha] at sound
  exact balanced_of_unbalanced? sound

/-- What comes before a balanced part is balanced if the whole is. -/
theorem balanced_of_append_left {a b : Text} (hb : b.Balanced) (whole : (a ++ b).Balanced) :
    a.Balanced := by
  obtain ⟨covered, even⟩ := balanced_iff.1 whole
  obtain ⟨-, evenAfter⟩ := balanced_iff.1 hb
  refine balanced_iff.2 ⟨fun front le => covered front (le.trans (List.prefix_append a b)), ?_⟩
  rw [List.count_append, List.count_append] at even
  omega

/-- A balanced text is balanced without the blanks around it. A blank is no
parenthesis. -/
theorem balanced_trim (balanced : text.Balanced) : text.trimStart.trimEnd.Balanced := by
  have start : text.trimStart.Balanced := by
    rw [← takeWhile_append_trimStart text] at balanced
    exact balanced_of_append_right (balanced_of_blank (blank_takeWhile text)) balanced
  obtain ⟨rest, blanks, whole⟩ := exists_trimEnd_append text.trimStart
  rw [← whole] at start
  exact balanced_of_append_left (balanced_of_blank blanks) start

/-- In a balanced text the parenthesis in front has its partner. So the search
for it never fails where a segment is read. -/
theorem exists_splitAtClose {rest : Text} (balanced : Text.Balanced ('(' :: rest)) :
    ∃ interior suffix, rest = interior ++ ')' :: suffix ∧ interior.Balanced ∧
      splitAtClose 0 [] rest = some (interior, suffix) := by
  cases balanced with
  | plain _ _ opens => exact absurd rfl opens
  | group interior suffix inside _ =>
    exact ⟨interior, suffix, rfl, inside, splitAtClose_close inside suffix⟩

theorem byteLength_trimEnd_le (text : Text) : text.trimEnd.byteLength ≤ text.byteLength := by
  obtain ⟨rest, -, whole⟩ := exists_trimEnd_append text
  have size := congrArg byteLength whole
  rw [byteLength_append] at size
  omega

/-- A text trimmed at the front ends where it did. What is trimmed is added to
the offset. -/
theorem offset_add_byteLength_trimStart (offset : Nat) (text : Text) :
    offset + (text.byteLength - text.trimStart.byteLength) + text.trimStart.byteLength =
      offset + text.byteLength := by
  have size := congrArg byteLength (takeWhile_append_trimStart text)
  rw [byteLength_append] at size
  omega

/-! ## Reading balanced texts -/

/-- Whether a fault is one of parentheses. Such faults are reported for the text
as a whole, before it is cut. -/
def Fault.ofParentheses : Fault → Bool
  | unclosedParenthesis | unexpectedParenthesis => true
  | _ => false

/-- Whether a fault other than one of parentheses is reported up to a position. -/
def OtherUpTo (limit : Nat) (fault : Fault) (position : Nat) : Prop :=
  fault.ofParentheses = false ∧ position ≤ limit

theorem OtherUpTo.mono {limit' : Nat} (le : limit ≤ limit') {fault : Fault} {position : Nat}
    (other : OtherUpTo limit fault position) : OtherUpTo limit' fault position :=
  ⟨other.1, Nat.le_trans other.2 le⟩

/-- The tokens of a text report no faults of parentheses and none behind the
text. -/
theorem allows_otherUpTo {position : Nat} (le : position + text.byteLength ≤ limit) :
    (TokenStream.ofText position text).Allows (OtherUpTo limit) := by
  have short := text.length_le_byteLength
  refine TokenStream.allows_ofText fun fault kind stop within => ⟨?_, by omega⟩
  cases fault with
  | unclosedParenthesis | unexpectedParenthesis => rcases kind with kind | kind <;> cases kind
  | _ => rfl

/-- What reading a balanced text leaves: if a fault, then one that is not of
parentheses, up to the end of the text, and only balanced segments. -/
structure Reading.Within (limit : Nat) (reading : Reading α) : Prop where
  reported : Reported (OtherUpTo limit) (fun _ => True) reading.result
  balanced : ∀ visit ∈ reading.visits, visit.text.Balanced

/-- Whether whatever is read of a balanced text stays in it. Faults of
parentheses are ruled out, and positions go no further than the end. -/
def Contained (read : Nat → Text → Reading Expr) : Prop :=
  ∀ offset text, text.Balanced → (read offset text).Within (offset + text.byteLength)

/-- Segments that are read one after the other stay in the text that they make
up. -/
theorem Contained.readAll (contained : Contained read) (pieces : List Text)
    (balanced : ∀ piece ∈ pieces, piece.Balanced) :
    ∀ (offset : Nat) {visits : Array Visit} (trees : List Expr),
      (pieces ≠ [] → offset + (join ['+'] pieces).byteLength ≤ limit) →
      (∀ visit ∈ visits, visit.text.Balanced) →
      (readAll read offset visits trees pieces).Within limit := by
  induction pieces with
  | nil => exact fun offset visits trees _ before => ⟨.ok trivial, before⟩
  | cons piece rest ih =>
    intro offset visits trees le before
    have le := le (by simp)
    have first := contained offset piece (balanced piece (by simp))
    have met : ∀ visit ∈ visits ++ (read offset piece).visits, visit.text.Balanced := by
      intro visit mem
      exact (Array.mem_append.1 mem).elim (before visit) (first.balanced visit)
    -- after the last segment there is no plus sign, but nothing is read there either
    have head : offset + piece.byteLength ≤ limit := by
      cases rest with
      | nil => rwa [join_singleton] at le
      | cons next rest =>
        rw [join_cons_cons, byteLength_append, byteLength_append] at le
        omega
    have tail : rest ≠ [] →
        offset + piece.byteLength + 1 + (join ['+'] rest).byteLength ≤ limit := by
      intro some
      cases rest with
      | nil => exact absurd rfl some
      | cons next rest =>
        have plus : byteLength ['+'] = 1 := by decide
        rw [join_cons_cons, byteLength_append, byteLength_append, plus] at le
        omega
    rw [readAll_cons]
    have reported := first.reported
    split
    next error failed =>
      rw [failed] at reported
      cases reported with
      | error allowed => exact ⟨.error (allowed.mono head), met⟩
    next => exact ih (fun x hx => balanced x (by simp [hx])) _ _ tail met

/-- A text stays in itself, since it is cut without a fault. Every segment of it
ends where the text does, or before. -/
theorem Contained.readText (contained : Contained read) : Contained (readText read) := by
  intro offset text balanced
  unfold Notation.readText
  split
  next => exact ⟨.ok trivial, by simp⟩
  next =>
    rw [segments_ok (unbalanced?_eq_none balanced offset)]
    have all : (Notation.readAll read offset #[] [] (cutSegments text)).Within
        (offset + text.byteLength) :=
      contained.readAll _ (fun piece mem => (cutSegments_of_mem balanced mem).1) offset []
        (fun _ => by rw [join_cutSegments]) (by simp)
    exact ⟨all.reported.bind fun trees _ => .ok trivial, all.balanced⟩

/-- What stands in parentheses is balanced, and so is what is behind them. Both
are read from where they stand. -/
theorem Contained.readNested {inner : Option (Nat → Text → Reading Expr)}
    (contained : ∀ read ∈ inner, Contained read) {offset : Nat} {rest : Text}
    (balanced : Text.Balanced ('(' :: rest)) :
    (readNested inner offset rest).Within (offset + byteLength ('(' :: rest)) := by
  unfold Notation.readNested
  cases inner with
  | none => exact ⟨.error ⟨rfl, Nat.le_add_right _ _⟩, by simp⟩
  | some read =>
    obtain ⟨interior, suffix, rfl, inside, cut⟩ := exists_splitAtClose balanced
    -- what is behind the parentheses ends where the segment does
    have size : offset + byteLength ('(' :: (interior ++ ')' :: suffix)) =
        offset + interior.byteLength + 2 + byteLength suffix := by
      have one : Char.utf8Size '(' = 1 ∧ Char.utf8Size ')' = 1 := by decide
      rw [byteLength_cons, byteLength_append, byteLength_cons, one.1, one.2]
      omega
    rw [cut, size]
    dsimp only
    split
    next => exact ⟨.error ⟨rfl, by omega⟩, by simp⟩
    next =>
      have nested := (contained read rfl).readText (offset + 1) interior inside
      refine ⟨Reported.bind (nested.reported.mono fun _ _ => OtherUpTo.mono (by omega))
        fun e _ => ?_, nested.balanced⟩
      exact (allows_otherUpTo (Nat.le_refl _)).reported_ready.bind fun stream after =>
        readModifiers_keeps e after

theorem Contained.readPiece {inner : Option (Nat → Text → Reading Expr)}
    (contained : ∀ read ∈ inner, Contained read) : Contained (readPiece inner) := by
  intro offset piece balanced
  have trimmed := balanced_trim balanced
  have start := offset_add_byteLength_trimStart offset piece
  have short := byteLength_trimEnd_le piece.trimStart
  unfold Notation.readPiece
  dsimp only
  generalize offset + (piece.byteLength - piece.trimStart.byteLength) = place at start ⊢
  generalize piece.trimStart.trimEnd = text at trimmed short ⊢
  -- trimming both ends keeps the text within the piece
  have inside : place + text.byteLength ≤ offset + piece.byteLength := by omega
  cases text with
  | nil => exact ⟨.error ⟨rfl, Nat.le_trans (Nat.le_add_right _ _) inside⟩, by simpa using trimmed⟩
  | cons first rest =>
    dsimp only
    split
    next opens =>
      subst opens
      have nested : (Notation.readNested inner place rest).Within
          (place + byteLength ('(' :: rest)) := Contained.readNested contained trimmed
      refine ⟨nested.reported.mono fun _ _ => OtherUpTo.mono inside, fun visit mem => ?_⟩
      rcases Array.mem_append.1 mem with mem | mem
      · rw [Array.mem_singleton.1 mem]
        exact trimmed
      · exact nested.balanced visit mem
    next =>
      refine ⟨(allows_otherUpTo inside).reported_ready.bind fun stream after =>
        readSegment_keeps after, fun visit mem => ?_⟩
      rw [Array.mem_singleton.1 mem]
      exact trimmed

theorem contained_readPieceWithin (levels : Nat) : Contained (readPieceWithin levels) := by
  induction levels with
  | zero => exact Contained.readPiece (by simp)
  | succ levels ih => exact Contained.readPiece (by simpa using ih)

theorem within_compile (balanced : text.Balanced) : (compile text).Within text.byteLength := by
  have within := (contained_readPieceWithin nestingLimit).readText 0 text balanced
  rwa [Nat.zero_add] at within

/-! ## Faults of parentheses -/

/-- Whether a result says of the parentheses of a text what there is to say:
that the first one too many is closed, at its byte, or that one is still open,
at the end. -/
structure ReportsParentheses (text : Text) (result : Except ParseError α) : Prop where
  unexpected_iff : (∃ position, result = .error ⟨.unexpectedParenthesis, position⟩) ↔
    ∃ front : Text, front <+: text ∧ front.Overclosed
  unexpected_at : ∀ position, result = .error ⟨.unexpectedParenthesis, position⟩ →
    ∃ before : Text, before ++ [')'] <+: text ∧ Overclosed (before ++ [')']) ∧
      (∀ front : Text, front <+: text → front.Overclosed → before.length < front.length) ∧
      position = some before.byteLength
  unclosed_iff : (∃ position, result = .error ⟨.unclosedParenthesis, position⟩) ↔
    (∀ front : Text, front <+: text → ¬ front.Overclosed) ∧ text.count ')' < text.count '('
  unclosed_at : ∀ position, result = .error ⟨.unclosedParenthesis, position⟩ →
    position = some text.byteLength

/-- With a first parenthesis too many the result says that, and where it is. The
two other cases are a parenthesis that stays open and a balanced text. -/
theorem reportsParentheses_of_surplus {before after : Text} {result : Except ParseError α}
    (covered : Covered 0 before) (surplus : before.count ')' = before.count '(')
    (failed : result = .error (Fault.unexpectedParenthesis.located before.byteLength)) :
    ReportsParentheses (before ++ ')' :: after) result := by
  have found : before ++ [')'] <+: before ++ ')' :: after := ⟨after, by simp⟩
  have more : Overclosed (before ++ [')']) := by
    have one : List.count ')' [')'] = 1 ∧ List.count '(' [')'] = 0 := by decide
    rw [Overclosed, List.count_append, List.count_append, one.1, one.2]
    omega
  -- a prefix that is overclosed reaches past what is covered
  have least : ∀ front : Text, front <+: before ++ ')' :: after → front.Overclosed →
      before.length < front.length := by
    intro front le overclosed
    by_contra short
    have inside := List.prefix_of_prefix_length_le le (List.prefix_append before _)
      (Nat.le_of_not_lt short)
    exact covered_zero_iff.1 covered front inside overclosed
  subst failed
  refine ⟨⟨fun _ => ⟨_, found, more⟩, fun _ => ⟨_, rfl⟩⟩, ?_, ⟨?_, ?_⟩, ?_⟩
  · rintro _ ⟨⟩
    exact ⟨before, found, more, least, rfl⟩
  · rintro ⟨_, ⟨⟩⟩
  · rintro ⟨none, -⟩
    exact absurd more (none _ found)
  · rintro _ ⟨⟩

theorem reportsParentheses_of_covered {result : Except ParseError α} (covered : Covered 0 text)
    (unclosed : text.count ')' < text.count '(' →
      result = .error (Fault.unclosedParenthesis.located text.byteLength))
    (even : ¬ text.count ')' < text.count '(' →
      ∀ error, result = .error error → error.fault.ofParentheses = false) :
    ReportsParentheses text result := by
  have none := covered_zero_iff.1 covered
  -- no closing parenthesis is one too many
  have never : ∀ {p : Prop}, (∃ front : Text, front <+: text ∧ front.Overclosed) → p := by
    rintro p ⟨front, le, more⟩
    exact absurd more (none front le)
  by_cases left : text.count ')' < text.count '('
  · rw [unclosed left]
    refine ⟨⟨?_, never⟩, ?_, ⟨fun _ => ⟨none, left⟩, fun _ => ⟨_, rfl⟩⟩, ?_⟩
    · rintro ⟨_, ⟨⟩⟩
    · rintro _ ⟨⟩
    · rintro _ ⟨⟩
      rfl
  · have other := even left
    refine ⟨⟨?_, never⟩, ?_, ⟨?_, fun unclosed => absurd unclosed.2 left⟩, ?_⟩
    · rintro ⟨position, failed⟩
      cases other _ failed
    · intro position failed
      cases other _ failed
    · rintro ⟨position, failed⟩
      cases other _ failed
    · intro position failed
      cases other _ failed

/-- What the scan for parentheses finds is what is said of them, if it is
reported and nothing else is reported as such. -/
theorem reportsParentheses_of_unbalanced? {result : Except ParseError α}
    (found : ∀ error, unbalanced? 0 0 text = some error → result = .error error)
    (other : text.Balanced → ∀ error, result = .error error → error.fault.ofParentheses = false) :
    ReportsParentheses text result := by
  rcases covered_or_exists_surplus 0 text with covered | ⟨before, after, rfl, covered, surplus⟩
  · have scanned := unbalanced?_covered covered 0
    refine reportsParentheses_of_covered covered (fun left => ?_) fun even => other ?_
    · rw [if_pos left, Nat.zero_add] at scanned
      exact found _ scanned
    · rw [if_neg even] at scanned
      exact balanced_of_unbalanced? scanned
  · have even : before.count ')' = before.count '(' := by omega
    have scanned := unbalanced?_surplus covered even 0 after
    rw [Nat.zero_add] at scanned
    exact reportsParentheses_of_surplus covered even (found _ scanned)

theorem parse_of_unbalanced? {error : ParseError} (found : unbalanced? 0 0 text = some error) :
    parse text = .error error := by
  have solid : text.blank = false := by
    cases blank : text.blank with
    | false => rfl
    | true =>
      rw [unbalanced?_eq_none (balanced_of_blank blank)] at found
      cases found
  rw [parse, compile, readText, solid, if_neg Bool.false_ne_true, segments, found]

theorem ofParentheses_of_balanced (balanced : text.Balanced) {error : ParseError}
    (failed : parse text = .error error) :
    ∃ (fault : Fault) (position : Nat), error = fault.located position ∧
      fault.ofParentheses = false ∧ position ≤ text.byteLength := by
  have reported := (within_compile balanced).reported
  rw [show (compile text).result = .error error from failed] at reported
  cases reported with
  | error allowed => exact ⟨_, _, rfl, allowed.1, allowed.2⟩

/-- No segment is met in a text that is not balanced. Such a text is refused
before it is cut. -/
theorem balanced_of_mem_visits {visit : Visit} (met : visit ∈ (compile text).visits) :
    visit.text.Balanced := by
  cases scanned : unbalanced? 0 0 text with
  | none => exact (within_compile (balanced_of_unbalanced? scanned)).balanced visit met
  | some error =>
    unfold compile readText at met
    split at met
    next => simp at met
    next =>
      rw [segments, scanned] at met
      simp at met

/-- **Faults of parentheses are those of the whole text.** A notation and its
segments are refused for a closing parenthesis that is one too many exactly if a
prefix has more of them than opening ones, and for one that is left open exactly
if none has and the whole has fewer. No segment that is met is at fault for its
parentheses: one that begins with a parenthesis has its partner, and what is
inside can be cut. -/
theorem parentheses_reported (text : Text) :
    ReportsParentheses text (parse text) ∧ ReportsParentheses text (segments 0 text) ∧
    ∀ visit ∈ (compile text).visits, visit.text.Balanced ∧
      ∀ rest, visit.text = '(' :: rest → ∃ interior suffix,
        splitAtClose 0 [] rest = some (interior, suffix) ∧
        segments (visit.offset + 1) interior = .ok (cutSegments interior) := by
  refine ⟨?_, ?_, fun visit met => ⟨balanced_of_mem_visits met, fun rest opens => ?_⟩⟩
  · refine reportsParentheses_of_unbalanced? (fun error => parse_of_unbalanced?) ?_
    intro balanced error failed
    obtain ⟨fault, position, rfl, other, -⟩ := ofParentheses_of_balanced balanced failed
    exact other
  · refine reportsParentheses_of_unbalanced? (fun error found => ?_) fun balanced error failed => ?_
    · rw [segments, found]
    · rw [segments_ok (unbalanced?_eq_none balanced 0)] at failed
      cases failed
  · obtain ⟨interior, suffix, -, inside, cut⟩ :=
      exists_splitAtClose (opens ▸ balanced_of_mem_visits met)
    exact ⟨interior, suffix, cut, segments_ok (unbalanced?_eq_none inside _)⟩

/-- What else is wrong with a text does not count, and a character of two bytes
does twice. -/
example : parse "((d6)x)+é)+(d4".toList = .error (Fault.unexpectedParenthesis.located 10) := by
  decide +kernel

/-! ## Positions -/

/-- **Every fault of a notation has a position, and that is in the text or at
its end.** It is one property of all readers, handed on from step to step. -/
theorem located_of_parse {error : ParseError} (failed : parse text = .error error) :
    ∃ (fault : Fault) (position : Nat), error = fault.located position ∧
      position ≤ text.byteLength := by
  rcases covered_or_exists_surplus 0 text with covered | ⟨before, after, rfl, covered, surplus⟩
  · have scanned := unbalanced?_covered covered 0
    split at scanned
    next =>
      rw [parse_of_unbalanced? scanned] at failed
      cases failed
      exact ⟨_, _, rfl, by omega⟩
    next =>
      obtain ⟨fault, position, rfl, -, le⟩ :=
        ofParentheses_of_balanced (balanced_of_unbalanced? scanned) failed
      exact ⟨fault, position, rfl, le⟩
  · rw [parse_of_unbalanced? (unbalanced?_surplus covered (by omega) 0 after)] at failed
    cases failed
    refine ⟨_, _, rfl, ?_⟩
    rw [byteLength_append]
    omega

/-- A fault at the end of the text, after a blank of three bytes. The position
is the length of the text in bytes, and not in characters. -/
theorem located_of_parse_unfinished :
    parse "d8+\u3000(d6)+".toList = .error ((Fault.missingOperand "Eof").located 11) ∧
    ∃ (fault : Fault) (position : Nat),
      (Fault.missingOperand "Eof").located 11 = fault.located position ∧
        position ≤ Text.byteLength "d8+\u3000(d6)+".toList := by
  have failed : parse "d8+\u3000(d6)+".toList =
      .error ((Fault.missingOperand "Eof").located 11) := by decide +kernel
  exact ⟨failed, located_of_parse failed⟩

end Notation

end Dice
