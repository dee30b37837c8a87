import Dice.Die
import Dice.Proofs.Score.Decimal
import Dice.Text.Blank

/-!
# How dice are written

A score is written in digits, with a minus sign in front of a negative one,
and a die as its letter with its size behind. So nothing in the text of a die
is a blank, a parenthesis or a plus sign, and the faces of a custom die can be
told apart by the commas between them.

Two facts follow, and are what the texts of expressions are built on. The text
of a die goes through unchanged where blanks are removed, parentheses are
counted or a text is cut at plus signs; and dice with the same text are the
same, so counting equal texts of dice is counting equal dice.

That the faces can be told apart is shown for any separator and any pieces
without it (`Text.join_injective`), by an induction over both lists: the first
separator ends the first piece.

Main statements: `Die.of_mem_text` and `Die.text_injective`.
-/

namespace Dice

namespace Text

variable {c separator : Char} {pieces others : List Text}

/-- What stands in a joined text stands in the separator or in one of the
pieces. -/
theorem mem_join {separator : Text} (mem : c ∈ join separator pieces) :
    c ∈ separator ∨ ∃ piece ∈ pieces, c ∈ piece := by
  induction pieces with
  | nil => cases mem
  | cons piece rest ih =>
    cases rest with
    | nil => exact .inr ⟨piece, by simp, by simpa using mem⟩
    | cons next rest =>
      rw [join_cons_cons] at mem
      rcases List.mem_append.1 mem with mem | mem
      · exact (List.mem_append.1 mem).elim (fun mem => .inr ⟨piece, by simp, mem⟩) .inl
      · exact (ih mem).imp_right fun ⟨piece, inside, mem⟩ => ⟨piece, by simp [inside], mem⟩

/-- Every piece stands in the text that is made of them, and a separator or
nothing behind it. -/
theorem exists_join_of_mem {piece : Text} (mem : piece ∈ pieces) :
    ∃ front back, join [separator] pieces = front ++ (piece ++ back) ∧
      (back = [] ∨ ∃ rest, back = separator :: rest) := by
  induction pieces with
  | nil => cases mem
  | cons first rest ih =>
    cases rest with
    | nil =>
      obtain rfl := List.mem_singleton.1 mem
      exact ⟨[], [], by simp, .inl rfl⟩
    | cons next rest =>
      rw [join_cons_cons]
      rcases List.mem_cons.1 mem with rfl | mem
      · exact ⟨[], separator :: join [separator] (next :: rest), by simp, .inr ⟨_, rfl⟩⟩
      · obtain ⟨front, back, same, kind⟩ := ih mem
        exact ⟨first ++ separator :: front, back, by simp [same], kind⟩

/-- A separator ends what stands in front of it, if that has none itself. -/
theorem append_cons_inj {a b x y : Text} (plain : separator ∉ a) (plain' : separator ∉ b)
    (same : a ++ separator :: x = b ++ separator :: y) : a = b ∧ x = y := by
  rcases List.append_eq_append_iff.1 same with ⟨more, rfl, rest⟩ | ⟨more, rfl, rest⟩
  · cases more with
    | nil => exact ⟨(List.append_nil a).symm, (List.cons.inj rest).2⟩
    | cons c more => exact absurd (by simp [(List.cons.inj rest).1]) plain'
  · cases more with
    | nil => exact ⟨List.append_nil b, (List.cons.inj rest).2.symm⟩
    | cons c more => exact absurd (by simp [(List.cons.inj rest).1]) plain

/-- Pieces without the separator can be told apart. There must be some on both
sides, as no piece and one empty piece are joined to the same text. -/
theorem join_injective (plain : ∀ piece ∈ pieces, separator ∉ piece)
    (plain' : ∀ piece ∈ others, separator ∉ piece) (some : pieces ≠ []) (some' : others ≠ [])
    (same : join [separator] pieces = join [separator] others) : pieces = others := by
  induction pieces generalizing others with
  | nil => exact absurd rfl some
  | cons piece rest ih =>
    obtain ⟨other, rest', rfl⟩ := List.exists_cons_of_ne_nil some'
    obtain ⟨head, tail⟩ := List.forall_mem_cons.1 plain
    obtain ⟨head', tail'⟩ := List.forall_mem_cons.1 plain'
    cases rest with
    | nil =>
      cases rest' with
      | nil => simpa using same
      | cons next' rest' =>
        rw [join_singleton, join_cons_cons] at same
        exact absurd (by simp [same]) head
    | cons next rest =>
      cases rest' with
      | nil =>
        rw [join_singleton, join_cons_cons] at same
        exact absurd (by simp [← same]) head'
      | cons next' rest' =>
        rw [join_cons_cons, join_cons_cons, List.append_assoc, List.append_assoc] at same
        -- both texts go on with a separator, so the first pieces are the same
        obtain ⟨rfl, more⟩ := append_cons_inj head head' same
        rw [ih tail tail' (by simp) (by simp) more]

end Text

namespace Score

/-- A score is written with digits and at most a minus sign. -/
theorem of_mem_text {a : Score} {c : Char} (mem : c ∈ a.text) : c = '-' ∨ c.isDigit = true := by
  obtain ⟨first, tail, whole, head, digits⟩ := a.text_eq_cons
  rw [whole] at mem
  rcases List.mem_cons.1 mem with rfl | mem
  · simpa using head
  · exact .inr (digits c mem)

/-- Scores that are written in the same way are the same, since the text of a
score is read as that score. -/
theorem text_injective {a b : Score} (same : a.text = b.text) : a = b := by
  have read := read_text a
  rw [same, read_text] at read
  exact (Except.ok.inj read).symm

end Score

namespace Die

/-- There are no blanks, parentheses and plus signs in the text of a die. -/
theorem of_mem_text {d : Die} {c : Char} (mem : c ∈ d.text) :
    Text.isBlank c = false ∧ c ≠ '(' ∧ c ≠ ')' ∧ c ≠ '+' := by
  have digits : ∀ c, c.isDigit = true →
      Text.isBlank c = false ∧ c ≠ '(' ∧ c ≠ ')' ∧ c ≠ '+' := Text.forall_isDigit (by decide)
  have score : ∀ {a : Score}, c ∈ a.text →
      Text.isBlank c = false ∧ c ≠ '(' ∧ c ≠ ')' ∧ c ≠ '+' := by
    intro a mem
    rcases Score.of_mem_text mem with rfl | digit
    · decide
    · exact digits c digit
  cases d with
  | sided sides atLeastTwo =>
    rcases List.mem_cons.1 mem with rfl | mem
    · decide
    · exact score mem
  | fudge | percentile =>
    simp only [text, List.mem_cons, List.not_mem_nil, or_false] at mem
    rcases mem with rfl | rfl <;> decide
  | custom faces atLeastTwo =>
    simp only [text, List.cons_append, List.mem_cons, List.mem_append, List.not_mem_nil,
      or_false] at mem
    rcases mem with rfl | rfl | mem | rfl
    · decide
    · decide
    · rcases Text.mem_join mem with comma | ⟨piece, inside, mem⟩
      · obtain rfl := List.mem_singleton.1 comma
        decide
      · obtain ⟨a, -, rfl⟩ := List.mem_map.1 inside
        exact score mem
    · decide

/-- Dice that are written in the same way are the same. The letter and the
character behind it tell what sort of die it is, and the rest its size or its
faces. -/
theorem text_injective {d other : Die} (same : d.text = other.text) : d = other := by
  -- no sort of dice goes on behind its letter with the character of another one
  have foreign : ∀ {a : Score} {c : Char} {rest : Text}, a.text = c :: rest →
      c = '-' ∨ c.isDigit = true := by
    intro a c rest whole
    have mem : c ∈ a.text := by simp [whole]
    exact Score.of_mem_text mem
  have listed : ∀ {faces : List Score}, ∀ piece ∈ faces.map Score.text, ',' ∉ piece := by
    intro faces piece mem comma
    obtain ⟨a, -, rfl⟩ := List.mem_map.1 mem
    exact absurd (Score.of_mem_text comma) (by decide)
  cases d with
  | sided sides atLeastTwo =>
    cases other with
    | sided sides' atLeastTwo' =>
      obtain rfl := Score.text_injective (List.cons.inj same).2
      rfl
    | _ => exact absurd (foreign (List.cons.inj same).2) (by decide)
  | custom faces atLeastTwo =>
    cases other with
    | custom faces' atLeastTwo' =>
      have joined := List.append_cancel_right (List.cons.inj (List.cons.inj same).2).2
      have some : ∀ {faces : List Score}, 2 ≤ faces.length → faces.map Score.text ≠ [] := by
        intro faces several none
        rw [List.map_eq_nil_iff.1 none] at several
        cases several
      have texts := Text.join_injective listed listed (some atLeastTwo) (some atLeastTwo') joined
      obtain rfl := (List.map_inj_right fun _ _ => Score.text_injective).1 texts
      rfl
    | sided => exact absurd (foreign (List.cons.inj same).2.symm) (by decide)
    | fudge | percentile => cases same
  | fudge | percentile =>
    cases other with
    | sided => exact absurd (foreign (List.cons.inj same).2.symm) (by decide)
    | _ => first | rfl | cases same

end Die

end Dice
