import Dice.Text

/-!
# Blanks

The characters with the Unicode property White_Space. Blanks separate the
parts of a notation and mean nothing, so a text is trimmed before it is read.

Trimming the front drops blanks as long as there are any; trimming the end
does the same to the reversed text. Each of the two cuts the text in two, a
part without a blank at the trimmed side and a part of nothing but blanks, and
that is how later modules use them: what was trimmed is named, and the text is
the two parts put together.

Only six of the blanks are characters of ASCII; the others take two bytes or
three. Positions behind trimmed blanks are therefore counted in bytes, never in
characters.

Main statements: core's white space is blank (`isBlank_of_isWhitespace`), a
text trimmed at the front starts with something else
(`isBlank_of_trimStart_eq_cons`), and nothing but blanks is trimmed away
(`takeWhile_append_trimStart`, `exists_trimEnd_append`).
-/

namespace Dice.Text

/-- The code points of the property White_Space, ascending. -/
def blanks : List Nat :=
  [9, 10, 11, 12, 13, 32, 133, 160, 5760, 8192, 8193, 8194, 8195, 8196, 8197, 8198, 8199, 8200,
    8201, 8202, 8232, 8233, 8239, 8287, 12288]

/-- Whether a character is white space. Trimming and the tokens of a segment use
the same set of characters. -/
def isBlank (c : Char) : Bool := blanks.contains c.toNat

/-- The four characters that core counts as white space are blanks. -/
theorem isBlank_of_isWhitespace {c : Char} (h : c.isWhitespace = true) : isBlank c = true := by
  simp only [Char.isWhitespace, Bool.or_eq_true, decide_eq_true_eq] at h
  rcases h with ((rfl | rfl) | rfl) | rfl <;> decide

/-- Whether there is nothing but blanks. The text without characters is blank. -/
def blank (text : Text) : Bool := text.all isBlank

@[simp] theorem blank_nil : blank [] = true := rfl

/-- The text without the blanks it starts with. Blanks inside stay. -/
def trimStart (text : Text) : Text := text.dropWhile isBlank

/-- The text without the blanks it ends with. -/
def trimEnd (text : Text) : Text := (trimStart text.reverse).reverse

/-- What is left begins with a character that is no blank, unless nothing is
left. -/
theorem isBlank_of_trimStart_eq_cons {text rest : Text} {c : Char}
    (h : trimStart text = c :: rest) : isBlank c = false := by
  have := List.head?_dropWhile_not isBlank text
  rw [show text.dropWhile isBlank = c :: rest from h] at this
  simpa using this

/-- Trimming the front cuts the text in two. The bytes of both parts are those
of the whole. -/
theorem takeWhile_append_trimStart (text : Text) :
    text.takeWhile isBlank ++ trimStart text = text := List.takeWhile_append_dropWhile

/-- What is trimmed from the front is nothing but blanks. -/
theorem blank_takeWhile (text : Text) : blank (text.takeWhile isBlank) = true :=
  List.all_takeWhile

/-- Trimming the end takes nothing but blanks away. So a position in the trimmed
text is one in the text. -/
theorem exists_trimEnd_append (text : Text) :
    ∃ rest : Text, rest.blank = true ∧ text.trimEnd ++ rest = text := by
  refine ⟨(text.reverse.takeWhile isBlank).reverse, ?_, ?_⟩
  · rw [blank, List.all_reverse]
    exact blank_takeWhile text.reverse
  · rw [trimEnd, ← List.reverse_append, takeWhile_append_trimStart, List.reverse_reverse]

end Dice.Text
