/-!
# Text

Notation, formulas and decimal numbers are lists of characters: a reader takes
them apart from the front and a writer puts them together, and both are plain
recursion on the list. `String` is the type at the edge of the library.

Positions in a notation are counted in bytes, so `byteLength` says how many
bytes a text takes in UTF-8. It is written as one fold and used as a sum over
the characters: `byteLength_cons` and `byteLength_append` are its two
equations, and no proof unfolds it again.

Pieces with a separator between each two are `join`ed. The notation of a sum,
the faces of a die and the formula of a toss are all written that way, and
cutting a text at its separators is undone by it. `join_glue` is what such
proofs turn on: two neighbouring pieces may be joined beforehand.

Main statements: `join_cons_cons` and `join_glue`, `byteLength_append`, and
`length_le_byteLength`, no text has fewer bytes than characters.
-/

namespace Dice

/-- Text, one character after the other. Strings are turned into text where they
come in, and back where they go out. -/
abbrev Text := List Char

namespace Text

/-- The pieces with `separator` between each two. -/
def join (separator : Text) (pieces : List Text) : Text := separator.intercalate pieces

@[simp] theorem join_nil (separator : Text) : join separator [] = [] := rfl

@[simp] theorem join_singleton (separator piece : Text) : join separator [piece] = piece := by
  simp [join, List.intercalate]

/-- The first of several pieces is followed by a separator and the others,
joined. -/
theorem join_cons_cons (separator a b : Text) (rest : List Text) :
    join separator (a :: b :: rest) = a ++ separator ++ join separator (b :: rest) := by
  simp [join, List.intercalate, List.intersperse]

/-- Two neighbouring pieces may be joined beforehand: the separator between them
is written either way. -/
theorem join_glue (separator : Text) (done : List Text) (a b : Text) (rest : List Text) :
    join separator (done ++ (a ++ separator ++ b) :: rest) =
      join separator (done ++ a :: b :: rest) := by
  induction done with
  | nil =>
    cases rest with
    | nil => simp [join_cons_cons]
    | cons next rest => simp [join_cons_cons]
  | cons first done ih =>
    cases done with
    | nil =>
      simp only [List.cons_append, List.nil_append] at ih ⊢
      rw [join_cons_cons, join_cons_cons, ih]
    | cons second done =>
      simp only [List.cons_append] at ih ⊢
      rw [join_cons_cons, join_cons_cons, ih]

/-- The text in parentheses. -/
def parenthesized (text : Text) : Text := '(' :: text ++ [')']

/-- The decimal digits of a natural number, without leading zeros. Zero is the
one digit zero. -/
def ofNat (n : Nat) : Text := Nat.toDigits 10 n

/-- Every number has a digit, zero included. -/
theorem ofNat_ne_nil (n : Nat) : ofNat n ≠ [] := by
  intro h
  have hpos := Nat.length_toDigits_pos (b := 10) (n := n)
  simp only [ofNat] at h
  rw [h] at hpos
  simp at hpos

/-- The length of the text in UTF-8 bytes. Offsets in a notation are counted in
bytes. -/
def byteLength (text : Text) : Nat := text.foldl (fun bytes c => bytes + c.utf8Size) 0

/-- The count of bytes may start from any number. This makes the fold a sum, and
is what the two equations below come from. -/
theorem foldl_utf8Size (bytes : Nat) (text : Text) :
    text.foldl (fun bytes c => bytes + c.utf8Size) bytes = bytes + byteLength text := by
  induction text generalizing bytes with
  | nil => simp [byteLength]
  | cons c rest ih =>
    have tail := ih c.utf8Size
    simp only [byteLength, List.foldl_cons, Nat.zero_add] at tail ⊢
    rw [ih, tail, Nat.add_assoc]
    rfl

@[simp] theorem byteLength_nil : byteLength [] = 0 := rfl

/-- The first character takes its bytes, and the others take theirs. -/
@[simp] theorem byteLength_cons (c : Char) (rest : Text) :
    byteLength (c :: rest) = c.utf8Size + byteLength rest := by
  have h := foldl_utf8Size c.utf8Size rest
  simpa [byteLength] using h

/-- Bytes of two parts add up. Offsets of parts are therefore sums, and never
have to be counted again. -/
theorem byteLength_append (a b : Text) :
    byteLength (a ++ b) = byteLength a + byteLength b := by
  induction a with
  | nil => simp
  | cons c rest ih => simp [ih, Nat.add_assoc]

/-- A character takes at least one byte. So a count of characters is never past
the end of the bytes. -/
theorem length_le_byteLength (a : Text) : a.length ≤ byteLength a := by
  induction a with
  | nil => simp
  | cons c rest ih =>
    have := Char.utf8Size_pos c
    simp only [List.length_cons, byteLength_cons]
    omega

end Text

end Dice
