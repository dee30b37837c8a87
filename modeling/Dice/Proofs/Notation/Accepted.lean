import Mathlib.Data.List.TakeWhile
import Dice.Proofs.Notation.Consumed
import Dice.Proofs.Notation.Lexed
import Dice.Proofs.Notation.Pieces

/-!
# Which segments are accepted

The tokens of a form are read as the expression of the form, and what is read
as a segment has a form of the same tokens. So the forms say which segments
are accepted, and what is made of them.

Nothing is said about the place of the segment or the level of parentheses it
stands at, as neither makes a difference without a parenthesis in front.
Blanks around the segment are removed before it is read, and are no part of
its tokens in the first place.

A blank segment is the one that is refused without being read. It has no
tokens and so no form, since every form has the letter of a die.

Main statement: `readPieceWithin_eq_ok_iff`.
-/

namespace Dice.Notation

/-- A segment begins with what is left of it without the blanks around it. So
its first character that is no blank tells how it is read. -/
theorem find?_of_trim {segment text : Text} {first : Char}
    (trimmed : segment.trimStart.trimEnd = first :: text) :
    segment.find? (fun c => !Text.isBlank c) = some first := by
  obtain ⟨blanks, -, whole⟩ := Text.exists_trimEnd_append segment.trimStart
  rw [trimmed] at whole
  rw [List.find?_not_eq_head?_dropWhile, show segment.dropWhile Text.isBlank = _ from whole.symm]
  rfl

/-- What is left of a segment is read token by token, if it does not begin with
a parenthesis. -/
theorem readPieceWithin_of_trim {segment text : Text} {first : Char}
    (trimmed : segment.trimStart.trimEnd = first :: text) (plain : first ≠ '(')
    (levels offset : Nat) : ∃ position, (readPieceWithin levels offset segment).result =
      (TokenStream.ofText position (first :: text)).ready >>= readSegment := by
  obtain ⟨inner, same⟩ := exists_inner levels
  refine ⟨offset + (segment.byteLength - segment.trimStart.byteLength), ?_⟩
  rw [same, readPiece]
  simp only [trimmed, if_neg plain]

/-- **Which segments without a parenthesis in front are accepted, and as what.**
Those that consist of the tokens of a form, and as the expression of the form. -/
theorem readPieceWithin_eq_ok_iff (levels offset : Nat) {segment : Text}
    (plain : segment.find? (fun c => !Text.isBlank c) ≠ some '(') (e : Expr) :
    (readPieceWithin levels offset segment).result = .ok e ↔
      ∃ form : SegmentForm, Lexes segment form.tokens ∧ form.expr? = some e := by
  cases trimmed : segment.trimStart.trimEnd with
  | nil =>
    obtain ⟨inner, same⟩ := exists_inner levels
    constructor
    · intro ok
      rw [same, readPiece] at ok
      simp only [trimmed] at ok
      cases ok
    · intro accepted
      obtain ⟨form, lexes, -⟩ := accepted
      -- every form has the letter of a die
      have none : form.tokens = [] := by
        rw [← lexes_trim_iff, trimmed] at lexes
        exact lexes.tokens_eq.symm
      simp [SegmentForm.tokens, SegmentForm.diceTokens] at none
  | cons first text =>
    have other : first ≠ '(' := by
      intro same
      exact plain (same ▸ find?_of_trim trimmed)
    obtain ⟨position, read⟩ := readPieceWithin_of_trim trimmed other levels offset
    have lexes_iff : ∀ tokens, (TokenStream.ofText position (first :: text)).Holds tokens ↔
        Lexes segment tokens := by
      intro tokens
      rw [holds_ofText_iff, ← trimmed, lexes_trim_iff]
    rw [read]
    constructor
    · intro ok
      obtain ⟨stream, ready, ok⟩ := bind_ok ok
      obtain rfl := TokenStream.eq_of_ready ready
      obtain ⟨form, holds, made⟩ :=
        exists_form_of_readSegment ready (unsigned_ofText position (first :: text)) ok
      exact ⟨form, (lexes_iff _).1 holds, made⟩
    · intro accepted
      obtain ⟨form, lexes, made⟩ := accepted
      have holds := (lexes_iff _).2 lexes
      rw [holds.ready]
      exact ok_of_toOption ((readSegment_form form holds).trans made)

/-- A segment with blanks in every place, a trailing comma, a negative threshold
and operators. -/
def spaced : Text := "\t3 d [1, - 2 ,] ! > -1 * 2 -3 ".toList

/-- Three dice with the faces 1 and -2 that roll again above -1, doubled and
lowered by 3. -/
def spacedExpr : Expr :=
  .arithmetic (.arithmetic (.explosion (List.replicate 3 (.die
    (.custom [1, .clamp (-2)] (by decide)))) .greaterThan (some (.clamp (-1)))) .multiply 2)
    .subtract 3

/-- The minus sign after the comparator is that of the threshold, the other one
an operator. -/
theorem readPieceWithin_spaced : spaced.find? (fun c => !Text.isBlank c) ≠ some '(' ∧
    (readPieceWithin 0 0 spaced).result = .ok spacedExpr := by
  have plain : spaced.find? (fun c => !Text.isBlank c) ≠ some '(' := by decide +kernel
  let form : SegmentForm :=
    { quantity := some 3
      size := some (.faces [.plain 1, .minus 2] true)
      modifier := some (.comparison .greaterThan (some (.minus 1)))
      operators := [(.multiply, 2), (.subtract, 3)]
      few := by decide
      unmistaken := by simp }
  have lexes : Lexes spaced form.tokens := ⟨by decide +kernel, by decide +kernel⟩
  have made : form.expr? = some spacedExpr := by decide +kernel
  exact ⟨plain, (readPieceWithin_eq_ok_iff 0 0 plain spacedExpr).2 ⟨form, lexes, made⟩⟩

end Dice.Notation
