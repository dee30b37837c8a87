import Dice.Proofs.Expr.Spliced
import Dice.Proofs.Notation.Parsed
import Dice.Proofs.Rereading

/-!
# Reading what was written for a notation

A notation is read as an expression, that is written, and the text is read
again. The second expression is the first one regrouped, so it is written in
the same way, and it differs from the first only in the order and the nesting
of summands.

What a notation is read as can be written (`legible_of_parse`), unless the
notation is blank: the empty pool is written as the number zero, which is no
notation. Everything else is in the modules on reading and on regrouping, and
is put together here.

The relation `Alike` does not look at the text. It takes apart sums inside of
sums and allows to permute them, and leaves the members under a modifier where
they are, as their order decides which of two equal ones is kept.

Main statements: `parse_text`, which says of each legible expression what its
text is read as, and `alike_of_reparse`.
-/

namespace Dice.Notation

open Dice.Expr

variable {text : Text} {e first second : Expr}

/-- **A legible expression is read from its text regrouped, or the text is
refused.** -/
theorem parse_text (legible : e.Every Legible) :
    (parse e.text).toOption = e.reading nestingLimit :=
  readsText_text legible nestingLimit 0

/-- If the text of a legible expression is read at all, it is read as the
expression regrouped. -/
theorem eq_regrouped_of_parse (legible : e.Every Legible) (ok : parse e.text = .ok second) :
    second = e.regrouped := by
  have read := parse_text legible
  rw [ok, reading] at read
  split at read
  next => exact Option.some.inj read
  next => cases read

/-- **Reading a notation, writing it and reading it again keeps the text and
everything but the order and the nesting of summands.** -/
theorem alike_of_reparse (some : text.blank = false) (ok : parse text = .ok first)
    (again : parse first.text = .ok second) : second.text = first.text ∧ Alike second first := by
  have legible := legible_of_parse some ok
  rw [eq_regrouped_of_parse legible again]
  exact ⟨text_regrouped legible, alike_regrouped legible⟩

/-- A sum with the same die at both ends, and between them a selection from
three dice. -/
def scattered : Expr :=
  .pool [.die .sixSided,
    .selection [.die (.sided 8 (by decide)), .die .sixSided, .die (.sided 8 (by decide))]
      .keepHighest 2,
    .die .sixSided]

/-- The same with the two summands in a pool of their own. -/
def gathered : Expr :=
  .pool [.pool [.die .sixSided, .die .sixSided],
    .selection [.die (.sided 8 (by decide)), .die .sixSided, .die (.sided 8 (by decide))]
      .keepHighest 2]

/-- The dice of the sum move together, those of the selection do not. There the
order of members is kept. -/
theorem alike_gathered_scattered :
    Text.blank "d6+(d8+d6+d8)kh2+d6".toList = false ∧
      parse "d6+(d8+d6+d8)kh2+d6".toList = .ok scattered ∧
      parse scattered.text = .ok gathered ∧
      gathered.text = scattered.text ∧ Alike gathered scattered := by
  have some : Text.blank "d6+(d8+d6+d8)kh2+d6".toList = false := by decide +kernel
  have ok : parse "d6+(d8+d6+d8)kh2+d6".toList = .ok scattered := by decide +kernel
  have again : parse scattered.text = .ok gathered := by decide +kernel
  exact ⟨some, ok, again, alike_of_reparse some ok again⟩

end Dice.Notation
