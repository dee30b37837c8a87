import Dice.Proofs.Notation.Segments

/-!
# Parentheses without a partner

The scan for parentheses keeps the number of those that are open. What it
finds can be said without it, by counting: a text is `Overclosed` if it has
more closing parentheses than opening ones, and the scan stops at the end of
the first prefix of which that is so. A part without such a prefix is stepped
over (`unbalanced?_of_covered`), and every text either is such a part or has a
first closing parenthesis too many (`covered_or_exists_surplus`).

Being covered depends on how many parentheses are open before the text, and
that number is what the inductions go along with: an opening parenthesis adds
one to it and a closing one takes one away.

So a balanced text is one that is not overclosed at any place and opens no
more parentheses than it closes, which is how balanced texts are spoken of
where no scan is meant to be seen.

Main statements: `unbalanced?_surplus`, `unbalanced?_covered` and
`balanced_iff`.
-/

namespace Dice

namespace Text

variable {a text : Text} {depth : Nat}

/-- Whether more parentheses are closed in a text than are opened. One of them
then has no partner, wherever it stands. -/
def Overclosed (text : Text) : Prop := text.count '(' < text.count ')'

/-- Whether no parenthesis of a text is one too many to be closed, where `depth`
are open before it. -/
def Covered (depth : Nat) (text : Text) : Prop :=
  ∀ front, front <+: text → front.count ')' ≤ depth + front.count '('

theorem covered_nil (depth : Nat) : Covered depth [] := by
  intro front le
  rw [List.prefix_nil.1 le]
  exact Nat.zero_le _

/-- A prefix of a text with a character in front is empty or begins with that
character. -/
theorem covered_cons_iff {c : Char} : Covered depth (c :: a) ↔
    ∀ front, front <+: a → (c :: front).count ')' ≤ depth + (c :: front).count '(' := by
  constructor
  · exact fun covered front le => covered _ ((List.prefix_cons_inj c).2 le)
  · intro each front le
    rcases List.prefix_cons_iff.1 le with rfl | ⟨rest, rfl, inside⟩
    · exact Nat.zero_le _
    · exact each rest inside

/-- One more parenthesis is open behind an opening one. With `covered_close` a
text is gone through character by character. -/
theorem covered_open : Covered depth ('(' :: a) ↔ Covered (depth + 1) a := by
  rw [covered_cons_iff]
  refine forall₂_congr fun front _ => ?_
  rw [List.count_cons_self, List.count_cons_of_ne (by decide)]
  omega

/-- One less is open behind a closing one. -/
theorem covered_close : Covered (depth + 1) (')' :: a) ↔ Covered depth a := by
  rw [covered_cons_iff]
  refine forall₂_congr fun front _ => ?_
  rw [List.count_cons_self, List.count_cons_of_ne (by decide)]
  omega

theorem covered_plain {c : Char} (opens : c ≠ '(') (closes : c ≠ ')') :
    Covered depth (c :: a) ↔ Covered depth a := by
  rw [covered_cons_iff]
  refine forall₂_congr fun front _ => ?_
  rw [List.count_cons_of_ne opens, List.count_cons_of_ne closes]

/-- With nothing open before it a closing parenthesis is one too many. -/
theorem not_covered_zero_close : ¬ Covered 0 (')' :: a) := by
  intro covered
  have first := covered [')'] (by simp)
  simp at first

/-- With nothing open before it, a text is covered if no prefix of it is
overclosed. -/
theorem covered_zero_iff :
    Covered 0 text ↔ ∀ front : Text, front <+: text → ¬ front.Overclosed := by
  refine forall₂_congr fun front _ => ?_
  rw [Overclosed, Nat.not_lt, Nat.zero_add]

/-- **Every text is covered, or has a first closing parenthesis too many.** The
two cases are those of the search for a parenthesis without its partner. -/
theorem covered_or_exists_surplus (depth : Nat) (text : Text) : Covered depth text ∨
    ∃ before after, text = before ++ ')' :: after ∧ Covered depth before ∧
      before.count ')' = depth + before.count '(' := by
  induction text generalizing depth with
  | nil => exact .inl (covered_nil depth)
  | cons c rest ih =>
    by_cases opens : c = '('
    · subst opens
      rcases ih (depth + 1) with covered | ⟨before, after, rfl, covered, surplus⟩
      · exact .inl (covered_open.2 covered)
      · refine .inr ⟨'(' :: before, after, rfl, covered_open.2 covered, ?_⟩
        rw [List.count_cons_self, List.count_cons_of_ne (by decide), surplus]
        omega
    · by_cases closes : c = ')'
      · subst closes
        cases depth with
        -- nothing is open, so this is the first parenthesis too many
        | zero => exact .inr ⟨[], rest, rfl, covered_nil 0, rfl⟩
        | succ depth =>
          rcases ih depth with covered | ⟨before, after, rfl, covered, surplus⟩
          · exact .inl (covered_close.2 covered)
          · refine .inr ⟨')' :: before, after, rfl, covered_close.2 covered, ?_⟩
            rw [List.count_cons_self, List.count_cons_of_ne (by decide), surplus]
            omega
      · rcases ih depth with covered | ⟨before, after, rfl, covered, surplus⟩
        · exact .inl ((covered_plain opens closes).2 covered)
        · refine .inr ⟨c :: before, after, rfl, (covered_plain opens closes).2 covered, ?_⟩
          rwa [List.count_cons_of_ne opens, List.count_cons_of_ne closes]

end Text

namespace Notation

open Text

variable {a before after text : Text} {depth : Nat}

theorem unbalanced?_open (depth index : Nat) (rest : Text) :
    unbalanced? depth index ('(' :: rest) = unbalanced? (depth + 1) (index + 1) rest := by
  simp [unbalanced?]

theorem unbalanced?_close (depth index : Nat) (rest : Text) :
    unbalanced? (depth + 1) index (')' :: rest) = unbalanced? depth (index + 1) rest := by
  simp [unbalanced?]

theorem unbalanced?_plain {c : Char} (opens : c ≠ '(') (closes : c ≠ ')') (depth index : Nat)
    (rest : Text) :
    unbalanced? depth index (c :: rest) = unbalanced? depth (index + c.utf8Size) rest := by
  simp [unbalanced?, opens, closes]

/-- The scan steps over a covered part and then has as many parentheses open as
that leaves. -/
theorem unbalanced?_of_covered (covered : Covered depth a) (index : Nat) (rest : Text) :
    unbalanced? depth index (a ++ rest) =
      unbalanced? (depth + a.count '(' - a.count ')') (index + a.byteLength) rest := by
  induction a generalizing depth index with
  | nil => rfl
  | cons c a ih =>
    have size : Char.utf8Size '(' = 1 ∧ Char.utf8Size ')' = 1 := by decide
    rw [List.cons_append, byteLength_cons, ← Nat.add_assoc]
    by_cases opens : c = '('
    · subst opens
      rw [unbalanced?_open, ih (covered_open.1 covered), List.count_cons_self,
        List.count_cons_of_ne (by decide), size.1, Nat.add_right_comm depth 1, Nat.add_assoc depth]
    · by_cases closes : c = ')'
      · subst closes
        cases depth with
        -- a covered text closes nothing that is not open
        | zero => exact absurd covered not_covered_zero_close
        | succ depth =>
          rw [unbalanced?_close, ih (covered_close.1 covered), List.count_cons_self,
            List.count_cons_of_ne (by decide), size.2, Nat.add_right_comm depth 1,
            Nat.add_sub_add_right]
      · rw [unbalanced?_plain opens closes, ih ((covered_plain opens closes).1 covered),
          List.count_cons_of_ne opens, List.count_cons_of_ne closes]

/-- The first closing parenthesis too many is found where it stands. Its
position is in bytes, from the index where the search began. -/
theorem unbalanced?_surplus (covered : Covered 0 before)
    (surplus : before.count ')' = before.count '(') (index : Nat) (after : Text) :
    unbalanced? 0 index (before ++ ')' :: after) =
      some (Fault.unexpectedParenthesis.located (index + before.byteLength)) := by
  have level : 0 + before.count '(' - before.count ')' = 0 := by omega
  rw [unbalanced?_of_covered covered, level]
  rfl

/-- A text without one is at fault only if a parenthesis is left open at its
end. -/
theorem unbalanced?_covered (covered : Covered 0 text) (index : Nat) :
    unbalanced? 0 index text =
      if text.count ')' < text.count '(' then
        some (Fault.unclosedParenthesis.located (index + text.byteLength))
      else none := by
  have whole := unbalanced?_of_covered covered index []
  rw [List.append_nil, unbalanced?] at whole
  rw [whole]
  by_cases left : text.count ')' < text.count '('
  · rw [if_pos left, if_neg (by omega)]
  · rw [if_neg left, if_pos (by omega)]

/-- **A text is balanced if no prefix of it closes more parentheses than it
opens, and the text as a whole opens no more than it closes.** -/
theorem balanced_iff : text.Balanced ↔
    (∀ front : Text, front <+: text → ¬ front.Overclosed) ∧ text.count '(' = text.count ')' := by
  rw [← covered_zero_iff]
  constructor
  · intro balanced
    have sound := unbalanced?_eq_none balanced 0
    rcases covered_or_exists_surplus 0 text with
      covered | ⟨before, after, rfl, covered, surplus⟩
    · have last := covered text (List.prefix_refl text)
      rw [unbalanced?_covered covered] at sound
      split at sound
      next => cases sound
      next left => exact ⟨covered, by omega⟩
    · rw [unbalanced?_surplus covered (by omega)] at sound
      cases sound
  · rintro ⟨covered, even⟩
    have sound := unbalanced?_covered covered 0
    rw [if_neg (by omega)] at sound
    exact balanced_of_unbalanced? sound

end Notation

end Dice
