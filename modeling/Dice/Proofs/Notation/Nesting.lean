import Dice.Proofs.Notation.Written

/-!
# The nesting of parentheses

How deep the parentheses of a text are nested. A balanced part of a text
counts for itself, so a text put together from such parts is nested as deep as
the deepest of them, and parentheses around it add one level.

The count goes through the text with the number of parentheses that are open
before each character. A parenthesis that is closed without being open leaves
the number at zero, so the count is defined for all texts, also for those that
are refused as unbalanced.

Numbers, dice, modifiers and operators have no parentheses, so what is written
for an expression is nested as deep as the parentheses around its parts.

Main statements: `nesting_join_le` and `nesting_parenthesized`.
-/

namespace Dice

namespace Text

/-- The most parentheses that are open at once in a text, where `depth` are open
before it. -/
def deepest (depth : Nat) : Text → Nat
  | [] => depth
  | '(' :: rest => deepest (depth + 1) rest
  | ')' :: rest => max depth (deepest (depth - 1) rest)
  | _ :: rest => deepest depth rest

/-- How deep the parentheses of a text are nested. Of a text that is not
balanced it is the most that are open at once. -/
def nesting (text : Text) : Nat := deepest 0 text

variable {a b : Text}

theorem deepest_open (depth : Nat) (rest : Text) :
    deepest depth ('(' :: rest) = deepest (depth + 1) rest := by
  simp [deepest]

theorem deepest_close (depth : Nat) (rest : Text) :
    deepest (depth + 1) (')' :: rest) = max (depth + 1) (deepest depth rest) := by
  simp [deepest]

theorem deepest_plain {c : Char} (opens : c ≠ '(') (closes : c ≠ ')') (depth : Nat) (rest : Text) :
    deepest depth (c :: rest) = deepest depth rest := by
  rw [deepest.eq_def]
  split <;> simp_all

/-- What is open before a text counts, even if the text closes all of it. -/
theorem le_deepest (depth : Nat) (text : Text) : depth ≤ deepest depth text := by
  induction text generalizing depth with
  | nil => exact Nat.le_refl depth
  | cons c rest ih =>
    by_cases opens : c = '('
    · rw [opens, deepest_open]
      exact Nat.le_trans (Nat.le_succ depth) (ih _)
    · by_cases closes : c = ')'
      · rw [closes, deepest]
        exact Nat.le_max_left _ _
      · rw [deepest_plain opens closes]
        exact ih depth

/-- One more parenthesis open makes a text at most one deeper. -/
theorem deepest_succ_le (depth : Nat) (text : Text) :
    deepest (depth + 1) text ≤ deepest depth text + 1 := by
  induction text generalizing depth with
  | nil => exact Nat.le_refl _
  | cons c rest ih =>
    by_cases opens : c = '('
    · rw [opens, deepest_open, deepest_open]
      exact ih (depth + 1)
    · by_cases closes : c = ')'
      · rw [closes, deepest_close]
        cases depth with
        | zero =>
          show max 1 (deepest 0 rest) ≤ max 0 (deepest 0 rest) + 1
          omega
        | succ depth =>
          have step := ih depth
          rw [deepest_close]
          omega
      · rw [deepest_plain opens closes, deepest_plain opens closes]
        exact ih depth

/-- Behind a balanced text as many parentheses are open as before it. So two
parts are counted one by one. -/
theorem Balanced.deepest_append (ha : a.Balanced) (depth : Nat) :
    deepest depth (a ++ b) = max (deepest depth a) (deepest depth b) := by
  induction ha generalizing depth b with
  | nil => exact (Nat.max_eq_right (le_deepest depth b)).symm
  | plain c rest opens closes _ ih =>
    simp only [List.cons_append, deepest_plain opens closes, ih]
  | group inner rest _ _ ih ih' =>
    simp only [List.cons_append, List.append_assoc, deepest_open, deepest_close, ih, ih',
      Nat.max_assoc]

/-- Parentheses that are open before a balanced text add to those in it. For
other texts there is only an inequality. -/
theorem Balanced.deepest_eq (ha : a.Balanced) (depth : Nat) :
    deepest depth a = depth + a.nesting := by
  induction ha generalizing depth with
  | nil => rfl
  | plain c rest opens closes _ ih =>
    simp only [nesting, deepest_plain opens closes]
    exact ih depth
  | group inner rest inside _ ih ih' =>
    have whole : ∀ depth, deepest depth ('(' :: inner ++ ')' :: rest) =
        max (depth + 1 + inner.nesting) (depth + rest.nesting) := by
      intro depth
      rw [List.cons_append, deepest_open, inside.deepest_append, deepest_close, ih, ih']
      omega
    rw [nesting, whole, whole]
    omega

/-- A text behind a balanced one is counted on its own. Modifiers therefore add
nothing to what is in front of them. -/
theorem Balanced.nesting_append (ha : a.Balanced) (b : Text) :
    (a ++ b).nesting = max a.nesting b.nesting := ha.deepest_append 0

/-- Parentheses around a balanced text add one level. -/
theorem Balanced.nesting_parenthesized (ha : a.Balanced) :
    a.parenthesized.nesting = a.nesting + 1 := by
  rw [Text.parenthesized, nesting, List.cons_append, deepest_open, ha.deepest_append,
    ha.deepest_eq, deepest_close, deepest]
  omega

/-- A text without parentheses is not nested. Dice with their modifiers are such
texts. -/
theorem nesting_of_plain (h : ∀ c ∈ a, c ≠ '(' ∧ c ≠ ')') : a.nesting = 0 := by
  induction a with
  | nil => rfl
  | cons c rest ih =>
    have head := h c (by simp)
    rw [nesting, deepest_plain head.1 head.2]
    exact ih fun d hd => h d (by simp [hd])

theorem nesting_plus (rest : Text) : nesting ('+' :: rest) = nesting rest :=
  deepest_plain (by decide) (by decide) 0 rest

/-- A sum of written parts is nested as deep as the deepest of them. Plus signs
add no level. -/
theorem nesting_join_le {pieces : List Text} (balanced : ∀ piece ∈ pieces, piece.Balanced)
    (levels : Nat) :
    (join ['+'] pieces).nesting ≤ levels ↔ ∀ piece ∈ pieces, piece.nesting ≤ levels := by
  induction pieces with
  | nil => simp [nesting, deepest]
  | cons piece rest ih =>
    cases rest with
    | nil => simp
    | cons next rest =>
      have head := balanced piece (by simp)
      rw [join_cons_cons, List.append_assoc, head.nesting_append, List.singleton_append,
        nesting_plus, Nat.max_le, ih fun x hx => balanced x (by simp [hx])]
      exact (List.forall_mem_cons (p := fun piece => nesting piece ≤ levels)).symm

end Text

namespace Notation

/-- Tokens have no parentheses. -/
theorem nesting_spellings (tokens : List Token) :
    Text.nesting (tokens.flatMap Token.spelling) = 0 :=
  Text.nesting_of_plain (plain_spellings tokens)

theorem nesting_operatorsText (operators : List (Operator × UInt32)) :
    Text.nesting (operatorsText operators) = 0 := by
  rw [← spelling_operatorTokens]
  exact nesting_spellings _

theorem nesting_modifierText (m : Modifier) : Text.nesting (modifierText (some m)) = 0 :=
  Text.nesting_of_plain fun _ mem =>
    ⟨(Modifier.of_mem_text mem).2.1, (Modifier.of_mem_text mem).2.2.1⟩

theorem nesting_diceText (d : Die) (count : Nat) : Text.nesting (diceText count d) = 0 :=
  Text.nesting_of_plain (plain_diceText d count)

end Notation

end Dice
