import Dice.Proofs.DieText
import Dice.Proofs.Notation.Tokens

/-!
# Written parts of a notation

Whatever is written for an expression is balanced, not empty, and has no
blanks (`Firm`). Numbers, dice and modifiers are not cut. Numbers have no
dice, and a sum has some if each of its parts does.

These are the facts by which a written text is cut into segments: balanced
parts do not change the depth of what is behind them, a part in parentheses is
not cut, and a plus sign between two parts cuts them if there are dice behind
it. They are shown of the parts by the characters that stand in them, and of
what is put together by the parts.

`Firm` is kept by everything that an expression is written with: parentheses,
plus signs between entries, and modifiers and operators at the end, which have
neither parentheses nor blanks.

Main statements: `firm_join`, `hasDice_join`, `uncut_diceText` and
`uncut_modifierText`.
-/

namespace Dice.Notation

variable {a b : Text}

/-! ## Digits -/

/-- There are no blanks among digits. -/
theorem solid_ofNat (n : Nat) : Solid (Text.ofNat n) := by
  have other : ∀ c, c.isDigit = true → Text.isBlank c = false := Text.forall_isDigit (by decide)
  exact fun c hc => other c (Text.isDigit_of_mem_ofNat hc)

/-- There are no parentheses among digits. -/
theorem plain_ofNat (n : Nat) : ∀ c ∈ Text.ofNat n, c ≠ '(' ∧ c ≠ ')' := by
  have other : ∀ c, c.isDigit = true → c ≠ '(' ∧ c ≠ ')' := Text.forall_isDigit (by decide)
  exact fun c hc => other c (Text.isDigit_of_mem_ofNat hc)

/-- There is no plus sign among digits. -/
theorem uncut_ofNat (n : Nat) : Uncut (Text.ofNat n) := by
  have other : ∀ c, c.isDigit = true → c ≠ '+' := Text.forall_isDigit (by decide)
  exact ⟨Text.balanced_of_plain (plain_ofNat n),
    Text.hasOuterPlus_of_forall_ne 0 fun c hc => other c (Text.isDigit_of_mem_ofNat hc)⟩

/-- Digits are no dice. -/
theorem hasDice_ofNat (n : Nat) : hasDice (Text.ofNat n) = false := by
  refine List.any_eq_false.2 fun c hc => ?_
  have other : ∀ c, c.isDigit = true → c ≠ 'd' ∧ c ≠ 'D' := Text.forall_isDigit (by decide)
  simp [other c (Text.isDigit_of_mem_ofNat hc)]

/-! ## Written parts -/

/-- What every written part of a notation is like. Such parts can be put
together, in parentheses and with plus signs, and stay such parts. -/
structure Firm (text : Text) : Prop where
  balanced : text.Balanced
  solid : Solid text
  some : text ≠ []

/-- What stands in parentheses is not cut. This holds of every balanced text,
whatever it has inside. -/
theorem uncut_parenthesized (balanced : a.Balanced) : Uncut a.parenthesized :=
  ⟨balanced.parenthesized, by simpa [Text.hasOuterPlus] using
    balanced.hasOuterPlus_parenthesized (b := [])⟩

namespace Firm

theorem blank (ha : Firm a) : a.blank = false := by
  cases a with
  | nil => exact absurd rfl ha.some
  | cons c rest => simp [Text.blank, ha.solid c (by simp)]

/-- A part may have something behind it that is balanced and has no blanks, as
modifiers are. -/
theorem append (ha : Firm a) (balanced : b.Balanced) (solid : Solid b) : Firm (a ++ b) :=
  ⟨ha.balanced.append balanced, ha.solid.append solid, by simp [ha.some]⟩

/-- A part may stand in parentheses. -/
theorem parenthesized (ha : Firm a) : Firm a.parenthesized := by
  have front : Solid ['('] := by simp [Solid]; decide
  have back : Solid [')'] := by simp [Solid]; decide
  exact ⟨ha.balanced.parenthesized, (front.append ha.solid).append back,
    by simp [Text.parenthesized]⟩

/-- A part may stand where it gets parentheses if it has an outer plus sign.
With them and without them it is a part. -/
theorem grouped (ha : Firm a) : Firm a.grouped := by
  unfold Text.grouped
  split
  next => exact ha.parenthesized
  next => exact ha

theorem uncut_parenthesized (ha : Firm a) : Uncut a.parenthesized :=
  Notation.uncut_parenthesized ha.balanced

/-- As a summand a part is not cut, since it has parentheses or no outer plus
sign. -/
theorem uncut_grouped (ha : Firm a) : Uncut a.grouped :=
  ⟨ha.balanced.grouped, ha.balanced.hasOuterPlus_grouped⟩

end Firm

theorem firm_ofNat (n : Nat) : Firm (Text.ofNat n) :=
  ⟨(uncut_ofNat n).balanced, solid_ofNat n, Text.ofNat_ne_nil n⟩

/-- Parts with plus signs between them are a part again. So the written form of
a pool is one, by induction. -/
theorem firm_join {pieces : List Text} (each : ∀ piece ∈ pieces, Firm piece)
    (some : pieces ≠ []) : Firm (Text.join ['+'] pieces) := by
  induction pieces with
  | nil => exact absurd rfl some
  | cons piece rest ih =>
    cases rest with
    | nil => simpa using each piece (by simp)
    | cons next rest =>
      have tail := ih (fun x hx => each x (by simp [hx])) (by simp)
      have head := each piece (by simp)
      rw [Text.join_cons_cons]
      refine Firm.append ?_ tail.balanced tail.solid
      exact head.append (.plain '+' [] (by decide) (by decide) .nil) (by simp [Solid]; decide)

/-- Two texts that are not cut are not cut one behind the other. With a plus
sign between them they would be. -/
theorem Uncut.append (ha : Uncut a) (hb : Uncut b) : Uncut (a ++ b) :=
  ⟨ha.balanced.append hb.balanced, by rw [ha.balanced.hasOuterPlus_append, ha.whole, hb.whole]; rfl⟩

/-- A text without an outer plus sign gets no parentheses. It can be a member of
a sum as it stands. -/
theorem Uncut.grouped (ha : Uncut a) : a.grouped = a := by
  rw [Text.grouped, ha.whole]
  rfl

/-! ## Dice in written parts -/

theorem hasDice_append : hasDice (a ++ b) = (hasDice a || hasDice b) := by simp [hasDice]

theorem hasDice_parenthesized : hasDice a.parenthesized = hasDice a := by
  simp [Text.parenthesized, hasDice]

/-- Parentheses make no difference to the dice in a text. Which segments have
dice can be told from the texts in them. -/
theorem hasDice_grouped : hasDice a.grouped = hasDice a := by
  unfold Text.grouped
  split
  next => exact hasDice_parenthesized
  next => rfl

/-- A sum has dice if each of its parts does. That there is a part has to be
said, since the sum of nothing is a zero. -/
theorem hasDice_join {pieces : List Text} (each : ∀ piece ∈ pieces, hasDice piece = true)
    (some : pieces ≠ []) : hasDice (Text.join ['+'] pieces) = true := by
  cases pieces with
  | nil => exact absurd rfl some
  | cons piece rest =>
    have head := each piece (by simp)
    cases rest with
    | nil => rwa [Text.join_singleton]
    | cons next rest => rw [Text.join_cons_cons, hasDice_append, hasDice_append, head]; rfl

/-! ## Dice and modifiers -/

/-- A text without parentheses and plus signs is not cut. -/
theorem uncut_of_plain (plain : ∀ c ∈ a, c ≠ '(' ∧ c ≠ ')' ∧ c ≠ '+') : Uncut a :=
  ⟨Text.balanced_of_plain fun c mem => ⟨(plain c mem).1, (plain c mem).2.1⟩,
    Text.hasOuterPlus_of_forall_ne 0 fun c mem => (plain c mem).2.2⟩

/-- A number of dice is not cut. The only signs in it are those of faces. -/
theorem uncut_diceText (d : Die) (quantity : Nat) : Uncut (diceText quantity d) := by
  have die : Uncut d.text := uncut_of_plain fun c mem => (Die.of_mem_text mem).2
  unfold diceText
  split
  next => exact die
  next => exact (uncut_ofNat quantity).append die

theorem plain_diceText (d : Die) (quantity : Nat) :
    ∀ c ∈ diceText quantity d, c ≠ '(' ∧ c ≠ ')' := by
  intro c mem
  have die : c ∈ d.text → c ≠ '(' ∧ c ≠ ')' := fun mem =>
    ⟨(Die.of_mem_text mem).2.1, (Die.of_mem_text mem).2.2.1⟩
  unfold diceText at mem
  split at mem
  next => exact die mem
  next => exact (List.mem_append.1 mem).elim (plain_ofNat quantity c) die

/-- A number of dice has the letter of one. -/
theorem hasDice_diceText (d : Die) (quantity : Nat) : hasDice (diceText quantity d) = true := by
  rw [diceText, hasDice_append]
  cases d <;> simp [Die.text, hasDice]

/-- A number of dice is a part like any other. This is where the induction over
written forms begins. -/
theorem firm_diceText (d : Die) (quantity : Nat) : Firm (diceText quantity d) := by
  have die : Solid d.text := fun c mem => (Die.of_mem_text mem).1
  refine ⟨(uncut_diceText d quantity).balanced, ?_, ?_⟩
  · unfold diceText
    split
    next => exact die
    next => exact (solid_ofNat quantity).append die
  · intro none
    have dice := hasDice_diceText d quantity
    rw [none] at dice
    cases dice

/-- There are no blanks, parentheses and plus signs in the text of a modifier.
So it changes nothing about how the text in front of it is cut. -/
theorem Modifier.of_mem_text {m : Modifier} {c : Char} (mem : c ∈ m.text) :
    Text.isBlank c = false ∧ c ≠ '(' ∧ c ≠ ')' ∧ c ≠ '+' := by
  have digit : ∀ c, c.isDigit = true →
      Text.isBlank c = false ∧ c ≠ '(' ∧ c ≠ ')' ∧ c ≠ '+' := Text.forall_isDigit (by decide)
  cases m with
  | selection rule threshold =>
    have letters : ∀ c ∈ rule.text,
        Text.isBlank c = false ∧ c ≠ '(' ∧ c ≠ ')' ∧ c ≠ '+' := by
      cases rule <;> exact Text.forall_mem (by decide)
    exact (List.mem_append.1 mem).elim (letters c) fun mem =>
      digit c (Text.isDigit_of_mem_ofNat mem)
  | explosion comparator threshold =>
    -- the mark, the comparator, or a character of the threshold
    have parts : c = '!' ∨ c = comparator.symbol ∨ ∃ a : Score, c ∈ a.text := by
      refine (List.mem_cons.1 mem).imp_right fun mem => ?_
      cases threshold with
      | none => cases comparator <;> simp_all [Expr.conditionText]
      | some score =>
        cases comparator <;> exact (List.mem_cons.1 mem).imp_right fun mem => ⟨score, mem⟩
    rcases parts with rfl | rfl | ⟨a, mem⟩
    · decide
    · cases comparator <;> decide
    · rcases Score.of_mem_text mem with rfl | isDigit
      · decide
      · exact digit c isDigit

/-- A modifier is not cut, and neither is what it stands behind. -/
theorem uncut_modifierText (m : Modifier) : Uncut (modifierText (some m)) :=
  uncut_of_plain fun _ mem => (Modifier.of_mem_text mem).2

theorem solid_modifierText (m : Modifier) : Solid (modifierText (some m)) :=
  fun _ mem => (Modifier.of_mem_text mem).1

end Dice.Notation
