import Dice.Proofs.Expr.Tally
import Dice.Proofs.Notation.Written

/-!
# The texts of expressions

The text of an expression is put together from those of its parts, and nothing
needs to be known of the expression to see how: the text is `Firm`, with
parentheses around everything that has an outer plus sign where more is
written around it. So it is one segment unless it is that of a pool of
different members, and then it has an outer plus sign.

There is one equation for each constructor, in terms of the pieces that the
reader of notation meets again: the entries of a tally joined by plus signs,
the pool under a modifier (`baseText`), and what is written behind it. No
later proof unfolds the texts themselves.

`Firm` and `Uncut` are kept apart, since the text of a sum is balanced but may
be cut. It becomes uncut in parentheses, and every place where a sum is a part
of something else puts them there.

Main statements: `firm_text`, `cutSegments_text` and `hasOuterPlus_pool`.
-/

namespace Dice.Expr

open Notation

variable {members : List Expr} {e : Expr}

/-! ## The parts of a text -/

/-- What is written for the pool under a selection or an explosion: its dice
with their number, or its members in parentheses. -/
def baseText (members : List Expr) : Text :=
  modifiedText members (members.map fun m => m.text.grouped)

theorem text_die (d : Die) : (die d).text = diceText 1 d := by simp [text, diceText]

/-- The text of a pool with members is its tally, written with plus signs
between the entries. -/
theorem text_pool (some : members ≠ []) :
    (pool members).text = Text.join ['+'] ((tally members).map entryText) := by
  rw [← poolText_eq some]
  simp [text]

/-- The text of a selection is that of its pool, followed by the modifier. The
threshold is always written. -/
theorem text_selection (rule : Selection) (threshold : Nat) :
    (selection members rule threshold).text =
      baseText members ++ modifierText (some (.selection rule threshold)) := by
  simp [text, baseText, modifierText, Modifier.text]

theorem text_explosion (c : Comparator) (threshold : Option Score) :
    (explosion members c threshold).text =
      baseText members ++ modifierText (some (.explosion c threshold)) := by
  simp [text, baseText, modifierText, Modifier.text]

/-- The text of arithmetic is that of its operand, followed by a list of
operators with one of them in it. -/
theorem text_arithmetic_eq (inner : Expr) (op : Operator) (operand : UInt32) :
    (arithmetic inner op operand).text =
      operandText inner inner.text ++ operatorsText [(op, operand)] := by
  simp [text_arithmetic, operatorsText]

/-- An entry for a die is written as a number of dice. -/
theorem entryText_die (d : Die) (count : Nat) : entryText (die d, count) = diceText count d := by
  simp [entryText, diceText, text, grouped_die d]

/-- Copies of one die are a tally of a single entry, and nothing is joined. The
number in front is left out for one copy. -/
theorem poolText_replicate (d : Die) (count : Nat) :
    poolText (List.replicate (count + 1) (die d))
        ((List.replicate (count + 1) (die d)).map fun m => m.text.grouped) =
      diceText (count + 1) d := by
  rw [poolText_eq (by simp), tally_replicate, List.map_singleton, Text.join_singleton,
    entryText_die]

/-- A pool of one kind of dice is written as their number, with a modifier or
without. Parentheses are not needed for it. -/
theorem text_replicate (d : Die) (count : Nat) :
    (pool (List.replicate (count + 1) (die d))).text = diceText (count + 1) d := by
  rw [← poolText_replicate d count]
  simp [text]

theorem baseText_replicate (d : Die) (count : Nat) :
    baseText (List.replicate (count + 1) (die d)) = diceText (count + 1) d := by
  rw [baseText, modifiedText, if_pos (uniform_iff.2 ⟨d, count, rfl⟩), poolText_replicate d]

/-- Different members under a modifier stand in parentheses, each of them as it
is, in their order and without being counted. -/
theorem baseText_of_mixed (mixed : uniform members = false) (some : members ≠ []) :
    baseText members = (Text.join ['+'] (members.map fun m => m.text.grouped)).parenthesized := by
  cases members with
  | nil => exact absurd rfl some
  | cons m rest => simp [baseText, modifiedText, mixed, listedText]

/-! ## Whole texts -/

/-- An operator and its constant are spelt without parentheses and blanks. They
can stand behind every part. -/
theorem firm_operatorsText (op : Operator) (operand : UInt32) :
    Firm (operatorsText [(op, operand)]) := by
  refine ⟨?_, ?_, by simp [operatorsText]⟩
  · rw [← spelling_operatorTokens]
    exact balanced_spellings _
  · rw [← spelling_operatorTokens]
    exact solid_spellings _

/-- The operand keeps a text of that form, in parentheses or without them. When
they are needed is not used here. -/
theorem firm_operandText {inner : Expr} {text : Text} (firm : Firm text) :
    Firm (operandText inner text) := by
  unfold operandText
  split
  next => exact firm.parenthesized
  next => exact firm

theorem firm_entryText {entry : Expr × Nat} (firm : Firm entry.1.text) :
    Firm (entryText entry) := by
  have front : Firm entry.1.text.grouped := firm.grouped
  unfold entryText
  split
  next => exact front
  next => exact (firm_ofNat _).append front.balanced front.solid

/-- The pool under a modifier is put into parentheses unless it is nothing but
copies of one die. What is in them is a part like others. -/
theorem exists_parenthesized (firm : ∀ m ∈ members, Firm m.text)
    (mixed : uniform members = false) :
    ∃ listed, Firm listed ∧ baseText members = listed.parenthesized := by
  by_cases none : members = []
  · subst none
    exact ⟨Text.ofNat 0, firm_ofNat 0, rfl⟩
  · refine ⟨_, ?_, baseText_of_mixed mixed none⟩
    exact firm_join (List.forall_mem_map.2 fun m hm => (firm m hm).grouped) (by simpa using none)

/-- The text of the pool under a modifier is balanced if those of its members
are. -/
theorem firm_baseText (firm : ∀ m ∈ members, Firm m.text) : Firm (baseText members) := by
  cases mixed : uniform members with
  | true =>
    obtain ⟨d, count, rfl⟩ := uniform_iff.1 mixed
    rw [baseText_replicate]
    exact firm_diceText d _
  | false =>
    obtain ⟨listed, inside, same⟩ := exists_parenthesized firm mixed
    rw [same]
    exact inside.parenthesized

theorem firm_modified (firm : ∀ m ∈ members, Firm m.text) (m : Modifier) :
    Firm (baseText members ++ modifierText (some m)) :=
  (firm_baseText firm).append (uncut_modifierText m).balanced (solid_modifierText m)

/-- **The text of an expression is balanced, not empty, and has no blanks.**
This is what allows to write anything behind it or around it. -/
theorem firm_text (e : Expr) : Firm e.text := by
  induction e using ind with
  | die d =>
    rw [text_die]
    exact firm_diceText d 1
  | pool members ih =>
    by_cases none : members = []
    -- the sum of nothing is written as a zero
    · subst none
      exact firm_ofNat 0
    · rw [text_pool none]
      refine firm_join (List.forall_mem_map.2 fun entry he => ?_) (by simpa using tally_ne_nil none)
      exact firm_entryText (ih _ (fst_mem_of_mem_tally he))
  | arithmetic inner op operand ih =>
    have suffix := firm_operatorsText op operand
    rw [text_arithmetic_eq]
    exact (firm_operandText ih).append suffix.balanced suffix.solid
  | selection members rule threshold ih =>
    rw [text_selection]
    exact firm_modified ih _
  | explosion members c threshold ih =>
    rw [text_explosion]
    exact firm_modified ih _

/-! ## Segments -/

/-- Whether an expression is written as one segment: everything but a pool of
different members is. -/
def single : Expr → Bool
  | pool members => uniform members
  | _ => true

/-- No plus sign stands outside of parentheses in what is written for the pool
under a modifier. -/
theorem uncut_baseText (members : List Expr) : Uncut (baseText members) := by
  cases mixed : uniform members with
  | true =>
    obtain ⟨d, count, rfl⟩ := uniform_iff.1 mixed
    rw [baseText_replicate]
    exact uncut_diceText d _
  | false =>
    obtain ⟨listed, inside, same⟩ := exists_parenthesized (fun m _ => firm_text m) mixed
    rw [same]
    exact inside.uncut_parenthesized

theorem uncut_modified (members : List Expr) (m : Modifier) :
    Uncut (baseText members ++ modifierText (some m)) :=
  (uncut_baseText members).append (uncut_modifierText m)

/-- An operand that has an outer plus sign is written in parentheses, so there
is none in what is written for it. -/
theorem uncut_operandText (inner : Expr) : Uncut (operandText inner inner.text) := by
  unfold operandText
  split
  next => exact (firm_text inner).uncut_parenthesized
  next plain =>
    simp only [Bool.or_eq_true, not_or, Bool.not_eq_true] at plain
    exact ⟨(firm_text inner).balanced, plain.2⟩

theorem uncut_entryText (entry : Expr × Nat) : Uncut (entryText entry) := by
  have front := (firm_text entry.1).uncut_grouped
  unfold entryText
  split
  next => exact front
  next => exact (uncut_ofNat _).append front

/-- The operator `+` behind an operand is an outer plus sign, and still the text
is not cut at it, as no dice follow. -/
theorem cutSegments_operand {text : Text} (uncut : Uncut text) (op : Operator) (operand : UInt32) :
    cutSegments (text ++ operatorsText [(op, operand)]) =
      [text ++ operatorsText [(op, operand)]] := by
  have digits := uncut_ofNat operand.toNat
  -- a plus sign is an outer one, but there are no dice in the digits behind it
  by_cases plus : op = .add
  · subst plus
    have glued := cutSegments_glued uncut digits (hasDice_ofNat operand.toNat)
    simpa [operatorsText, Operator.symbol] using glued
  · have tokens : .operator .add ∉ operatorTokens [(op, operand)] := by
      simpa [operatorTokens] using Ne.symm plus
    have suffix := uncut_spellings tokens
    rw [spelling_operatorTokens] at suffix
    exact cutSegments_uncut (uncut.append suffix)

/-- **What is written as one segment is not cut.** The others are pools of
several entries, which are cut into these. -/
theorem cutSegments_text (whole : e.single = true) : cutSegments e.text = [e.text] := by
  cases e with
  | die d =>
    rw [text_die]
    exact cutSegments_uncut (uncut_diceText d 1)
  | pool members =>
    obtain ⟨d, count, rfl⟩ := uniform_iff.1 whole
    rw [text_replicate]
    exact cutSegments_uncut (uncut_diceText d _)
  | arithmetic inner op operand =>
    rw [text_arithmetic_eq]
    exact cutSegments_operand (uncut_operandText inner) op operand
  | selection members rule threshold =>
    rw [text_selection]
    exact cutSegments_uncut (uncut_modified members _)
  | explosion members c threshold =>
    rw [text_explosion]
    exact cutSegments_uncut (uncut_modified members _)

/-- A pool of different members has a plus sign behind its first entry, which is
outside of all parentheses. -/
theorem hasOuterPlus_pool (several : 2 ≤ members.length) (mixed : uniform members = false) :
    (pool members).text.hasOuterPlus 0 = true := by
  obtain ⟨first, next, rest, entries⟩ :
      ∃ first next rest, tally members = first :: next :: rest := by
    match tally members, two_le_length_tally several mixed with
    | first :: next :: rest, _ => exact ⟨first, next, rest, rfl⟩
  have front := (uncut_entryText first).balanced
  rw [text_pool (by rintro rfl; cases several), entries, List.map_cons, List.map_cons,
    Text.join_cons_cons, List.append_assoc, front.hasOuterPlus_append, List.singleton_append]
  simp [Text.hasOuterPlus]

end Dice.Expr
