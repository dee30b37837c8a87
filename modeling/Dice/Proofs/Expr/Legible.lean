import Dice.Proofs.Expr.Every
import Dice.Proofs.Expr.Texts

/-!
# Expressions that can be written and read

`Legible` says of a node what the notation can express: no pool is without
members or has only one, and every number has digits that read as it. The pool
under a selection or an explosion may have a single member, but that is not a
pool again.

Everything that a reader gives is legible, and so it is the condition under
which writing and reading again can be looked at. It does not say that the
text can be read. A reader has limits, on the depth of parentheses and on the
number of dice, that a legible expression need not respect.

The text of a legible expression has dice in it, by induction: every leaf is a
die, and nothing that is written around a text takes its dice away. The
entries of a written sum therefore have dice as well, each of them, and so the
plus signs between them are the places where the text is cut.

Main statements: `hasDice_text` and `cutSegments_pool`, a pool of different
members is cut into the entries of its tally.
-/

namespace Dice.Expr

open Notation

variable {members : List Expr} {e : Expr}

/-- Whether the members of a pool under a selection or an explosion can be
written: there are some, and they are not a pool in parentheses, which would be
read as its members. -/
def LegiblePool (members : List Expr) : Prop :=
  members ≠ [] ∧ ∀ inner, members ≠ [pool inner]

/-- Whether a node is something that the notation can express. Arithmetic always
is, as its constant has digits that read as it. -/
def Legible : Expr → Prop
  | .die d => LegibleDie d
  | .pool members => 2 ≤ members.length
  | .arithmetic _ _ _ => True
  | .selection members rule threshold =>
    LegiblePool members ∧ (Modifier.selection rule threshold).Legible
  | .explosion members c threshold =>
    LegiblePool members ∧ (Modifier.explosion c threshold).Legible

/-- A pool that can be written has members. -/
theorem ne_nil_of_legible (several : (pool members).Legible) : members ≠ [] := by
  rintro rfl
  simp [Legible] at several

/-- Members that are all the same die are a number of copies of a die that can
be written. -/
theorem exists_replicate (each : ∀ m ∈ members, m.Every Legible) (same : uniform members = true) :
    ∃ d count, LegibleDie d ∧ members = List.replicate (count + 1) (die d) := by
  obtain ⟨d, count, rfl⟩ := uniform_iff.1 same
  exact ⟨d, count, Every.die_iff.1 (each (die d) (by simp)), rfl⟩

/-- A legible pool of one kind of dice has at least two: a single one would not
be a pool. -/
theorem exists_replicate_of_pool (legible : (pool members).Every Legible)
    (same : uniform members = true) :
    ∃ d count, LegibleDie d ∧ members = List.replicate (count + 2) (die d) := by
  obtain ⟨several, each⟩ := Every.pool_iff.1 legible
  obtain ⟨d, count, die, rfl⟩ := exists_replicate each same
  simp only [Legible, List.length_replicate] at several
  exact ⟨d, count - 1, die, by congr 1; omega⟩

/-- A legible expression has members if it is a pool, so no sum leaves it out. -/
theorem isEmpty_of_legible (legible : e.Every Legible) : e.isEmpty = false := by
  cases legible with
  | pool members several _ =>
    cases members with
    | nil => simp [Legible] at several
    | cons m rest => rfl
  | _ => rfl

/-! ## Texts -/

theorem hasDice_operandText (inner : Expr) (text : Text) :
    hasDice (operandText inner text) = hasDice text := by
  unfold operandText
  split
  next => exact hasDice_parenthesized
  next => rfl

theorem hasDice_entryText (entry : Expr × Nat) :
    hasDice (entryText entry) = hasDice entry.1.text := by
  unfold entryText
  split
  next => exact hasDice_grouped
  next => rw [hasDice_append, hasDice_ofNat, hasDice_grouped, Bool.false_or]

/-- The pool under a selection or an explosion has dice in its text, in
whichever of the two ways it is written. -/
theorem hasDice_baseText (dice : ∀ m ∈ members, hasDice m.text = true) (some : members ≠ []) :
    hasDice (baseText members) = true := by
  cases mixed : uniform members with
  | true =>
    obtain ⟨d, count, rfl⟩ := uniform_iff.1 mixed
    rw [baseText_replicate]
    exact hasDice_diceText d _
  | false =>
    rw [baseText_of_mixed mixed some, hasDice_parenthesized]
    exact hasDice_join (List.forall_mem_map.2 fun m hm => hasDice_grouped.trans (dice m hm))
      (by simpa using some)

/-- **There are dice in the text of a legible expression.** -/
theorem hasDice_text (legible : e.Every Legible) : hasDice e.text = true := by
  induction e using ind with
  | die d =>
    rw [text_die]
    exact hasDice_diceText d 1
  -- every entry of the tally is of a member, and has the dice of that
  | pool members ih =>
    obtain ⟨several, each⟩ := Every.pool_iff.1 legible
    have some := ne_nil_of_legible several
    rw [text_pool some]
    refine hasDice_join (List.forall_mem_map.2 fun entry he => ?_)
      (by simpa using tally_ne_nil some)
    have mem := fst_mem_of_mem_tally he
    rw [hasDice_entryText, ih _ mem (each _ mem)]
  | arithmetic inner op operand ih =>
    rw [text_arithmetic_eq, hasDice_append, hasDice_operandText,
      ih (Every.arithmetic_iff.1 legible).2, Bool.true_or]
  | selection members rule threshold ih =>
    obtain ⟨⟨pooled, -⟩, each⟩ := Every.selection_iff.1 legible
    rw [text_selection, hasDice_append,
      hasDice_baseText (fun m hm => ih m hm (each m hm)) pooled.1, Bool.true_or]
  | explosion members c threshold ih =>
    obtain ⟨⟨pooled, -⟩, each⟩ := Every.explosion_iff.1 legible
    rw [text_explosion, hasDice_append,
      hasDice_baseText (fun m hm => ih m hm (each m hm)) pooled.1, Bool.true_or]

/-! ## Segments -/

/-- A written sum is cut into the entries of its tally: each of them has dice,
and no plus sign outside of parentheses. -/
theorem cutSegments_pool (legible : (pool members).Every Legible) :
    cutSegments (pool members).text = (tally members).map entryText := by
  obtain ⟨several, each⟩ := Every.pool_iff.1 legible
  have some := ne_nil_of_legible several
  rw [text_pool some]
  refine cutSegments_join (List.forall_mem_map.2 fun entry _ => uncut_entryText entry)
    (List.forall_mem_map.2 fun entry he => ?_) (by simpa using tally_ne_nil some)
  rw [hasDice_entryText, hasDice_text (each _ (fst_mem_of_mem_tally he))]

/-- A text without an outer plus sign is one segment: a sum has such a sign
between its entries, unless it has one entry only. -/
theorem single_of_hasOuterPlus (legible : e.Every Legible) (whole : e.text.hasOuterPlus 0 = false) :
    e.single = true := by
  cases e with
  | pool members =>
    by_contra mixed
    rw [hasOuterPlus_pool (Every.pool_iff.1 legible).1 (by simpa [single] using mixed)] at whole
    cases whole
  | _ => rfl

end Dice.Expr
