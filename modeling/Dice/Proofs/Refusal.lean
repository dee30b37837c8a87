import Dice.Proofs.Notation.Checked
import Dice.Proofs.Notation.Nesting
import Dice.Proofs.Roundtrip

/-!
# When a written expression is refused

What is written for an expression that was read need not be accepted again.
There are three ways for that to happen, and no others: the text has more
parentheses inside each other than a notation may have, since some were added;
equal dice that stood apart are counted, and are too many; or an explosion is
endless for its regrouped members, whose sums saturate in another order.

The first is a matter of the text alone and the other two of single nodes, so
`rereadable`, which follows the reader through the tree, comes apart into the
nesting of the text and a property of every node (`Limited`). Where the reader
goes one level down, the text has one more pair of parentheses.

Nothing else that a constructor checks can fail the second time: a constant is
the one that was accepted, and a selection still has as many members.

Main statements: `rereadable_iff`, and `parse_text_iff` with an expression of
the last kind, `not_parse_text_refused`.
-/

namespace Dice

namespace Expr

open Notation

variable {members : List Expr} {e m : Expr} {levels : Nat}

/-- Whether the numbers of dice that are written for a node can be read. A sum
counts its equal dice, and under a modifier only dice that are all the same are
counted. -/
def Countable : Expr → Prop
  | .pool members => ∀ entry ∈ tally members, few entry.2 = true
  | .selection members _ _ => uniform members = true → few members.length = true
  | .explosion members _ _ => uniform members = true → few members.length = true
  | _ => True

/-- Whether no explosion is endless for its regrouped members. -/
def Stopping : Expr → Prop
  | .explosion members c threshold => ∀ m ∈ members, endless c threshold m.regrouped = false
  | _ => True

/-- Whether nothing at a node keeps its text from being read. -/
def Repeatable (e : Expr) : Prop := e.Countable ∧ e.Stopping

/-! ## Members -/

/-- What can be read to a depth can be read in parentheses to a depth of one
more. -/
theorem deeper_iff {accepts : Nat → Bool} {depth : Nat} {condition : Prop}
    (h : ∀ lower, accepts lower = true ↔ depth ≤ lower ∧ condition) :
    deeper levels accepts = true ↔ depth + 1 ≤ levels ∧ condition := by
  cases levels with
  | zero => simp [deeper]
  | succ lower => simp [deeper, h]

/-- Whether the texts of an expression that are nested no deeper than the limit
can be read, and no others, if every node is repeatable. -/
def Limited (e : Expr) : Prop :=
  ∀ levels, e.rereadable levels = true ↔ e.text.nesting ≤ levels ∧ e.Every Repeatable

/-- A member of a sum is nested as deep as what is written for it, with the
parentheses that it may need. -/
theorem memberRereadable_iff (limited : m.Limited) :
    memberRereadable levels m = true ↔
      m.text.grouped.nesting ≤ levels ∧ m.Every Repeatable := by
  unfold memberRereadable Text.grouped
  split
  next => rw [deeper_iff limited, (firm_text m).balanced.nesting_parenthesized]
  next => exact limited levels

/-- All members can be read if none of them is nested too deep and all nodes are
repeatable. -/
theorem all_memberRereadable_iff (limited : ∀ m ∈ members, m.Limited) :
    members.all (memberRereadable levels) = true ↔
      (∀ m ∈ members, m.text.grouped.nesting ≤ levels) ∧ ∀ m ∈ members, m.Every Repeatable := by
  rw [List.all_eq_true, ← forall₂_and]
  exact forall₂_congr fun m hm => memberRereadable_iff (limited m hm)

/-- The pool under a selection or an explosion: dice that are counted have no
parentheses, and everything else is in a pair of them. -/
theorem baseRereadable_iff (some : members ≠ [])
    (limited : ∀ m ∈ members, m.Limited) : baseRereadable members levels = true ↔
      (baseText members).nesting ≤ levels ∧ (uniform members = true → few members.length = true) ∧
        ∀ m ∈ members, m.Every Repeatable := by
  cases mixed : uniform members with
  -- copies of one die: no parentheses, and their number decides
  | true =>
    obtain ⟨d, count, rfl⟩ := uniform_iff.1 mixed
    rw [baseText_replicate, nesting_diceText d, baseRereadable, if_pos mixed]
    have dice : ∀ m ∈ List.replicate (count + 1) (Expr.die d), m.Every Repeatable := by
      intro m hm
      rw [List.eq_of_mem_replicate hm]
      exact .die d ⟨trivial, trivial⟩
    simp [dice]
  -- anything else is in parentheses, which take one level
  | false =>
    have balanced : ∀ piece ∈ members.map fun m => m.text.grouped, piece.Balanced :=
      List.forall_mem_map.2 fun m _ => (firm_text m).balanced.grouped
    have listed : (Text.join ['+'] (members.map fun m => m.text.grouped)).Balanced :=
      (firm_join (List.forall_mem_map.2 fun m _ => (firm_text m).grouped)
        (by simpa using some)).balanced
    rw [baseText_of_mixed mixed some, listed.nesting_parenthesized, baseRereadable, mixed]
    simp only [Bool.false_eq_true, if_false, false_implies, true_and]
    refine deeper_iff fun lower => ?_
    rw [all_memberRereadable_iff limited, Text.nesting_join_le balanced, List.forall_mem_map]

theorem nesting_entryText (entry : Expr × Nat) :
    (entryText entry).nesting = entry.1.text.grouped.nesting := by
  have number := Text.nesting_of_plain (plain_ofNat entry.2)
  unfold entryText
  split
  next => rfl
  next => rw [(uncut_ofNat entry.2).balanced.nesting_append, number, Nat.zero_max]

/-- A sum is nested as deep as the deepest of its members. Counting dice makes
no difference to that, as they have no parentheses. -/
theorem nesting_pool_le (some : members ≠ []) :
    (pool members).text.nesting ≤ levels ↔ ∀ m ∈ members, m.text.grouped.nesting ≤ levels := by
  have balanced : ∀ piece ∈ (tally members).map entryText, piece.Balanced :=
    List.forall_mem_map.2 fun entry _ => (uncut_entryText entry).balanced
  rw [text_pool some, Text.nesting_join_le balanced,
    List.forall_mem_map, ← forall_tally_iff]
  exact forall₂_congr fun entry _ => by rw [nesting_entryText]

/-- A modifier has no parentheses. -/
theorem nesting_modified (members : List Expr) (m : Modifier) :
    (baseText members ++ modifierText (some m)).nesting = (baseText members).nesting := by
  rw [(uncut_baseText members).balanced.nesting_append, nesting_modifierText m, Nat.max_zero]

/-! ## Every expression -/

/-- **The text of an expression can be read exactly when it is not nested too
deep and every node is within the limits.** -/
theorem rereadable_iff (legible : e.Every Legible) (checked : e.Every Checked) : e.Limited := by
  induction e using ind with
  | die d =>
    intro levels
    simp [rereadable_die, text_die, nesting_diceText d, Repeatable, Countable, Stopping]
  | pool members ih =>
    intro levels
    obtain ⟨several, each⟩ := Every.pool_iff.1 legible
    have limited := fun m hm => ih m hm (each m hm) ((Every.pool_iff.1 checked).2 m hm)
    rw [rereadable_pool, Bool.and_eq_true, all_memberRereadable_iff limited,
      nesting_pool_le (ne_nil_of_legible several), Every.pool_iff, List.all_eq_true]
    simp only [Repeatable, Countable, Stopping, and_true]
    exact and_left_comm
  | arithmetic inner op operand ih =>
    intro levels
    have inside := (Every.arithmetic_iff.1 legible).2
    obtain ⟨self, checked⟩ := Every.arithmetic_iff.1 checked
    have nonzero : ¬ (op = .divide ∧ operand = 0) := self rfl
    have limited := ih inside checked
    have text : (arithmetic inner op operand).text.nesting =
        (operandText inner inner.text).nesting := by
      rw [text_arithmetic_eq, (uncut_operandText inner).balanced.nesting_append,
        nesting_operatorsText, Nat.max_zero]
    rw [rereadable_arithmetic, text, operandText_eq, Every.arithmetic_iff]
    simp only [nonzero, decide_false, Bool.not_false, Bool.and_true, Repeatable, Countable,
      Stopping, true_and]
    -- parentheses around the expression inside take one level
    cases inner.wrapped with
    | true =>
      rw [if_pos rfl, if_pos rfl, (firm_text inner).balanced.nesting_parenthesized]
      exact deeper_iff limited
    | false => exact limited levels
  | selection members rule threshold ih =>
    intro levels
    obtain ⟨⟨pooled, -⟩, each⟩ := Every.selection_iff.1 legible
    obtain ⟨self, checked⟩ := Every.selection_iff.1 checked
    have enough : threshold ≤ members.length := self rfl
    have limited := fun m hm => ih m hm (each m hm) (checked m hm)
    rw [rereadable_selection, text_selection, nesting_modified,
      Every.selection_iff, Bool.and_eq_true, baseRereadable_iff pooled.1 limited]
    simp only [enough, decide_true, and_true, Repeatable, Countable, Stopping]
  | explosion members c threshold ih =>
    intro levels
    obtain ⟨⟨pooled, -⟩, each⟩ := Every.explosion_iff.1 legible
    obtain ⟨-, checked⟩ := Every.explosion_iff.1 checked
    have limited := fun m hm => ih m hm (each m hm) (checked m hm)
    rw [rereadable_explosion, text_explosion, nesting_modified,
      Every.explosion_iff, Bool.and_eq_true, baseRereadable_iff pooled.1 limited,
      List.all_eq_true, List.forall_mem_map]
    simp only [Bool.not_eq_true', Repeatable, Countable, Stopping]
    -- the same four conditions, grouped as the constructors do and as the nodes do
    exact ⟨fun ⟨⟨depth, few, inside⟩, ends⟩ => ⟨depth, ⟨few, ends⟩, inside⟩,
      fun ⟨depth, ⟨few, ends⟩, inside⟩ => ⟨⟨depth, few, inside⟩, ends⟩⟩

end Expr

namespace Notation

open Dice.Expr

variable {text : Text} {e first : Expr}

/-- The same for the reader of notation, and with the two properties of nodes
taken apart. -/
theorem exists_parse_text_iff (legible : e.Every Legible) (checked : e.Every Checked) :
    (∃ second, parse e.text = .ok second) ↔ e.text.nesting ≤ nestingLimit ∧
      e.Every Countable ∧ e.Every Stopping := by
  have limited := rereadable_iff legible checked nestingLimit
  have read := parse_text legible
  rw [← Every.and_iff]
  refine Iff.trans ?_ limited
  unfold reading at read
  constructor
  · intro ⟨second, again⟩
    by_contra refused
    rw [again, if_neg refused] at read
    cases read
  · intro accepted
    rw [if_pos accepted] at read
    exact ⟨e.regrouped, ok_of_toOption read⟩

/-- **What is written for a notation is accepted exactly when its parentheses
are not nested too deep, no number of dice in it is past the limit, and no
explosion is endless for its regrouped members.** -/
theorem parse_text_iff (some : text.blank = false) (ok : parse text = .ok first) :
    (∃ second, parse first.text = .ok second) ↔ first.text.nesting ≤ nestingLimit ∧
      first.Every Countable ∧ first.Every Stopping :=
  exists_parse_text_iff (legible_of_parse some ok) (checked_of_parse some ok)

/-- The text of an expression with equal dice that stand apart is accepted. -/
theorem parse_text_scattered : Text.blank "d6+(d8+d6+d8)kh2+d6".toList = false ∧
    parse "d6+(d8+d6+d8)kh2+d6".toList = .ok scattered ∧
      scattered.text.nesting ≤ nestingLimit ∧ scattered.Every Countable ∧
      scattered.Every Stopping := by
  have some : Text.blank "d6+(d8+d6+d8)kh2+d6".toList = false := by decide +kernel
  have ok : parse "d6+(d8+d6+d8)kh2+d6".toList = .ok scattered := by decide +kernel
  have again : parse scattered.text = .ok gathered := by decide +kernel
  exact ⟨some, ok, (parse_text_iff some ok).1 ⟨gathered, again⟩⟩

/-- A sum whose greatest values go past the greatest score in front of a
negative one. -/
def unsteady : Expr :=
  .pool [.die .sixSided, .explosion [.die .sixSided] .equals none,
    .die (.custom [.clamp (-3), .clamp (-1)] (by decide)), .die .sixSided]

/-- An explosion below a threshold that is one less than the greatest score. The
sum in it ends at the greatest score, but at the threshold if the two equal dice
come first. -/
def refused : Expr :=
  .explosion [unsteady, .explosion [.die .sixSided] .equals none] .lessThan
    (some 9223372036854775806)

/-- What is written for it is endless. -/
theorem not_parse_text_refused :
    Text.blank "((d6+d6!+d[-3,-1]+d6)+d6!)!<9223372036854775806".toList = false ∧
      parse "((d6+d6!+d[-3,-1]+d6)+d6!)!<9223372036854775806".toList = .ok refused ∧
      refused.text = "((2D6+D6!+D[-3,-1])+D6!)!<9223372036854775806".toList ∧
      ¬ ∃ second, parse refused.text = .ok second := by
  have fails : (parse refused.text).toOption = none := by decide +kernel
  refine ⟨by decide +kernel, by decide +kernel, by decide +kernel, ?_⟩
  rintro ⟨second, ok⟩
  rw [ok] at fails
  cases fails

end Notation

end Dice
