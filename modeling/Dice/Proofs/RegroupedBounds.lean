import Dice.Proofs.Refusal
import Dice.Proofs.Score.Steady

/-!
# Bounds of a regrouped expression

Reading a written sum again moves equal dice together and adds them up first.
The bounds of the sum stay what they were if the least values of its members
and the greatest ones are steady, or if no die stands in it twice. Everything
around the sum has its bounds from those of its members and keeps them too.

What is asked of each sum is `Settled`. It is asked of every pool in the tree,
and the induction over the tree hands the equality of bounds upward:
arithmetic, selections and explosions compute their bounds from those of their
members in their order, which reading again does not change.

Both bounds of a sum are sums of the same bound of its members, so what is to
be shown is shown once for either of them (`value_regrouped_pool`). Copies of
a die that are read as one member come back as a group; `Steady.sum_flatten`
takes groups apart.

Being steady is not only enough. A sum has the same bounds in every order of
its members just where both lists of bounds are steady
(`bounds_pool_perm_iff`), so no weaker condition on the bounds of the members
alone could allow them to be moved.

Main statements: `bounds_regrouped` and `bounds_of_reparse`, and a sum that is
not steady, whose greatest value changes, `not_bounds_of_reparse_unsteady`.
-/

namespace Dice

namespace Expr

open Notation Score

variable {members : List Expr} {e : Expr} {entry : Expr × Nat} {value : Expr → Score}

/-- Whether no die is listed twice, so that nothing is moved when the list is
written and read again. -/
def Apart (members : List Expr) : Prop :=
  members.Pairwise fun a b => b.isDie = true → a ≠ b

/-- Whether a sum does not depend on the order, or is not regrouped. Nodes that
are no sums ask for nothing themselves. -/
def Settled : Expr → Prop
  | .pool members =>
    Apart members ∨ (Steady (members.map minimum) ∧ Steady (members.map maximum))
  | _ => True

/-! ## Sums -/

section Sums

/- Either bound of a pool is the sum of the bounds of its members. -/
variable (sums : ∀ members, value (pool members) = .sum (members.map value))
include sums

/-- Copies of an expression add up as often as they are counted. A single copy
is no sum, but has the same value as the sum of it alone. -/
theorem value_copies (some : e.isEmpty = false) {count : Nat} (pos : 0 < count) :
    value (e.copies count) = .sum (List.replicate count (value e)) := by
  obtain ⟨count, rfl⟩ := Nat.exists_eq_add_of_lt pos
  cases count with
  | zero => simp [copies, sum_singleton]
  | succ count =>
    rw [Nat.zero_add, copies_several some, sums, List.map_replicate]

/-- Adding up what a tally counts comes to the same as adding up the members:
either it counts everything once and in order, or the sum may be regrouped. -/
theorem value_pool_counted (legible : ∀ m ∈ members, m.Every Legible)
    (same : ∀ m ∈ members, value m.regrouped = value m)
    (settled : Apart members ∨ Steady (members.map value)) :
    value (pool ((tally members).map counted)) = value (pool members) := by
  rw [sums, sums, List.map_map]
  rcases settled with apart | steady
  · rw [tally_of_apart apart, List.map_map]
    exact congrArg Score.sum (List.map_congr_left fun m hm => by simp [counted, copies, same m hm])
  · have counts : ∀ entry ∈ tally members,
        value (counted entry) = .sum (List.replicate entry.2 (value entry.1)) := by
      intro entry he
      have mem := fst_mem_of_mem_tally he
      rw [counted, value_copies sums (kept_of_legible (legible _ mem)).isEmpty
        (pos_of_mem_tally he), same _ mem]
    -- what is counted, listed one by one, are the members in another order
    have groups : ((tally members).map fun entry =>
        List.replicate entry.2 (value entry.1)).flatten = (listed (tally members)).map value := by
      simp [listed, List.flatMap, List.map_flatten, Function.comp_def]
    have perm := (tally_perm members).map value
    have steady' := steady.perm perm.symm
    rw [← groups] at steady'
    rw [steady.sum_perm perm.symm, ← groups, ← steady'.sum_flatten, List.map_map]
    exact congrArg Score.sum (List.map_congr_left counts)

/-- A bound of a sum is kept by regrouping it, if that of each member is. A sum
of copies of one die is read as it stands. -/
theorem value_regrouped_pool (legible : (pool members).Every Legible)
    (same : ∀ m ∈ members, value m.regrouped = value m)
    (settled : Apart members ∨ Steady (members.map value)) :
    value (pool members).regrouped = value (pool members) := by
  cases mixed : uniform members with
  | true => rw [regrouped_uniform legible mixed]
  | false =>
    rw [regrouped_mixed legible mixed]
    exact value_pool_counted sums (Every.pool_iff.1 legible).2 same settled

/-- A bound of a sum is the same in every order of its members just where the
members' bounds are steady. -/
theorem value_pool_perm_iff :
    (∀ others, members.Perm others → value (pool others) = value (pool members)) ↔
      Steady (members.map value) := by
  simp only [sums]
  rw [steady_iff]
  refine ⟨fun same scores perm => ?_, fun same others perm => same _ (perm.map value)⟩
  -- scores in another order are those of the members in another order
  have each : List.Forall₂ (fun score m => score = value m) (members.map value) members := by
    rw [List.forall₂_map_left_iff, List.forall₂_same]
    exact fun _ _ => rfl
  obtain ⟨others, moved, perm'⟩ := List.perm_comp_forall₂ perm.symm each
  obtain rfl : scores = others.map value := by
    rwa [← List.forall₂_eq_eq_eq, List.forall₂_map_right_iff]
  exact same others perm'.symm

end Sums

/-- **The bounds of a sum are the same in every order of its members just where
both are steady.** So moving summands, as reading a written sum again does, is
harmless for every order of them only in such a sum. -/
theorem bounds_pool_perm_iff :
    (∀ others, members.Perm others → (pool others).bounds = (pool members).bounds) ↔
      Steady (members.map minimum) ∧ Steady (members.map maximum) := by
  rw [← value_pool_perm_iff minimum_pool, ← value_pool_perm_iff maximum_pool]
  refine ⟨fun same => ⟨fun others perm => ?_, fun others perm => ?_⟩, fun same others perm => ?_⟩
  · exact congrArg Bounds.low (same others perm)
  · exact congrArg Bounds.high (same others perm)
  · exact congrArg₂ Bounds.mk (same.1 others perm) (same.2 others perm)

/-- **Regrouping keeps both bounds where every sum is settled.** -/
theorem bounds_regrouped (legible : e.Every Legible) (settled : e.Every Settled) :
    e.regrouped.bounds = e.bounds := by
  induction e using ind with
  | die d => rw [regrouped_die]
  | pool members ih =>
    obtain ⟨self, settled⟩ := Every.pool_iff.1 settled
    have each := (Every.pool_iff.1 legible).2
    have same := fun m hm => ih m hm (each m hm) (settled m hm)
    -- each end of a pool is a sum of its own, and is settled by itself
    have low : (pool members).regrouped.minimum = (pool members).minimum :=
      value_regrouped_pool minimum_pool legible (fun m hm => congrArg Bounds.low (same m hm))
        (self.imp_right And.left)
    have high : (pool members).regrouped.maximum = (pool members).maximum :=
      value_regrouped_pool maximum_pool legible (fun m hm => congrArg Bounds.high (same m hm))
        (self.imp_right And.right)
    exact congrArg₂ Bounds.mk low high
  | arithmetic inner op operand ih =>
    have same := ih (Every.arithmetic_iff.1 legible).2 (Every.arithmetic_iff.1 settled).2
    rw [regrouped_arithmetic, bounds, bounds, same]
  | selection members rule threshold ih =>
    have each := (Every.selection_iff.1 legible).2
    have same := fun m hm => ih m hm (each m hm) ((Every.selection_iff.1 settled).2 m hm)
    rw [regrouped_selection, bounds_selection, bounds_selection, List.map_map,
      List.map_congr_left (f := bounds ∘ regrouped) same]
  | explosion members c threshold ih =>
    have each := (Every.explosion_iff.1 legible).2
    have same := fun m hm => ih m hm (each m hm) ((Every.explosion_iff.1 settled).2 m hm)
    rw [regrouped_explosion, bounds_explosion, bounds_explosion, List.map_map,
      List.map_congr_left (f := bounds ∘ regrouped) same]

/-- A member is endless if it is so regrouped: the test looks at its bounds
only. -/
theorem endless_regrouped (legible : e.Every Legible) (settled : e.Every Settled) (c : Comparator)
    (threshold : Option Score) : endless c threshold e.regrouped = endless c threshold e := by
  rw [endless, bounds_regrouped legible settled, endless]

/-- Where every sum is settled, no explosion is refused for its regrouped
members that was accepted for the members themselves. -/
theorem stopping_of_settled (legible : e.Every Legible) (checked : e.Every Checked)
    (settled : e.Every Settled) : e.Every Stopping := by
  have nodes := Every.and_iff.2 ⟨legible.deep, settled.deep⟩
  refine checked.imp₂ nodes fun node self inside => ?_
  cases node with
  | explosion members c threshold =>
    intro m hm
    have legible := (Every.explosion_iff.1 inside.1).2 m hm
    have settled := (Every.explosion_iff.1 inside.2).2 m hm
    have ends : endless c threshold m = false := (self rfl : Accepted _) m hm
    rw [endless_regrouped legible settled, ends]
  | _ => trivial

end Expr

namespace Notation

open Dice.Expr

variable {text : Text} {first second : Expr}

/-- Where every sum is settled, only the limits of depth and number keep a text
from being read: no explosion becomes endless by being read again. -/
theorem parse_text_of_settled (some : text.blank = false) (ok : parse text = .ok first)
    (settled : first.Every Settled) : (∃ second, parse first.text = .ok second) ↔
      first.text.nesting ≤ nestingLimit ∧ first.Every Countable := by
  have legible := legible_of_parse some ok
  have checked := checked_of_parse some ok
  rw [exists_parse_text_iff legible checked,
    and_iff_left (stopping_of_settled legible checked settled)]

/-- **Reading a notation, writing it and reading it again keeps the bounds where
every sum is settled.** Nothing is asked of the modifiers around the sums. -/
theorem bounds_of_reparse (some : text.blank = false) (ok : parse text = .ok first)
    (again : parse first.text = .ok second) (settled : first.Every Settled) :
    second.minimum = first.minimum ∧ second.maximum = first.maximum := by
  have legible := legible_of_parse some ok
  have same := bounds_regrouped legible settled
  rw [eq_regrouped_of_parse legible again, minimum, maximum, same]
  exact ⟨rfl, rfl⟩

/-- A sum that is cut at the greatest score, but has nothing negative to bring
it back. The exploding die has no greatest value. -/
def capped : Expr :=
  .pool [.die .sixSided, .explosion [.die .sixSided] .equals none, .die .sixSided]

/-- Two equal dice are moved together across the exploding one, and the bounds
stay. -/
theorem bounds_of_reparse_capped :
    Text.blank "d6+d6!+d6".toList = false ∧ parse "d6+d6!+d6".toList = .ok capped ∧
      parse capped.text = .ok capped.regrouped ∧ capped.Every Settled ∧
      capped.regrouped.minimum = capped.minimum ∧ capped.regrouped.maximum = capped.maximum := by
  have some : Text.blank "d6+d6!+d6".toList = false := by decide +kernel
  have ok : parse "d6+d6!+d6".toList = .ok capped := by decide +kernel
  have again : parse capped.text = .ok capped.regrouped := by decide +kernel
  have settled : capped.Every Settled :=
    .pool _ (.inr ⟨by decide +kernel, by decide +kernel⟩) (by simp [Settled])
  exact ⟨some, ok, again, settled, bounds_of_reparse some ok again settled⟩

/-- The greatest value of the sum is the greatest score only as long as a die
comes after the negative one. Read again, the dice come before it. -/
theorem not_bounds_of_reparse_unsteady :
    Text.blank "d6+d6!+d[-3,-1]+d6".toList = false ∧
      parse "d6+d6!+d[-3,-1]+d6".toList = .ok unsteady ∧
      unsteady.text = "2D6+D6!+D[-3,-1]".toList ∧
      parse unsteady.text = .ok unsteady.regrouped ∧
      unsteady.maximum = 9223372036854775807 ∧
      unsteady.regrouped.maximum = 9223372036854775806 := by
  refine ⟨?_, ?_, ?_, ?_, ?_, ?_⟩ <;> decide +kernel

end Notation

end Dice
