import Mathlib.Data.List.Forall2
import Dice.Proofs.Expr.Regrouped

/-!
# Expressions up to the order and nesting of sums

`spliced` puts the summands of a pool inside a pool into the outer one, and
`Permuted` lets the summands of a pool change places. Nothing else may differ:
a selection or an explosion keeps its members in their order, with its rule or
comparator and its threshold, and arithmetic its operator and its constant.

Two expressions are `Alike` if they are permuted once both are spliced. That
is what writing an expression and reading it again may do to it. Equal dice of
a sum are counted at the place of the first of them, so summands move; and
what is counted is read as a pool inside the sum.

A sum is compared by its list of summands. An expression that is no pool is
one summand, and a pool is its members, so each member of a sum stands for a
list and the sum for those lists one after the other. `PermutedSummands` is
the relation on such lists. It holds of two lists of lists if it holds
pairwise (`PermutedSummands.flatMap`), and that is how the induction goes up
through a sum: first the entries of the tally are listed one by one, which
only permutes, and then each member is regrouped on its own.

Main statement: `alike_regrouped`, regrouping changes no more than that.
-/

namespace Dice.Expr

variable {members : List Expr} {e a b : Expr}

mutual

/-- An expression with the pools inside pools taken apart. Pools under a
selection or an explosion stay, since the members themselves matter there. -/
def spliced : Expr → Expr
  | die d => die d
  | pool members => pool ((splicedMembers members).flatMap Expr.members)
  | arithmetic inner op operand => arithmetic (spliced inner) op operand
  | selection members rule threshold => selection (splicedMembers members) rule threshold
  | explosion members c threshold => explosion (splicedMembers members) c threshold

/-- Each member with the pools inside pools taken apart. -/
def splicedMembers : List Expr → List Expr
  | [] => []
  | m :: rest => spliced m :: splicedMembers rest

end

/-- The members are spliced one by one. -/
@[simp] theorem splicedMembers_eq (members : List Expr) :
    splicedMembers members = members.map spliced := by
  induction members with
  | nil => rfl
  | cons m rest ih => simp [splicedMembers, ih]

/-- Whether two expressions differ only in the order of summands, of the
outermost sum and of all sums inside. -/
inductive Permuted : Expr → Expr → Prop
  | die (d : Die) : Permuted (.die d) (.die d)
  | pool {as bs cs : List Expr} (order : as.Perm bs) (each : List.Forall₂ Permuted bs cs) :
    Permuted (.pool as) (.pool cs)
  | arithmetic {a b : Expr} (op : Operator) (operand : UInt32) (inside : Permuted a b) :
    Permuted (.arithmetic a op operand) (.arithmetic b op operand)
  | selection {as bs : List Expr} (rule : Selection) (threshold : Nat)
    (each : List.Forall₂ Permuted as bs) :
    Permuted (.selection as rule threshold) (.selection bs rule threshold)
  | explosion {as bs : List Expr} (c : Comparator) (threshold : Option Score)
    (each : List.Forall₂ Permuted as bs) :
    Permuted (.explosion as c threshold) (.explosion bs c threshold)

/-- Whether two expressions differ only in the order and the nesting of
summands. -/
def Alike (a b : Expr) : Prop := Permuted a.spliced b.spliced

/-- Every expression is permuted to itself, with no summand moved. The induction
goes through all members. -/
theorem Permuted.refl (e : Expr) : Permuted e e := by
  induction e using ind with
  | die d => exact .die d
  | pool members ih => exact .pool (.refl members) (List.forall₂_same.2 ih)
  | arithmetic inner op operand ih => exact .arithmetic op operand ih
  | selection members rule threshold ih => exact .selection rule threshold (List.forall₂_same.2 ih)
  | explosion members c threshold ih => exact .explosion c threshold (List.forall₂_same.2 ih)

/-! ## Summands -/

/-- Whether two lists of summands differ only in order, also inside of them: the
first is put in order, and then each summand is permuted on its own. -/
def PermutedSummands (as cs : List Expr) : Prop :=
  ∃ bs, as.Perm bs ∧ List.Forall₂ Permuted bs cs

/-- Permuted expressions have permuted summands. One that is no pool has itself
as the only summand. -/
theorem Permuted.summands (h : Permuted a b) : PermutedSummands a.members b.members := by
  cases h with
  | pool order each => exact ⟨_, order, each⟩
  | die d => exact ⟨_, .refl _, .cons (.die d) .nil⟩
  | arithmetic op operand inside => exact ⟨_, .refl _, .cons (.arithmetic op operand inside) .nil⟩
  | selection rule threshold each =>
    exact ⟨_, .refl _, .cons (.selection rule threshold each) .nil⟩
  | explosion c threshold each => exact ⟨_, .refl _, .cons (.explosion c threshold each) .nil⟩

/-- Lists of summands that are permuted pairwise are permuted when they are put
one behind the other. -/
theorem PermutedSummands.flatMap {f g : Expr → List Expr}
    (each : ∀ m ∈ members, PermutedSummands (f m) (g m)) :
    PermutedSummands (members.flatMap f) (members.flatMap g) := by
  induction members with
  | nil => exact ⟨[], .refl _, .nil⟩
  | cons m rest ih =>
    obtain ⟨as, order, pairs⟩ := each m (by simp)
    obtain ⟨bs, order', pairs'⟩ := ih fun x hx => each x (by simp [hx])
    simp only [List.flatMap_cons]
    exact ⟨as ++ bs, order.append order', List.rel_append pairs pairs'⟩

theorem forall₂_spliced (each : ∀ m ∈ members, Alike m.regrouped m) :
    List.Forall₂ Permuted ((members.map regrouped).map spliced) (members.map spliced) := by
  rw [List.map_map, List.forall₂_map_left_iff, List.forall₂_map_right_iff]
  exact List.forall₂_same.2 each

/-! ## Regrouping -/

/-- The summands of the pool that is read for an entry are the members it
counts. Splicing takes that pool apart again. -/
theorem members_counted {entry : Expr × Nat} (mem : entry ∈ tally members) :
    (counted entry).spliced.members =
      (List.replicate entry.2 entry.1).flatMap fun m => m.regrouped.spliced.members := by
  by_cases one : entry.2 = 1
  · simp [counted, copies, one]
  · obtain ⟨d, count, rfl⟩ := exists_die_of_several mem one
    rw [counted, regrouped_die, copies_several (e := .die d) rfl]
    simp [spliced, Expr.members, List.flatMap_replicate]

/-- A sum of different members is alike when it is regrouped, if its members
are. -/
theorem alike_mixed (legible : (pool members).Every Legible) (mixed : uniform members = false)
    (each : ∀ m ∈ members, Alike m.regrouped m) :
    Alike (pool members).regrouped (pool members) := by
  -- gathering the dice moves summands, and only then is each of them regrouped on its own
  have entries : ((tally members).map counted).flatMap (fun m => m.spliced.members) =
      (listed (tally members)).flatMap fun m => m.regrouped.spliced.members := by
    rw [listed, List.flatMap_assoc, List.flatMap_map]
    exact List.flatMap_congr fun entry he => members_counted he
  obtain ⟨bs, order, pairs⟩ := PermutedSummands.flatMap fun m hm => (each m hm).summands
  rw [Alike, regrouped_mixed legible mixed]
  simp only [spliced, splicedMembers_eq, List.flatMap_map] at entries ⊢
  rw [entries]
  exact .pool (((tally_perm members).flatMap_right _).trans order) pairs

/-- **Regrouping changes only the order and the nesting of summands.** The
members of selections and explosions keep their places. -/
theorem alike_regrouped (legible : e.Every Legible) : Alike e.regrouped e := by
  induction e using ind with
  | die d =>
    rw [regrouped_die]
    exact .refl _
  -- only in a pool can summands move, and splicing opens the pools that were made
  | pool members ih =>
    have each := (Every.pool_iff.1 legible).2
    cases mixed : uniform members with
    | true =>
      rw [regrouped_uniform legible mixed]
      exact .refl _
    | false => exact alike_mixed legible mixed fun m hm => ih m hm (each m hm)
  | arithmetic inner op operand ih =>
    have inside := ih (Every.arithmetic_iff.1 legible).2
    simpa [Alike, spliced] using Permuted.arithmetic op operand inside
  | selection members rule threshold ih =>
    have each := (Every.selection_iff.1 legible).2
    have pairs := forall₂_spliced fun m hm => ih m hm (each m hm)
    simpa [Alike, spliced] using Permuted.selection rule threshold pairs
  | explosion members c threshold ih =>
    have each := (Every.explosion_iff.1 legible).2
    have pairs := forall₂_spliced fun m hm => ih m hm (each m hm)
    simpa [Alike, spliced] using Permuted.explosion c threshold pairs

end Dice.Expr
