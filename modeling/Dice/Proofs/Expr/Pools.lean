import Dice.Proofs.Notation.Checked
import Dice.Proofs.Postorder

/-!
# The pools of an expression

A pool stands in an expression as a node of its own, or under a selection or
an explosion. However an expression came about, no pool in it holds an empty
pool, and none holds nothing but another pool: a sum leaves the first out and
takes the second apart, and what a selection or an explosion holds are the
members of such a sum, or a single expression that is no pool. Adding the
members of a pool up once more therefore gives the same pool.

A notation can say less than the constructors can make. There is no way to
write an empty pool but to write nothing, and a pool that stands on its own
comes from a quantity or from a plus sign, so it has two members at least.

That pools are normal is shown to be `Established`: it holds of what each
constructor makes if it holds of what it is made of. That covers expressions
that were built and expressions that were read at once, since a reader builds
with the same constructors. The rest about notations is known of everything
that was read, as it is legible.

Main statement: `normal_pools`.
-/

namespace Dice

open Notation

namespace Expr

variable {e made : Expr} {members summands : List Expr}

/-- The members of the pool that a node is, or that it holds. Dice and
arithmetic hold none. -/
def held? : Expr → Option (List Expr)
  | pool members => some members
  | selection members _ _ => some members
  | explosion members _ _ => some members
  | _ => none

/-- The members of each pool in an expression, those of pools under selections
and explosions as well. -/
def pools (e : Expr) : List (List Expr) := e.nodes.filterMap held?

/-- What holds of all pools holds of the one at each node, if there is one. The
left side is what is to be shown; the right side is what inductions give. -/
theorem forall_pools_iff {p : List Expr → Prop} :
    (∀ members ∈ e.pools, p members) ↔ e.Every fun node => ∀ members ∈ node.held?, p members := by
  rw [every_iff_forall_nodes]
  simp only [pools, List.mem_filterMap, forall_exists_index, and_imp, Option.mem_def]
  exact ⟨fun h node mem members held => h members node mem held,
    fun h members node mem held => h node mem members held⟩

/-! ## Pools that are made -/

/-- Whether the pool at a node, if there is one, is normal. -/
def HoldsNormal (e : Expr) : Prop := ∀ members ∈ e.held?, Normal members

/-- The members of a normal pool are normal, and so is an expression that is no
pool alone. -/
theorem normal_members (every : e.Every HoldsNormal) : Normal e.members := by
  cases every with
  | pool members self _ => exact self members rfl
  | _ => simp [Normal, Expr.members, isEmpty]

/-- Whatever a constructor makes of normal pools has normal pools: sums make
them so, and the others take them over. -/
theorem established_holdsNormal : Established HoldsNormal where
  die _ := by simp [HoldsNormal, held?]
  sum {summands} each := by
    rintro _ ⟨⟩
    exact normal_sumMembers fun ms mem => (Every.pool_iff.1 (each _ mem)).1 ms rfl
  apply _ ok := by
    obtain ⟨rfl, -⟩ := accepted_apply ok
    simp [HoldsNormal, held?]
  select every ok := by
    obtain ⟨rfl, -⟩ := accepted_select ok
    rintro _ ⟨⟩
    exact normal_members every
  explode every ok := by
    obtain ⟨rfl, -⟩ := accepted_explode ok
    rintro _ ⟨⟩
    exact normal_members every

/-! ## Pools that are read -/

/-- Nothing that can be written has a pool without members anywhere inside. -/
theorem ne_nil_of_mem_pools (legible : e.Every Legible) : ∀ members ∈ e.pools, members ≠ [] := by
  refine forall_pools_iff.2 (legible.imp₂ legible fun node self _ members held => ?_)
  cases node with
  | pool inner =>
    cases held
    exact ne_nil_of_legible self
  | selection inner rule threshold =>
    cases held
    exact self.1.1
  | explosion inner c threshold =>
    cases held
    exact self.1.1
  | _ => cases held

/-- Only a blank notation stands for the empty pool: what any other one stands
for can be written, and the empty pool cannot. -/
theorem eq_pool_nil_iff {text : Text} (ok : parse text = .ok e) :
    e = pool [] ↔ text.blank = true := by
  cases some : text.blank with
  | true =>
    rw [parse, compile_blank some] at ok
    cases ok
    simp
  | false =>
    have legible := isEmpty_of_legible (legible_of_parse some ok)
    simp only [Bool.false_eq_true, iff_false]
    rintro rfl
    cases legible

/-- **Pools are in normal form.** In every expression that can be had no pool
holds an empty one or is a pool around a single pool, so adding its members up
gives the pool again. A notation stands for the empty pool exactly if it is
blank; in what any other stands for there is no empty pool, and the pools that
are no part of a selection or an explosion have several members. -/
theorem normal_pools (e : Expr) :
    (e.Obtained → ∀ members ∈ e.pools,
      (∀ m ∈ members, m ≠ pool []) ∧ (∀ inner, members ≠ [pool inner]) ∧
        sum members = pool members) ∧
    ∀ text, parse text = .ok e →
      (e = pool [] ↔ text.blank = true) ∧
      (text.blank = false → (∀ members ∈ e.pools, members ≠ []) ∧
        ∀ members, pool members ∈ e.nodes → 2 ≤ members.length) := by
  refine ⟨fun obtained => ?_, fun text ok => ⟨eq_pool_nil_iff ok, fun some => ?_⟩⟩
  · refine forall_pools_iff.2 ?_
    have every := established_holdsNormal.every obtained
    refine every.imp₂ every fun node self _ members held => ?_
    -- the first part says that nothing is left out, the other two that nothing is taken apart
    have normal : Normal members := self members held
    refine ⟨?_, normal.2, by rw [sum, sumMembers_of_normal normal]⟩
    intro m mem empty
    have solid := normal.1 m mem
    rw [empty] at solid
    cases solid
  · have legible := legible_of_parse some ok
    exact ⟨ne_nil_of_mem_pools legible, fun members mem => every_iff_forall_nodes.1 legible _ mem⟩

/-- The higher of two dice, from a sum of nothing, a single die and a pair. -/
def collapsed : Expr := .selection [.die .sixSided, .die .sixSided] .keepHighest 1

theorem built_collapsed : collapsed.Built := by
  have die : Built (.die .sixSided) := .die _ trivial
  have pair : Built (sum [sum [], (Expr.die .sixSided).copies 2]) :=
    .sum _ (by simpa using ⟨.sum [] (by simp), die.copies 2⟩)
  have higher : (sum [sum [], (Expr.die .sixSided).copies 2]).select .keepHighest 1 =
      .ok collapsed := by decide +kernel
  exact .select pair higher

/-- A pool in a pool under a selection that is no pool, in a pool. -/
def nestedPools : Expr :=
  .pool [.selection [.pool [.die .sixSided, .die .sixSided], .die .fudge] .keepHighest 1,
    .die .percentile]

/-- The pair of the first expression is one pool, and the parentheses of the
second leave no pool of one member behind. -/
theorem normal_pools_nested :
    (collapsed.Obtained ∧ ∀ members ∈ collapsed.pools, sum members = pool members) ∧
    parse " ((2d6)+dF)kh + ((d%))".toList = .ok nestedPools ∧
    Text.blank " ((2d6)+dF)kh + ((d%))".toList = false ∧
    nestedPools.pools.map List.length = [2, 2, 2] ∧
    ∀ members, pool members ∈ nestedPools.nodes → 2 ≤ members.length := by
  have obtained : collapsed.Obtained := .inl built_collapsed
  have read : parse " ((2d6)+dF)kh + ((d%))".toList = .ok nestedPools := by decide +kernel
  have solid : Text.blank " ((2d6)+dF)kh + ((d%))".toList = false := by decide +kernel
  refine ⟨⟨obtained, fun members mem => ?_⟩, read, solid, by decide +kernel, ?_⟩
  · exact ((normal_pools collapsed).1 obtained members mem).2.2
  · exact (((normal_pools nestedPools).2 _ read).2 solid).2

end Expr

end Dice
