import Mathlib.Algebra.BigOperators.Group.List.Basic
import Mathlib.Algebra.Ring.Int.Defs
import Mathlib.Data.List.Sort
import Dice.Proofs.Score.Order
import Dice.Selection

/-!
# What a selection counts

A selection counts a stretch of the ranking. Which items that is may change
when results are raised, so nothing can be compared place by place; but the
scores of the stretch, in ascending order, only rise (`sort_mono`), and so
does their exact sum.

The proof has two halves. The first one is about ascending order alone.
Inserting a raised score into a raised list gives a raised list, so sorting
raises the least score, the second least, and so on, although the scores that
take these ranks may be others than before.

The second half brings selections there. Selecting commutes with mapping the
items (`map_kept`), so tosses may be replaced by their values. The ranking of
scores is their ascending order, as places take no part in comparisons, and
what is kept is a stretch of it up to a permutation (`kept_perm`). An exact
sum does not see the permutation.

Main statements: `map_kept`, the scores of the kept items are the kept scores,
and `total_kept_mono`, raising results does not lower the exact sum of those
that count.
-/

namespace Dice

/-- The exact sum of scores, which saturates nowhere and so does not depend on
their order. -/
def Score.total (scores : List Score) : Int := (scores.map (·.val)).sum

namespace Score

theorem total_perm {as bs : List Score} (h : as.Perm bs) : total as = total bs :=
  (h.map _).sum_eq

theorem total_mono {as bs : List Score} (h : List.Forall₂ (· ≤ ·) as bs) :
    total as ≤ total bs := by
  induction h with
  | nil => exact Int.le_refl _
  | cons head _ ih =>
    simp only [total, List.map_cons, List.sum_cons] at ih ⊢
    have := le_def.1 head
    omega

/-! ## Ascending order -/

/-- Scores in ascending order. Equal ones cannot be told apart, so any way to
sort gives the same list. -/
def sort (scores : List Score) : List Score := scores.insertionSort (· ≤ ·)

/-- A score that is below a sorted list is inserted in front of it. -/
theorem orderedInsert_of_pairwise {a : Score} {as : List Score}
    (sorted : (a :: as).Pairwise (· ≤ ·)) : as.orderedInsert (· ≤ ·) a = a :: as := by
  cases as with
  | nil => rfl
  | cons b rest =>
    exact List.orderedInsert_cons_of_le _ _ ((List.pairwise_cons.1 sorted).1 b (by simp))

/-- Inserting a raised score into raised scores gives raised scores. Where the
two are inserted at different places, the scores between the places move by one,
and are compared with their neighbours. -/
theorem orderedInsert_mono {as bs : List Score} (h : List.Forall₂ (· ≤ ·) as bs) :
    as.Pairwise (· ≤ ·) → bs.Pairwise (· ≤ ·) → ∀ {a b : Score}, a ≤ b →
      List.Forall₂ (· ≤ ·) (as.orderedInsert (· ≤ ·) a) (bs.orderedInsert (· ≤ ·) b) := by
  induction h with
  | nil => exact fun _ _ _ _ raised => .cons raised .nil
  | @cons x y as bs head tail ih =>
    intro sorted sorted' a b raised
    have ih := @ih (List.pairwise_cons.1 sorted).2 (List.pairwise_cons.1 sorted').2
    -- the first of a sorted list is where it would be inserted
    have front := orderedInsert_of_pairwise sorted
    have front' := orderedInsert_of_pairwise sorted'
    rw [List.orderedInsert_cons, List.orderedInsert_cons]
    split
    next before =>
      split
      next => exact .cons raised (.cons head tail)
      next after =>
        refine .cons (le_trans before head) ?_
        rw [← front]
        exact ih (le_trans head (le_of_not_ge after))
    next after =>
      split
      next before =>
        refine .cons (le_trans (le_of_not_ge after) raised) ?_
        rw [← front']
        exact ih (le_trans raised before)
      next => exact .cons head (ih raised)

/-- Raising scores raises the least of them, the second least, and so on. The
score that is raised may change its rank. -/
theorem sort_mono {as bs : List Score} (h : List.Forall₂ (· ≤ ·) as bs) :
    List.Forall₂ (· ≤ ·) (sort as) (sort bs) := by
  induction h with
  | nil => exact .nil
  | @cons a b as bs head tail ih =>
    exact orderedInsert_mono ih (List.pairwise_insertionSort _ as)
      (List.pairwise_insertionSort _ bs) head

end Score

/-! ## The stretch of a ranking -/

namespace Selection

variable {α β : Type}

/-- Items may be mapped before they are ranked, if they are ranked by the same
scores. -/
theorem map_ranking (score : β → Score) (f : α → β) (items : List α) :
    (ranking (score ∘ f) items).map (Prod.map f id) = ranking score (items.map f) := by
  have placed : (items.map f).zipIdx = items.zipIdx.map (Prod.map f id) := List.zipIdx_map
  unfold ranking
  rw [placed]
  exact List.map_mergeSort fun _ _ _ _ => rfl

theorem map_inPlace (f : α → β) (items : List (α × Nat)) :
    (inPlace items).map (Prod.map f id) = inPlace (items.map (Prod.map f id)) :=
  List.map_mergeSort fun _ _ _ _ => rfl

/-- What is kept of mapped items comes from the items that are kept. So tosses
are kept by what would be kept of their values. -/
theorem map_kept (rule : Selection) (threshold : Nat) (score : β → Score) (f : α → β)
    (items : List α) :
    (rule.kept threshold (score ∘ f) items).map f = rule.kept threshold score (items.map f) := by
  have places : ((ranking (score ∘ f) items).map (Prod.map f id)) =
      ranking score (items.map f) := map_ranking score f items
  simp only [kept, keptPlaces, List.length_map, ← places]
  rw [← List.map_take, ← List.map_drop, ← map_inPlace, List.map_map, List.map_map]
  rfl

/-- What is dropped of mapped items comes from the items that are dropped. Ranks
go by the scores alone. -/
theorem map_dropped (rule : Selection) (threshold : Nat) (score : β → Score) (f : α → β)
    (items : List α) : (rule.dropped threshold (score ∘ f) items).map f =
      rule.dropped threshold score (items.map f) := by
  have places : ((ranking (score ∘ f) items).map (Prod.map f id)) =
      ranking score (items.map f) := map_ranking score f items
  simp only [dropped, List.length_map, ← places]
  rw [← List.map_take, ← List.map_drop, ← List.map_append, ← map_inPlace, List.map_map,
    List.map_map]
  rfl

/-- A ranking holds the scores in ascending order, whatever it does with equal
ones. -/
theorem map_fst_ranking (scores : List Score) :
    (ranking id scores).map (·.1) = Score.sort scores := by
  -- places take no part in the comparison, so dropping them first changes nothing
  have sorted : (ranking id scores).map (·.1) = (scores.zipIdx.map (·.1)).mergeSort (· ≤ ·) :=
    List.map_mergeSort fun _ _ _ _ => rfl
  rw [sorted, List.zipIdx_map_fst]
  exact List.mergeSort_eq_insertionSort _ scores

/-- What is kept is a stretch of the scores in ascending order, as far as its
sum is concerned: the order of places is a permutation of it. -/
theorem kept_perm (rule : Selection) (threshold : Nat) (scores : List Score) :
    (rule.kept threshold id scores).Perm
      (((Score.sort scores).take (rule.stretch scores.length threshold).2).drop
        (rule.stretch scores.length threshold).1) := by
  rw [← map_fst_ranking, ← List.map_take, ← List.map_drop]
  exact (List.mergeSort_perm _ _).map _

/-- **Raising results does not lower the exact sum of those that count.** The
stretch begins and ends at the same ranks, and the scores at those ranks have
only risen. -/
theorem total_kept_mono (rule : Selection) (threshold : Nat) {as bs : List Score}
    (h : List.Forall₂ (· ≤ ·) as bs) :
    Score.total (rule.kept threshold id as) ≤ Score.total (rule.kept threshold id bs) := by
  rw [Score.total_perm (kept_perm rule threshold as),
    Score.total_perm (kept_perm rule threshold bs), h.length_eq]
  exact Score.total_mono (List.forall₂_drop _ (List.forall₂_take _ (Score.sort_mono h)))

end Selection

end Dice
