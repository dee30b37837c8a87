import Dice.BuildError

/-!
# Selections

A selection counts only the highest or the lowest of several results. The
results are ranked in ascending order, equal ones in the order in which they
stand, and a stretch of the ranking is kept; what is kept and what is dropped
are then put back into their first order.

The four rules differ in nothing but the stretch: from the start or to the end
of the ranking, with the threshold saying how many results are in the stretch
or out of it. A threshold past the number of results counts as that number, so
the stretch always lies within the ranking (`stretch_ordered`), although no
selection is built with such a threshold.

The items that are selected need not be scores. An evaluation ranks tosses by
their values and keeps the tosses themselves, since it has to show them;
bounds are found by ranking scores. Both are the same function with another
`score`, and places are carried along to put the items back in order.

Main statements: `kept_append_dropped_perm` says that a selection loses
nothing, and `length_keptPlaces` how many results it keeps.
-/

namespace Dice

/-- Which results of a pool count. A rule drops results from one end of the
ranking or keeps them, and names the end. -/
inductive Selection
  | dropHighest
  | dropLowest
  | keepHighest
  | keepLowest
deriving DecidableEq

namespace Selection

/-- The two letters a selection is written with. -/
def text : Selection → Text
  | dropHighest => ['D', 'H']
  | dropLowest => ['D', 'L']
  | keepHighest => ['K', 'H']
  | keepLowest => ['K', 'L']

/-- The selection with the given name, in letters of either case. Any other name
is an error, which repeats the name as it was given. -/
def ofName (name : Text) : Except BuildError Selection :=
  match name.map Char.toLower with
  | ['d', 'h'] => .ok dropHighest
  | ['d', 'l'] => .ok dropLowest
  | ['k', 'h'] => .ok keepHighest
  | ['k', 'l'] => .ok keepLowest
  | _ => .error (.unknownAlgorithm (String.ofList name))

/-- A selection rule is found under the letters that it is written with. -/
theorem ofName_text (rule : Selection) : ofName rule.text = .ok rule := by
  cases rule <;> rfl

/-- Where the kept stretch of a ranking of `count` results starts and ends. The
ranking is ascending, so the highest results are at its end; a threshold past
the count is taken for the count. -/
def stretch (rule : Selection) (count threshold : Nat) : Nat × Nat :=
  match rule with
  | dropHighest => (0, count - min threshold count)
  | dropLowest => (min threshold count, count)
  | keepHighest => (count - min threshold count, count)
  | keepLowest => (0, min threshold count)

/-- The stretch lies within the ranking, whatever the threshold is. -/
theorem stretch_ordered (rule : Selection) (count threshold : Nat) :
    (rule.stretch count threshold).1 ≤ (rule.stretch count threshold).2 ∧
      (rule.stretch count threshold).2 ≤ count := by
  cases rule <;> simp only [stretch] <;> omega

/-- The items with their places, in ascending order of their scores; equal
scores stay in the order of their places. -/
def ranking {α : Type} (score : α → Score) (items : List α) : List (α × Nat) :=
  items.zipIdx.mergeSort fun a b => score a.1 ≤ score b.1

/-- Items with places, in the order of the places. The kept stretch of a ranking
is put back into the order in which its dice were rolled. -/
def inPlace {α : Type} (items : List (α × Nat)) : List (α × Nat) :=
  items.mergeSort fun a b => a.2 ≤ b.2

/-- The items a selection keeps, with their places: the stretch of the ranking,
put back into the first order. -/
def keptPlaces {α : Type} (rule : Selection) (threshold : Nat) (score : α → Score)
    (items : List α) : List (α × Nat) :=
  let (start, stop) := rule.stretch items.length threshold
  inPlace (((ranking score items).take stop).drop start)

/-- The items a selection keeps, in their first order. -/
def kept {α : Type} (rule : Selection) (threshold : Nat) (score : α → Score)
    (items : List α) : List α :=
  (rule.keptPlaces threshold score items).map (·.1)

/-- The items a selection drops, in their first order: what lies before the kept
stretch of the ranking and what lies after it. -/
def dropped {α : Type} (rule : Selection) (threshold : Nat) (score : α → Score)
    (items : List α) : List α :=
  let (start, stop) := rule.stretch items.length threshold
  let ranked := ranking score items
  (inPlace (ranked.take start ++ ranked.drop stop)).map (·.1)

/-- The places of the scores that a selection keeps, ascending. -/
def places (rule : Selection) (threshold : Nat) (scores : List Score) : List Nat :=
  (rule.keptPlaces threshold id scores).map (·.2)

/-! ## What a selection keeps -/

/-- Ranking moves the items and their places and loses none of them. Nothing
else about the sort is needed to count what is kept. -/
theorem ranking_perm {α : Type} (score : α → Score) (items : List α) :
    (ranking score items).Perm items.zipIdx := List.mergeSort_perm _ _

/-- The ranking is as long as the list of items. -/
@[simp] theorem length_ranking {α : Type} (score : α → Score) (items : List α) :
    (ranking score items).length = items.length := by
  rw [(ranking_perm score items).length_eq, List.length_zipIdx]

/-- As many items are kept as the stretch has places. -/
theorem length_keptPlaces {α : Type} (rule : Selection) (threshold : Nat) (score : α → Score)
    (items : List α) :
    (rule.keptPlaces threshold score items).length =
      (rule.stretch items.length threshold).2 - (rule.stretch items.length threshold).1 := by
  have h := (rule.stretch_ordered items.length threshold).2
  simp only [keptPlaces, inPlace, List.length_mergeSort, List.length_drop, List.length_take,
    length_ranking]
  omega

/-- Kept and dropped items together are all the items: the ranking is cut in two
places, and each part is only put back in order. -/
theorem kept_append_dropped_perm {α : Type} (rule : Selection) (threshold : Nat)
    (score : α → Score) (items : List α) :
    (rule.kept threshold score items ++ rule.dropped threshold score items).Perm items := by
  have order := rule.stretch_ordered items.length threshold
  have back : ((ranking score items).map (·.1)).Perm items := by
    have h := (ranking_perm score items).map (fun item : α × Nat => item.1)
    rwa [List.zipIdx_map_fst] at h
  refine List.Perm.trans ?_ back
  simp only [kept, dropped, keptPlaces, ← List.map_append]
  refine List.Perm.map _ ?_
  refine ((List.mergeSort_perm _ _).append (List.mergeSort_perm _ _)).trans ?_
  -- the outer parts of the ranking were dropped, so they have to change places with the inner one
  generalize ranking score items = ranked
  generalize rule.stretch items.length threshold = ends at order
  obtain ⟨start, stop⟩ := ends
  simp only at order
  have front : ranked.take start ++ (ranked.take stop).drop start = ranked.take stop := by
    conv => rhs; rw [← List.take_append_drop start (ranked.take stop)]
    rw [List.take_take, Nat.min_eq_left order.1]
  refine (List.perm_append_comm).trans ?_
  rw [List.append_assoc]
  refine (List.Perm.append_left _ List.perm_append_comm).trans ?_
  rw [← List.append_assoc, front, List.take_append_drop]

end Selection

end Dice
