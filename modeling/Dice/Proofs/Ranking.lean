import Mathlib.Data.List.Sigma
import Dice.Proofs.Explosion
import Dice.Proofs.Selection

/-!
# Selection by rank

Scores are ranked by value and equal ones by place. Core's merge sort compares
values only; that it leaves equal ones as they stand (`filter_ranking`) makes
the ranking one of both (`pairwise_ranking`).

A selection cuts the ranking at one border and keeps what is on one side of
it. So two of the rules share each border and keep opposite parts, and
everything else about places follows from two facts on parts: what is below a
border precedes what is above it, and each score is on one side only.

The places that a selection keeps are in ascending order, and a part of a
ranking has each of its places once. Put back in order, a part is therefore
the list of all scores with places, filtered by a test for the part
(`inPlace_part`). With the test being that a place is kept, or that it is not,
this gives what a selection keeps and what it drops, in the order in which the
results stand.

`ByRank` says what it means for places to be chosen by rank without a word
about sorting: how many there are, and that each score at a chosen place is on
the right side of each score at another place.

Main statements: `total_selected_mono`, by which raised results count for no
less, and `selection_by_rank`.
-/

namespace Dice

namespace Selection

variable {rule other : Selection} {threshold rank : Nat} {scores : List Score} {above : Bool}
  {x y : Score × Nat} {i j : Nat}

/-! ## Places -/

theorem pairwise_zipIdx (scores : List Score) : scores.zipIdx.Pairwise (·.2 < ·.2) := by
  rw [← List.pairwise_map, List.zipIdx_map_snd]
  exact List.pairwise_lt_range'

theorem eq_of_snd_eq (mem : x ∈ scores.zipIdx) (mem' : y ∈ scores.zipIdx) (same : x.2 = y.2) :
    x = y := List.inj_on_of_nodup_map (List.nodup_zipIdx_map_snd scores) mem mem' same

theorem mk_mem_zipIdx (inside : i < scores.length) : (scores[i], i) ∈ scores.zipIdx :=
  List.mk_mem_zipIdx_iff_getElem?.2 (List.getElem?_eq_getElem inside)

/-! ## The order of ranks -/

/-- Whether one score with its place ranks below another one: it is less, or it
is equal and stands before it. -/
def Precedes (x y : Score × Nat) : Prop := x.1 < y.1 ∨ x.1 = y.1 ∧ x.2 < y.2

theorem not_precedes_self (x : Score × Nat) : ¬ Precedes x x := by
  intro precedes
  rcases precedes with less | ⟨-, less⟩
  · exact lt_irrefl _ less
  · exact lt_irrefl _ less

/-- The comparison that the ranking sorts by is transitive, in the form in which
the lemmas on merge sort ask for it. -/
theorem compare_trans (x y z : Score × Nat) :
    decide (id x.1 ≤ id y.1) → decide (id y.1 ≤ id z.1) → decide (id x.1 ≤ id z.1) := by
  simpa using le_trans

theorem compare_total (x y : Score × Nat) :
    (decide (id x.1 ≤ id y.1) || decide (id y.1 ≤ id x.1)) = true := by
  simpa using le_total x.1 y.1

/-- Equal scores are ranked in the order in which they stand. This is stability
of merge sort, and the one thing that has to be known of it. -/
theorem filter_ranking (scores : List Score) (a : Score) :
    (ranking id scores).filter (·.1 = a) = scores.zipIdx.filter (·.1 = a) := by
  have ordered : (scores.zipIdx.filter (·.1 = a)).Pairwise
      fun x y => decide (id x.1 ≤ id y.1) = true := by
    refine List.pairwise_iff_forall_sublist.2 fun {x y} pair => ?_
    have same : ∀ z ∈ [x, y], decide (z.1 = a) = true := fun z mem =>
      (List.mem_filter.1 (pair.subset mem)).2
    have first := same x (by simp)
    have second := same y (by simp)
    simp only [decide_eq_true_eq, id_eq] at first second ⊢
    rw [first, second]
  -- what is in order already stays so, and there are no more of these scores than before
  have inside := (List.sublist_mergeSort compare_trans compare_total ordered
    List.filter_sublist).filter (·.1 = a)
  rw [List.filter_filter] at inside
  simp only [Bool.and_self] at inside
  exact (inside.eq_of_length ((ranking_perm id scores).symm.filter _).length_eq).symm

/-- **A ranking is in the order of ranks.** Of two scores the first one is less,
or they are equal, and then they stand in this order among their equals. -/
theorem pairwise_ranking (scores : List Score) : (ranking id scores).Pairwise Precedes := by
  refine List.pairwise_iff_forall_sublist.2 fun {x y} pair => ?_
  have ascending := List.pairwise_mergeSort compare_trans compare_total scores.zipIdx
  have le : x.1 ≤ y.1 := by simpa using List.pairwise_iff_forall_sublist.1 ascending pair
  rcases lt_or_eq_of_le le with less | same
  · exact .inl less
  -- equal scores are ranked as they stand in the list, so the two of them stand there in this order
  · have equal := pair.filter (·.1 = x.1)
    rw [filter_ranking] at equal
    simp only [List.filter_cons, same, decide_true, if_true, List.filter_nil] at equal
    exact .inr ⟨same, List.pairwise_iff_forall_sublist.1 (pairwise_zipIdx scores)
      (equal.trans List.filter_sublist)⟩

/-! ## The parts of a ranking -/

/-- The part of a ranking above some rank, or below it. The parts on the two
sides of a rank differ by the flag only, so what is said of one is said of both.
-/
def part (above : Bool) (rank : Nat) (scores : List Score) : List (Score × Nat) :=
  if above then (ranking id scores).drop rank else (ranking id scores).take rank

/-- The two parts at a rank together are all the scores with their places. None
is in both. -/
theorem part_append_perm (above : Bool) (rank : Nat) (scores : List Score) :
    (part above rank scores ++ part (!above) rank scores).Perm scores.zipIdx := by
  have whole := (List.take_append_drop rank (ranking id scores)).symm ▸ ranking_perm id scores
  cases above with
  | false => exact whole
  | true => exact List.perm_append_comm.trans whole

theorem mem_zipIdx_of_mem_part (mem : x ∈ part above rank scores) : x ∈ scores.zipIdx :=
  (part_append_perm above rank scores).subset (List.mem_append_left _ mem)

/-- What is below a rank precedes what is above it. Of equal scores the one at
the lower place does. -/
theorem precedes_of_mem_part (low : x ∈ part false rank scores)
    (high : y ∈ part true rank scores) : Precedes x y := by
  have ordered := pairwise_ranking scores
  rw [← List.take_append_drop rank (ranking id scores), List.pairwise_append] at ordered
  exact ordered.2.2 x low y high

/-- Every score with its place is in one part of a ranking and not in the other:
in both it would precede itself. -/
theorem mem_part_iff (mem : x ∈ scores.zipIdx) :
    x ∈ part above rank scores ↔ x ∉ part (!above) rank scores := by
  have either : x ∈ part above rank scores ∨ x ∈ part (!above) rank scores :=
    List.mem_append.1 ((part_append_perm above rank scores).mem_iff.2 mem)
  constructor
  · intro inside outside
    cases above with
    | false => exact not_precedes_self x (precedes_of_mem_part inside outside)
    | true => exact not_precedes_self x (precedes_of_mem_part outside inside)
  · exact either.resolve_right

/-- Put back into their first order, the scores of a part are those that a test
for it leaves. -/
theorem inPlace_part {test : Score × Nat → Bool}
    (own : ∀ x ∈ part above rank scores, test x = true)
    (others : ∀ x ∈ part (!above) rank scores, test x = false) :
    inPlace (part above rank scores) = scores.zipIdx.filter test := by
  have perm : (inPlace (part above rank scores)).Perm (scores.zipIdx.filter test) := by
    have kept := (part_append_perm above rank scores).filter test
    rw [List.filter_append, List.filter_eq_self.2 own,
      List.filter_eq_nil_iff.2 fun x mem => by simp [others x mem], List.append_nil] at kept
    exact (List.mergeSort_perm _ _).trans kept
  have ordered : (inPlace (part above rank scores)).Pairwise
      fun x y => decide (x.2 ≤ y.2) = true :=
    List.pairwise_mergeSort (by simpa using fun _ _ _ => Nat.le_trans)
      (by simpa using fun _ _ => Nat.le_total _ _) _
  have ordered' := ((pairwise_zipIdx scores).filter test).imp Nat.le_of_lt
  -- no two scores have the same place, so there is one order of places only
  refine perm.eq_of_pairwise (fun x y mem mem' le le' => ?_) (by simpa using ordered) ordered'
  exact eq_of_snd_eq (List.mem_filter.1 (perm.subset mem)).1 (List.mem_filter.1 mem').1
    (Nat.le_antisymm le le')

/-! ## What is kept and what is dropped -/

/-- Whether a selection keeps what ranks highest. Dropping the lowest results is
keeping the highest of them. -/
def upper : Selection → Bool
  | keepHighest | dropLowest => true
  | keepLowest | dropHighest => false

/-- How many of `count` results rank below the border between what a selection
keeps and what it drops. -/
def border (rule : Selection) (count threshold : Nat) : Nat :=
  match rule with
  | keepHighest | dropHighest => count - min threshold count
  | keepLowest | dropLowest => min threshold count

/-- A selection keeps the part of the ranking on its own side of its border. All
four rules are one from here on. -/
theorem keptPlaces_eq (rule : Selection) (threshold : Nat) (scores : List Score) :
    rule.keptPlaces threshold id scores =
      inPlace (part rule.upper (rule.border scores.length threshold) scores) := by
  have whole : (ranking id scores).length ≤ scores.length := (length_ranking id scores).le
  cases rule <;> simp [keptPlaces, stretch, part, upper, border, List.take_of_length_le whole]

/-- A selection drops the part of the ranking on the other side of its border. -/
theorem dropped_eq (rule : Selection) (threshold : Nat) (scores : List Score) :
    rule.dropped threshold id scores =
      (inPlace (part (!rule.upper) (rule.border scores.length threshold) scores)).map (·.1) := by
  have whole : (ranking id scores).length ≤ scores.length := (length_ranking id scores).le
  cases rule <;> simp [dropped, stretch, part, upper, border, List.drop_of_length_le whole]

/-- A place is kept if the score at it is in the part that is kept. Places tell
equal scores apart. -/
theorem snd_mem_places_iff (mem : x ∈ scores.zipIdx) :
    x.2 ∈ rule.places threshold scores ↔
      x ∈ part rule.upper (rule.border scores.length threshold) scores := by
  rw [places, keptPlaces_eq, List.mem_map]
  constructor
  · intro kept
    obtain ⟨y, inside, same⟩ := kept
    have inside := List.mem_mergeSort.1 inside
    rwa [← eq_of_snd_eq (mem_zipIdx_of_mem_part inside) mem same]
  · exact fun inside => ⟨x, List.mem_mergeSort.2 inside, rfl⟩

/-- A place is not kept if the score at it is in the other part. -/
theorem snd_notMem_places_iff (mem : x ∈ scores.zipIdx) :
    x.2 ∉ rule.places threshold scores ↔
      x ∈ part (!rule.upper) (rule.border scores.length threshold) scores := by
  rw [snd_mem_places_iff mem, mem_part_iff mem, not_not]

/-- The scores at the places with some property, in their order. Kept and
dropped scores are both of this form. -/
def scoresAt (scores : List Score) (p : Nat → Prop) [DecidablePred p] : List Score :=
  (scores.zipIdx.filter (p ·.2)).map (·.1)

/-- What is kept, with places, are the results at the kept places, in their
order. -/
theorem keptPlaces_eq_filter (rule : Selection) (threshold : Nat) (scores : List Score) :
    rule.keptPlaces threshold id scores =
      scores.zipIdx.filter (·.2 ∈ rule.places threshold scores) := by
  rw [keptPlaces_eq]
  refine inPlace_part (fun x mem => ?_) fun x mem => ?_
  · exact decide_eq_true ((snd_mem_places_iff (mem_zipIdx_of_mem_part mem)).2 mem)
  · exact decide_eq_false ((snd_notMem_places_iff (mem_zipIdx_of_mem_part mem)).2 mem)

theorem kept_eq_scoresAt (rule : Selection) (threshold : Nat) (scores : List Score) :
    rule.kept threshold id scores = scoresAt scores (· ∈ rule.places threshold scores) := by
  rw [kept, keptPlaces_eq_filter, scoresAt]

theorem dropped_eq_scoresAt (rule : Selection) (threshold : Nat) (scores : List Score) :
    rule.dropped threshold id scores = scoresAt scores (· ∉ rule.places threshold scores) := by
  rw [dropped_eq, scoresAt]
  refine congrArg (List.map (·.1)) (inPlace_part (fun x mem => ?_) fun x mem => ?_)
  · exact decide_eq_true ((snd_notMem_places_iff (mem_zipIdx_of_mem_part mem)).2 mem)
  · rw [Bool.not_not] at mem
    exact decide_eq_false (not_not.2 ((snd_mem_places_iff (mem_zipIdx_of_mem_part mem)).2 mem))

/-! ## The scores at the kept places -/

/-- A place that is kept is one of the list. -/
theorem lt_length_of_mem_places (mem : i ∈ rule.places threshold scores) : i < scores.length := by
  rw [places, keptPlaces_eq_filter, List.mem_map] at mem
  obtain ⟨x, inside, rfl⟩ := mem
  exact List.snd_lt_of_mem_zipIdx (List.mem_filter.1 inside).1

/-- The scores that a selection finds at the places that it keeps. -/
def selected (rule : Selection) (threshold : Nat) (scores : List Score) : List Score :=
  (rule.places threshold scores).pmap (fun i inside => scores.get ⟨i, inside⟩) fun _ =>
    lt_length_of_mem_places

/-- Looking the scores up at the kept places gives what is kept. So it does not
matter whether scores or places are remembered. -/
theorem selected_eq_kept (rule : Selection) (threshold : Nat) (scores : List Score) :
    rule.selected threshold scores = rule.kept threshold id scores := by
  have found : ∀ x ∈ rule.keptPlaces threshold id scores, ∀ inside : x.2 < scores.length,
      scores.get ⟨x.2, inside⟩ = x.1 := by
    intro x mem inside
    rw [keptPlaces_eq_filter] at mem
    have here := List.mk_mem_zipIdx_iff_getElem?.1 (List.mem_filter.1 mem).1
    rw [List.getElem?_eq_getElem inside] at here
    exact Option.some.inj here
  refine List.ext_getElem (by simp [selected, kept, places]) fun k _ _ => ?_
  simp only [selected, kept, places, List.getElem_pmap, List.getElem_map]
  exact found _ (List.getElem_mem _) _

/-- **Raised results count for no less.** However the kept places change, the
scores at them do not lose in their exact sum. -/
theorem total_selected_mono (rule : Selection) (threshold : Nat) {as bs : List Score}
    (raised : List.Forall₂ (· ≤ ·) as bs) :
    Score.total (rule.selected threshold as) ≤ Score.total (rule.selected threshold bs) := by
  rw [selected_eq_kept, selected_eq_kept]
  exact total_kept_mono rule threshold raised

/-- Raising the last score brings it among those that count, in place of the
first one, so the two sums have no place but one in common. -/
theorem total_selected_mono_overtaken :
    List.Forall₂ (· ≤ ·) [3, 5, 1] [4, 5, (9 : Score)] ∧
    keepHighest.places 2 [3, 5, 1] = [0, 1] ∧ keepHighest.places 2 [4, 5, 9] = [1, 2] ∧
    Score.total (keepHighest.selected 2 [3, 5, 1]) ≤
      Score.total (keepHighest.selected 2 [4, 5, 9]) := by
  have raised : List.Forall₂ (· ≤ ·) [3, 5, 1] [4, 5, (9 : Score)] := by decide
  have before : keepHighest.places 2 [3, 5, 1] = [0, 1] := by
    simp +decide [places, keptPlaces, ranking, inPlace, stretch, List.mergeSort,
      List.MergeSort.Internal.splitInTwo]
  have after : keepHighest.places 2 [4, 5, 9] = [1, 2] := by
    simp +decide [places, keptPlaces, ranking, inPlace, stretch, List.mergeSort,
      List.MergeSort.Internal.splitInTwo]
  exact ⟨raised, before, after, total_selected_mono keepHighest 2 raised⟩

/-! ## Places by rank -/

/-- How many of `count` results a selection keeps. -/
def keptCount (rule : Selection) (count threshold : Nat) : Nat :=
  match rule with
  | keepHighest | keepLowest => min threshold count
  | dropHighest | dropLowest => count - min threshold count

/-- Whether the score at one place ranks below the one at another place. Equal
scores rank in the order of their places. -/
def RanksBelow (scores : List Score) (i j : Nat) : Prop :=
  ∃ a b, scores[i]? = some a ∧ scores[j]? = some b ∧ Precedes (a, i) (b, j)

/-- Whether places are those that a selection by rank keeps: as many as the rule
says, in ascending order, and each on the right side of all that are left out. -/
structure ByRank (rule : Selection) (threshold : Nat) (scores : List Score) (places : List Nat) :
    Prop where
  ascending : places.Pairwise (· < ·)
  within : ∀ i ∈ places, i < scores.length
  count : places.length = rule.keptCount scores.length threshold
  apart : ∀ i ∈ places, ∀ j < scores.length, j ∉ places →
    match rule with
    | keepHighest | dropLowest => RanksBelow scores j i
    | keepLowest | dropHighest => RanksBelow scores i j

theorem pairwise_places (rule : Selection) (threshold : Nat) (scores : List Score) :
    (rule.places threshold scores).Pairwise (· < ·) := by
  rw [places, keptPlaces_eq_filter, List.pairwise_map]
  exact (pairwise_zipIdx scores).filter _

/-- What is below a rank ranks below what is above it, said of places. -/
theorem ranksBelow_of_mem_part {a b : Score} (low : (a, i) ∈ part false rank scores)
    (high : (b, j) ∈ part true rank scores) : RanksBelow scores i j :=
  ⟨a, b, List.mk_mem_zipIdx_iff_getElem?.1 (mem_zipIdx_of_mem_part low),
    List.mk_mem_zipIdx_iff_getElem?.1 (mem_zipIdx_of_mem_part high), precedes_of_mem_part low high⟩

/-- The places that a selection keeps are chosen by rank. How many there are is
the length of the stretch, and the sides are those of the border. -/
theorem byRank_places (rule : Selection) (threshold : Nat) (scores : List Score) :
    ByRank rule threshold scores (rule.places threshold scores) := by
  refine ⟨pairwise_places rule threshold scores, fun i => lt_length_of_mem_places, ?_, ?_⟩
  · rw [places, List.length_map, length_keptPlaces]
    cases rule <;> simp only [stretch, keptCount] <;> omega
  · intro i mem j inside out
    have kept := (snd_mem_places_iff (mk_mem_zipIdx (lt_length_of_mem_places mem))).1 mem
    have left := (snd_notMem_places_iff (mk_mem_zipIdx inside)).1 out
    cases rule with
    | keepHighest => exact ranksBelow_of_mem_part left kept
    | dropLowest => exact ranksBelow_of_mem_part left kept
    | keepLowest => exact ranksBelow_of_mem_part kept left
    | dropHighest => exact ranksBelow_of_mem_part kept left

/-- Rules with the same border that keep opposite parts share every place out
between them: a place is kept by one of them and not by the other. -/
theorem mem_places_iff_notMem
    (same : rule.border scores.length threshold = other.border scores.length threshold)
    (opposite : other.upper = !rule.upper) (inside : i < scores.length) :
    i ∈ rule.places threshold scores ↔ i ∉ other.places threshold scores := by
  rw [snd_mem_places_iff (mk_mem_zipIdx inside), snd_notMem_places_iff (mk_mem_zipIdx inside),
    same, opposite, Bool.not_not]

end Selection

/-! ## Evaluations -/

namespace Outcome

theorem listing_eq (tosses : List Toss) :
    listing tosses = Text.join [',', ' '] ((tosses.map (·.value)).map Score.text) := by
  rw [List.map_map]
  rfl

/-- The toss of a selection has both lists as details. The one set last is not
overwritten, and does not overwrite the first. -/
theorem detail?_ofSelection (rule : Selection) (threshold : Nat) (tosses : List Toss)
    (text : Text) (method : Method) :
    ((ofSelection rule threshold tosses).toss text method).detail? "kept" =
      some (listing (rule.kept threshold Toss.value tosses)) ∧
    ((ofSelection rule threshold tosses).toss text method).detail? "dropped" =
      some (listing (rule.dropped threshold Toss.value tosses)) :=
  ⟨(Context.get?_insert_of_ne _ (by decide) _).trans (Context.get?_insert_self _ _ _),
    Context.get?_insert_self _ _ _⟩

end Outcome

namespace Expr

open Selection

variable {σ : Type} {source : Source σ} {patience : Nat} {method : Method} {members : List Expr}
  {rule : Selection} {threshold : Nat} {run final : Run σ} {toss : Toss}

/-- Whether a toss is that of a selection from results with the given values: it
lists those at the kept places and those at the other ones, and adds up the
former. -/
structure Splits (rule : Selection) (threshold : Nat) (values : List Score) (toss : Toss) :
    Prop where
  kept : toss.detail? "kept" = some (Text.join [',', ' ']
    ((scoresAt values (· ∈ rule.places threshold values)).map Score.text))
  dropped : toss.detail? "dropped" = some (Text.join [',', ' ']
    ((scoresAt values (· ∉ rule.places threshold values)).map Score.text))
  value : toss.value = .sum (scoresAt values (· ∈ rule.places threshold values))

/-- The toss of a selection splits the values of the tosses by the places that
the rule keeps of them. -/
theorem splits_toss (rule : Selection) (threshold : Nat) (tosses : List Toss) (text : Text)
    (method : Method) : Splits rule threshold (tosses.map (·.value))
      ((Outcome.ofSelection rule threshold tosses).toss text method) := by
  obtain ⟨kept, dropped⟩ := Outcome.detail?_ofSelection rule threshold tosses text method
  have keeps := map_kept rule threshold id Toss.value tosses
  have drops := map_dropped rule threshold id Toss.value tosses
  rw [kept_eq_scoresAt] at keeps
  rw [dropped_eq_scoresAt] at drops
  refine ⟨?_, ?_, ?_⟩
  · rw [kept, Outcome.listing_eq, ← keeps]
    rfl
  · rw [dropped, Outcome.listing_eq, ← drops]
    rfl
  · rw [← keeps]
    rfl

/-- An evaluation of a selection evaluates the members and splits their values.
The toss tells which of them were kept. -/
theorem exists_splits
    (evaluated : (selection members rule threshold).evaluate source patience method run =
      some (toss, final)) :
    ∃ tosses mid, evaluateMembers source patience method members [] run = some (tosses, mid) ∧
      final = mid.record toss ∧ Splits rule threshold (tosses.map (·.value)) toss := by
  rw [evaluate] at evaluated
  split at evaluated
  next => cases evaluated
  next tosses mid inside =>
    cases evaluated
    exact ⟨tosses, mid, inside, rfl, splits_toss rule threshold tosses _ method⟩

/-- **A selection splits results by rank and loses none.** What it keeps of any
scores is on one side of what it drops, by value and then by place; keeping and
dropping the highest ones, or the lowest ones, are complementary. Every
evaluation lists what was kept and what was dropped of the members' values, and
gives the sum of the former. -/
theorem selection_by_rank (threshold : Nat) :
    (∀ rule scores, ByRank rule threshold scores (rule.places threshold scores)) ∧
    (∀ scores i, i < scores.length →
      (i ∈ keepHighest.places threshold scores ↔ i ∉ dropHighest.places threshold scores) ∧
      (i ∈ keepLowest.places threshold scores ↔ i ∉ dropLowest.places threshold scores)) ∧
    ∀ {σ : Type} (source : Source σ) (patience : Nat) (method : Method) (members : List Expr)
      (rule : Selection) (run final : Run σ) (toss : Toss),
      (selection members rule threshold).evaluate source patience method run =
        some (toss, final) →
      ∃ tosses mid, evaluateMembers source patience method members [] run = some (tosses, mid) ∧
        final = mid.record toss ∧ Splits rule threshold (tosses.map (·.value)) toss :=
  ⟨fun rule scores => byRank_places rule threshold scores,
    fun _ _ inside => ⟨mem_places_iff_notMem rfl rfl inside, mem_places_iff_notMem rfl rfl inside⟩,
    fun _ _ _ _ _ _ _ _ => exists_splits⟩

/-- Four dice of the same kind. -/
def fudges : List Expr := List.replicate 4 (.die .fudge)

/-- Of three equal results the first one is dropped, with the least one. It
ranks lowest among the equal ones. -/
theorem selection_by_rank_fudges : ∃ toss final,
    (selection fudges .keepHighest 2).evaluate .answers 0 .roll (.start [1, 1, 1, 0]) =
      some (toss, final) ∧
    ByRank .keepHighest 2 [1, 1, 1, 0] [1, 2] ∧
    (0 ∈ keepHighest.places 2 [1, 1, 1, 0] ↔ 0 ∉ dropHighest.places 2 [1, 1, 1, 0]) ∧
    Splits .keepHighest 2 [1, 1, 1, 0] toss ∧
    toss.value = 2 ∧ toss.detail? "kept" = some "1, 1".toList ∧
    toss.detail? "dropped" = some "1, 0".toList := by
  have places : keepHighest.places 2 [1, 1, 1, 0] = [1, 2] := by
    simp +decide [places, keptPlaces, ranking, inPlace, stretch, List.mergeSort,
      List.MergeSort.Internal.splitInTwo]
  have shown : (evaluateMembers .answers 0 .roll fudges [] (.start [1, 1, 1, 0])).map
      (fun ended => ended.1.map (·.value)) = some [1, 1, 1, 0] := by decide +kernel
  obtain ⟨⟨tosses, mid⟩, inside, values⟩ := Option.map_eq_some_iff.1 shown
  have evaluated : (selection fudges .keepHighest 2).evaluate .answers 0 .roll
      (.start [1, 1, 1, 0]) = some ((selection fudges .keepHighest 2).conclude .roll
        (.ofSelection .keepHighest 2 tosses) mid) := by rw [evaluate, inside]
  obtain ⟨ranked, shared, split⟩ := selection_by_rank 2
  -- the evaluation of the members that the theorem speaks of is the one above
  obtain ⟨_, _, inside', -, splits⟩ := split _ _ _ _ _ _ _ _ evaluated
  cases inside.symm.trans inside'
  rw [values] at splits
  have byRank := ranked keepHighest [1, 1, 1, 0]
  have kept := splits.kept
  have dropped := splits.dropped
  have value := splits.value
  rw [places] at byRank kept dropped value
  exact ⟨_, _, evaluated, byRank, (shared _ 0 (by decide)).1, splits, value, kept, dropped⟩

end Expr

end Dice
