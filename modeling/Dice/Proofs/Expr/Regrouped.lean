import Dice.Notation.Compile
import Dice.Proofs.Expr.Legible

/-!
# Counted dice as pools of their own

The text of a pool counts equal dice, and the number of dice that is read
there is a pool of its own. So the text of an expression stands for another
expression, `regrouped`: in each pool the equal dice are moved to the first of
them and into an inner pool. The members of a pool under a selection or an
explosion stay where they are.

The definition regroups the members first and counts then. To see that this
counts the same as counting the members themselves, regrouping has to leave
dice dice and nothing else one (`Kept`), which it does for every expression
that the notation can express.

A regrouped pool has nothing more to count: an entry that was counted several
times is a pool now. So it is its own tally (`tally_counted`), and is written
with the entries of the old one.

Main statements: `regrouped_mixed` and `text_regrouped`, the regrouped
expression is written in the same way.
-/

namespace Dice.Expr

open Notation

variable {members : List Expr} {e : Expr} {entry : Expr × Nat}

mutual

/-- The expression that the text of an expression stands for. Nothing is taken
apart again when a text is read, so the counted dice stay a pool of their own. -/
def regrouped : Expr → Expr
  | die d => die d
  | pool members =>
    combine ((tally (regroupedMembers members)).map fun entry => entry.1.copies entry.2)
  | arithmetic inner op operand => arithmetic (regrouped inner) op operand
  | selection members rule threshold => selection (regroupedMembers members) rule threshold
  | explosion members c threshold => explosion (regroupedMembers members) c threshold

/-- Each member regrouped. It is defined along with `regrouped`, as a list of
trees is gone through there. -/
def regroupedMembers : List Expr → List Expr
  | [] => []
  | m :: rest => regrouped m :: regroupedMembers rest

end

/-- Regrouping the members is a map over them. -/
@[simp] theorem regroupedMembers_eq (members : List Expr) :
    regroupedMembers members = members.map regrouped := by
  induction members with
  | nil => rfl
  | cons m rest ih => simp [regroupedMembers, ih]

@[simp] theorem regrouped_die (d : Die) : (die d).regrouped = die d := by simp [regrouped]

@[simp] theorem regrouped_arithmetic (inner : Expr) (op : Operator) (operand : UInt32) :
    (arithmetic inner op operand).regrouped = arithmetic inner.regrouped op operand := by
  simp [regrouped]

@[simp] theorem regrouped_selection (rule : Selection) (threshold : Nat) :
    (selection members rule threshold).regrouped =
      selection (members.map regrouped) rule threshold := by
  simp [regrouped]

@[simp] theorem regrouped_explosion (c : Comparator) (threshold : Option Score) :
    (explosion members c threshold).regrouped =
      explosion (members.map regrouped) c threshold := by
  simp [regrouped]

/-! ## Pools -/

/-- Several expressions that are not empty are the members of their sum. None is
left out, and none is opened. -/
theorem combine_several {summands : List Expr} (several : 2 ≤ summands.length)
    (some : ∀ m ∈ summands, m.isEmpty = false) : combine summands = pool summands := by
  have normal : Normal summands := ⟨some, by rintro inner rfl; simp at several⟩
  cases summands with
  | nil => simp at several
  | cons m rest =>
    cases rest with
    | nil => simp at several
    | cons next rest => rw [combine, sum, sumMembers_of_normal normal]; simp

/-- Copies of something that is not empty make a normal pool, if there are at
least two of them. -/
theorem normal_replicate (some : e.isEmpty = false) (count : Nat) :
    Normal (List.replicate (count + 2) e) := by
  refine ⟨fun m hm => ?_, fun inner single => ?_⟩
  · rwa [List.eq_of_mem_replicate hm]
  · simpa using congrArg List.length single

/-- Several copies of an expression are a pool of them, while one copy is the
expression itself. -/
theorem copies_several (some : e.isEmpty = false) (count : Nat) :
    e.copies (count + 2) = pool (List.replicate (count + 2) e) := by
  rw [copies, if_neg (by omega), sum, sumMembers_of_normal (normal_replicate some count)]

/-- Copies of one die are counted as that, and stay what they are. They are
written as one summand and read as one. -/
theorem regrouped_replicate (d : Die) (count : Nat) :
    (pool (List.replicate (count + 2) (die d))).regrouped =
      pool (List.replicate (count + 2) (die d)) := by
  simp only [regrouped, regroupedMembers_eq, List.map_replicate, tally_replicate,
    List.map_singleton, combine, copies_several (e := die d) rfl]

/-- An entry of a tally as the summand that is read for it. It is a pool if the
entry is counted more than once. -/
def counted (entry : Expr × Nat) : Expr := entry.1.regrouped.copies entry.2

/-- Whether regrouping leaves an expression a die or something else, and not
empty. -/
structure Kept (e : Expr) : Prop where
  die_iff : ∀ d, e.regrouped = die d ↔ e = die d
  isEmpty : e.regrouped.isEmpty = false

/-- Copies of something that is not empty are not empty. -/
theorem isEmpty_copies (some : e.isEmpty = false) (count : Nat) :
    (e.copies count).isEmpty = false := by
  unfold copies
  split
  next => exact some
  next several =>
    obtain ⟨rest, rfl⟩ : ∃ rest, count = rest + 2 := ⟨count - 2, by omega⟩
    rw [sum, sumMembers_of_normal (normal_replicate some rest)]
    rfl

/-- A pool is read as the sum of what its tally counts. It does not matter
whether the members are regrouped before they are counted or after. -/
theorem regrouped_pool (kept : ∀ m ∈ members, Kept m) :
    (pool members).regrouped = combine ((tally members).map counted) := by
  have entries := tally_map fun m hm => (kept m hm).die_iff
  simp only [regrouped, regroupedMembers_eq, entries, mapEntries, List.map_map]
  rfl

theorem regrouped_of_kept (kept : ∀ m ∈ members, Kept m) (several : 2 ≤ members.length)
    (mixed : uniform members = false) :
    (pool members).regrouped = pool ((tally members).map counted) := by
  rw [regrouped_pool kept]
  refine combine_several (by simpa using two_le_length_tally several mixed)
    (List.forall_mem_map.2 fun entry he => ?_)
  exact isEmpty_copies (kept _ (fst_mem_of_mem_tally he)).isEmpty entry.2

/-- Regrouping keeps every expression that can be written. Pools are the only
ones that are rebuilt, and they become pools with members again. -/
theorem kept_of_legible (legible : e.Every Legible) : Kept e := by
  induction e using ind with
  | die d => exact ⟨by simp, by simp [isEmpty]⟩
  | pool members ih =>
    obtain ⟨several, each⟩ := Every.pool_iff.1 legible
    cases mixed : uniform members with
    | true =>
      obtain ⟨d, count, -, rfl⟩ := exists_replicate_of_pool legible mixed
      have same := regrouped_replicate d count
      exact ⟨by simp [same], by rw [same]; rfl⟩
    | false =>
      have same := regrouped_of_kept (fun m hm => ih m hm (each m hm)) several mixed
      have entries := two_le_length_tally several mixed
      refine ⟨by simp [same], ?_⟩
      rw [same]
      cases list : tally members with
      | nil => simp [list] at entries
      | cons entry rest => rfl
  | arithmetic inner op operand ih => exact ⟨by simp, by simp [isEmpty]⟩
  | selection members rule threshold ih => exact ⟨by simp, by simp [isEmpty]⟩
  | explosion members c threshold ih => exact ⟨by simp, by simp [isEmpty]⟩

/-- A pool of different members becomes the pool of what its tally counts.
Members keep the order in which their kinds first stand. -/
theorem regrouped_mixed (legible : (pool members).Every Legible)
    (mixed : uniform members = false) :
    (pool members).regrouped = pool ((tally members).map counted) := by
  obtain ⟨several, each⟩ := Every.pool_iff.1 legible
  exact regrouped_of_kept (fun m hm => kept_of_legible (each m hm)) several mixed

/-- A pool of one kind of dice stays as it is. This is why a lone entry of a
tally is not put in a pool of its own. -/
theorem regrouped_uniform (legible : (pool members).Every Legible)
    (same : uniform members = true) : (pool members).regrouped = pool members := by
  obtain ⟨d, count, -, rfl⟩ := exists_replicate_of_pool legible same
  exact regrouped_replicate d count

theorem map_regrouped_uniform (same : uniform members = true) :
    members.map regrouped = members := by
  obtain ⟨d, count, rfl⟩ := uniform_iff.1 same
  simp

/-- Regrouped members are copies of one die just where the members are. So a
modifier is written behind them in the same way. -/
theorem uniform_map_regrouped (each : ∀ m ∈ members, m.Every Legible) :
    uniform (members.map regrouped) = uniform members := by
  rw [Bool.eq_iff_iff]
  constructor
  · intro same
    obtain ⟨d, count, all⟩ := uniform_iff.1 same
    refine uniform_iff.2 ⟨d, count, ?_⟩
    obtain ⟨length, dice⟩ := List.eq_replicate_iff.1 all
    refine List.eq_replicate_iff.2 ⟨by simpa using length, fun m hm => ?_⟩
    exact ((kept_of_legible (each m hm)).die_iff d).1 (dice _ (List.mem_map_of_mem hm))
  · intro same
    rwa [map_regrouped_uniform same]

/-! ## Texts -/

/-- A pool stays a pool, whether its members are all the same die or not. A
modifier finds the members of a pool there. -/
theorem exists_pool_regrouped (legible : (pool members).Every Legible) :
    ∃ others, (pool members).regrouped = pool others := by
  cases mixed : uniform members with
  | true => exact ⟨_, regrouped_uniform legible mixed⟩
  | false => exact ⟨_, regrouped_mixed legible mixed⟩

/-- Whether an operand needs parentheses depends on its constructors alone, and
those stay. -/
theorem chained_regrouped (legible : e.Every Legible) : e.regrouped.chained = e.chained := by
  cases e with
  | pool members =>
    obtain ⟨others, same⟩ := exists_pool_regrouped legible
    rw [same]
    rfl
  | arithmetic inner op operand =>
    cases inner with
    | pool members =>
      obtain ⟨others, same⟩ := exists_pool_regrouped (Every.arithmetic_iff.1 legible).2
      simp [same, chained]
    | _ => simp [chained]
  | _ => simp [chained]

/-- An entry of a die is read as that die only if it is counted once. Otherwise
it is read as a pool of it. -/
theorem fst_of_counted (kept : Kept entry.1) {d : Die} (same : counted entry = die d) :
    entry.1 = die d := by
  unfold counted copies at same
  split at same
  next => exact (kept.die_iff d).1 same
  next => cases same

/-- In a regrouped pool everything is counted once. So regrouping it once more
changes nothing. -/
theorem tally_counted (legible : (pool members).Every Legible) :
    tally ((tally members).map counted) = ((tally members).map counted).map (·, 1) := by
  have kept : ∀ entry ∈ tally members, Kept entry.1 := fun entry he =>
    kept_of_legible ((Every.pool_iff.1 legible).2 _ (fst_mem_of_mem_tally he))
  -- what is counted several times is no bare die any more, and nothing is counted with it
  refine tally_of_apart (List.pairwise_map.2 ((apart_tally members).imp_of_mem ?_))
  intro a b ha hb apart isDie same
  obtain ⟨d, die⟩ := exists_die_of_isDie isDie
  have second := fst_of_counted (kept b hb) die
  have first := fst_of_counted (kept a ha) (same.trans die)
  exact apart (by rw [second]; rfl) (first.trans second.symm)

/-- What is read for an entry is written as the entry. If it is counted several
times it is a pool of copies of one die, which has no outer plus sign. -/
theorem grouped_counted (mem : entry ∈ tally members)
    (same : entry.1.regrouped.text = entry.1.text) :
    (counted entry).text.grouped = entryText entry := by
  by_cases one : entry.2 = 1
  · simp [counted, copies, entryText, one, same]
  · obtain ⟨d, count, rfl⟩ := exists_die_of_several mem one
    rw [counted, regrouped_die, copies_several (e := .die d) rfl, text_replicate,
      (uncut_diceText d _).grouped, entryText_die]

/-- The pool under a modifier keeps its text if its members keep theirs: they
are written one by one there, and nothing is moved. -/
theorem baseText_regrouped (each : ∀ m ∈ members, m.Every Legible) (some : members ≠ [])
    (same : ∀ m ∈ members, m.regrouped.text = m.text) :
    baseText (members.map regrouped) = baseText members := by
  cases mixed : uniform members with
  | true => rw [map_regrouped_uniform mixed]
  | false =>
    have mixed' : uniform (members.map regrouped) = false := by
      rw [uniform_map_regrouped each, mixed]
    rw [baseText_of_mixed mixed' (by simpa using some), baseText_of_mixed mixed some, List.map_map]
    refine congrArg (fun texts => (Text.join ['+'] texts).parenthesized)
      (List.map_congr_left fun m hm => ?_)
    rw [Function.comp_apply, same m hm]

/-- **The regrouped expression is written in the same way.** So writing what was
read from the text of an expression gives that text back. -/
theorem text_regrouped (legible : e.Every Legible) : e.regrouped.text = e.text := by
  induction e using ind with
  | die d => rw [regrouped_die]
  | pool members ih =>
    cases mixed : uniform members with
    | true => rw [regrouped_uniform legible mixed]
    -- regrouped members are counted once each, so there are as many entries as before
    | false =>
      obtain ⟨several, each⟩ := Every.pool_iff.1 legible
      have some := ne_nil_of_legible several
      rw [regrouped_mixed legible mixed, text_pool some,
        text_pool (by simpa using tally_ne_nil some), tally_counted legible, List.map_map,
        List.map_map]
      refine congrArg (Text.join ['+']) (List.map_congr_left fun entry he => ?_)
      have mem := fst_mem_of_mem_tally he
      exact grouped_counted he (ih _ mem (each _ mem))
  | arithmetic inner op operand ih =>
    have inside := (Every.arithmetic_iff.1 legible).2
    rw [regrouped_arithmetic, text_arithmetic_eq, text_arithmetic_eq, ih inside, operandText,
      chained_regrouped inside, operandText]
  | selection members rule threshold ih =>
    obtain ⟨⟨pooled, -⟩, each⟩ := Every.selection_iff.1 legible
    rw [regrouped_selection, text_selection, text_selection,
      baseText_regrouped each pooled.1 fun m hm => ih m hm (each m hm)]
  | explosion members c threshold ih =>
    obtain ⟨⟨pooled, -⟩, each⟩ := Every.explosion_iff.1 legible
    rw [regrouped_explosion, text_explosion, text_explosion,
      baseText_regrouped each pooled.1 fun m hm => ih m hm (each m hm)]

end Dice.Expr
