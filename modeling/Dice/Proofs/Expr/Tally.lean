import Dice.Expr.Build
import Dice.Proofs.DieText
import Dice.Proofs.Notation.Balanced

/-!
# Counting the dice of a pool

The written form of a pool counts its equal dice at the place of the first of
them. `tally` does that with the members themselves instead of their texts,
which comes to the same since dice with the same text are the same
(`Die.text_injective`).

The entries are collected last one first, as the writer of notation does, and
turned around at the end. What one step keeps is `Tallied`: no die has two
entries, and only dice are counted more than once. That the step also keeps
the members as often as they occur (`listed_tallyStep_perm`) needs the first
part of it, for a step counts in every entry of the die.

Two tallies are known outright: where no die is listed twice everything is
counted once (`tally_of_apart`), and copies of one die make a single entry
(`tally_replicate`). Everything else has at least two entries.

Main statements: `poolText_eq`, a pool is written as its tally, and
`tally_perm`, the tally has every member as often as the pool.
-/

namespace Dice

open Notation

namespace Expr

/-- A tally, last entry first, after one more member. A die that is counted
already is counted where it stands, and everything else gets an entry of its
own. -/
def tallyStep (entries : List (Expr × Nat)) (m : Expr) : List (Expr × Nat) :=
  if m.isDie && entries.any (fun entry => entry.1 = m) then
    entries.map fun entry => if entry.1 = m then (entry.1, entry.2 + 1) else entry
  else (m, 1) :: entries

/-- The members of a pool with how often they are counted; only dice are counted
more than once. -/
def tally (members : List Expr) : List (Expr × Nat) := (members.foldl tallyStep []).reverse

variable {members : List Expr} {m : Expr} {entry : Expr × Nat}

/-- An entry as it is written: the number in front, unless it is one, and the
member in parentheses if it has an outer plus sign. -/
def entryText (entry : Expr × Nat) : Text :=
  (if entry.2 = 1 then [] else Text.ofNat entry.2) ++ entry.1.text.grouped

/-- An entry as a summand of a written pool, which holds the text in place of
the member. -/
def entrySummand (entry : Expr × Nat) : Summand :=
  ⟨entry.1.text.grouped, entry.1.isDie, entry.2⟩

theorem written_entrySummand (entry : Expr × Nat) :
    (entrySummand entry).written = entryText entry := by
  unfold Summand.written entryText entrySummand
  dsimp only
  split <;> rfl

/-- What is recognised as a die is one. The function that tells looks at the
constructor alone. -/
theorem exists_die_of_isDie (h : m.isDie = true) : ∃ d, m = die d := by
  cases m <;> simp_all [isDie]

/-- The text of a die has no plus sign, so no parentheses are put around it.
Equal dice therefore have equal texts in a sum. -/
theorem grouped_die (d : Die) : d.text.grouped = d.text := by
  have whole : d.text.hasOuterPlus 0 = false :=
    Text.hasOuterPlus_of_forall_ne 0 fun c mem => (Die.of_mem_text mem).2.2.2
  rw [Text.grouped, whole]
  rfl

/-- Telling dice apart by their texts is telling them apart, since no two dice
have the same text. -/
theorem isDie_entrySummand (d : Die) (entry : Expr × Nat) :
    Summand.isDie (die d).text.grouped (entrySummand entry) = decide (entry.1 = die d) := by
  obtain ⟨e, count⟩ := entry
  cases e with
  | die other =>
    have same : other.text = d.text ↔ other = d := ⟨Die.text_injective, fun h => h ▸ rfl⟩
    have texts : (die d).text = d.text ∧ (die other).text = other.text := by simp [text]
    simp only [Summand.isDie, entrySummand, isDie, texts, grouped_die, Bool.true_and]
    rw [Bool.eq_iff_iff, beq_iff_eq, decide_eq_true_iff, same, die.injEq]
  | _ => simp [Summand.isDie, entrySummand, isDie]

/-- The writer's step on texts is the step on members: it finds the entry of a
die in the same places. -/
theorem addSummand_eq (entries : List (Expr × Nat)) (m : Expr) :
    addSummand (entries.map entrySummand) m.text.grouped m.isDie =
      (tallyStep entries m).map entrySummand := by
  unfold addSummand tallyStep
  cases isDie : m.isDie with
  | false => simp [entrySummand, isDie]
  | true =>
    obtain ⟨d, rfl⟩ := exists_die_of_isDie isDie
    have found : (entries.map entrySummand).any (Summand.isDie (die d).text.grouped) =
        entries.any fun entry => entry.1 = die d := by
      rw [List.any_map]
      exact congrArg entries.any (funext (isDie_entrySummand d))
    rw [found, Bool.true_and]
    split
    next =>
      rw [List.map_map, List.map_map]
      refine List.map_congr_left fun entry he => ?_
      simp only [Function.comp_apply, isDie_entrySummand d, decide_eq_true_eq]
      split <;> rfl
    next => rfl

/-- A step brings in no member but the one that is counted. It either raises a
count or adds an entry. -/
theorem fst_mem_tallyStep {entries : List (Expr × Nat)} {entry : Expr × Nat}
    (mem : entry ∈ tallyStep entries m) : entry.1 = m ∨ ∃ old ∈ entries, entry.1 = old.1 := by
  unfold tallyStep at mem
  split at mem
  next =>
    obtain ⟨old, ho, rfl⟩ := List.mem_map.1 mem
    exact .inr ⟨old, ho, by split <;> rfl⟩
  next =>
    rcases List.mem_cons.1 mem with rfl | mem
    · exact .inl rfl
    · exact .inr ⟨entry, mem, rfl⟩

/-- Going through the members with their texts is going through the members.
Texts tell dice apart just as well. -/
theorem foldl_addSummand (members : List Expr) (entries : List (Expr × Nat)) :
    (members.zip (members.map fun m => m.text.grouped)).foldl
        (fun sums (m, text) => addSummand sums text m.isDie) (entries.map entrySummand) =
      (members.foldl tallyStep entries).map entrySummand := by
  induction members generalizing entries with
  | nil => rfl
  | cons m rest ih =>
    simp only [List.map_cons, List.zip_cons_cons, List.foldl_cons, addSummand_eq]
    exact ih _

/-- **A pool is written as its tally.** Only the empty pool is not: it is
written as the number zero. -/
theorem poolText_eq (some : members ≠ []) :
    poolText members (members.map fun m => m.text.grouped) =
      Text.join ['+'] ((tally members).map entryText) := by
  have summands := foldl_addSummand members []
  unfold poolText
  split
  next => exact absurd rfl some
  next =>
    rw [List.map_nil] at summands
    simp only [summands]
    rw [← List.map_reverse, List.map_map]
    exact congrArg (Text.join ['+']) (List.map_congr_left fun entry _ => written_entrySummand entry)

/-! ## What a tally counts -/

/-- Entries are of members that were counted, or stood there before. -/
theorem fst_mem_foldl {entries : List (Expr × Nat)} {entry : Expr × Nat}
    (mem : entry ∈ members.foldl tallyStep entries) :
    entry.1 ∈ members ∨ ∃ old ∈ entries, entry.1 = old.1 := by
  induction members generalizing entries with
  | nil => exact .inr ⟨entry, mem, rfl⟩
  | cons m rest ih =>
    rcases ih mem with inside | ⟨old, ho, same⟩
    · exact .inl (by simp [inside])
    · rcases fst_mem_tallyStep ho with same' | ⟨older, ho, same'⟩
      · exact .inl (by simp [same, same'])
      · exact .inr ⟨older, ho, same.trans same'⟩

/-- Only members of the pool are counted. -/
theorem fst_mem_of_mem_tally {entry : Expr × Nat} (mem : entry ∈ tally members) :
    entry.1 ∈ members := by
  rcases fst_mem_foldl (List.mem_reverse.1 mem) with inside | ⟨old, ho, -⟩
  · exact inside
  · cases ho

/-- Entries in which no die is listed twice, and everything else is counted
once. -/
structure Tallied (entries : List (Expr × Nat)) : Prop where
  apart : entries.Pairwise fun a b => a.1.isDie = true → a.1 ≠ b.1
  single : ∀ entry ∈ entries, entry.1.isDie = false → entry.2 = 1
  pos : ∀ entry ∈ entries, 0 < entry.2

/-- A step keeps the entries tallied. If the die is known its count goes up, and
the members of the entries stay what they are; if not, the new entry is apart
from all others. -/
theorem tallied_tallyStep {entries : List (Expr × Nat)} (tallied : Tallied entries) :
    Tallied (tallyStep entries m) := by
  unfold tallyStep
  split
  -- the count of one entry is raised, which changes no member
  next known =>
    obtain ⟨isDie, -⟩ := Bool.and_eq_true_iff.1 known
    have fst : ∀ entry : Expr × Nat,
        (if entry.1 = m then (entry.1, entry.2 + 1) else entry).1 = entry.1 := by
      intro entry
      split <;> rfl
    refine ⟨List.pairwise_map.2 (tallied.apart.imp fun h => by simpa only [fst] using h),
      List.forall_mem_map.2 fun entry he other => ?_, List.forall_mem_map.2 fun entry he => ?_⟩
    · rw [fst] at other
      rw [if_neg (by rintro rfl; rw [other] at isDie; cases isDie)]
      exact tallied.single entry he other
    · have pos := tallied.pos entry he
      split
      next => exact Nat.succ_pos _
      next => exact pos
  -- a new entry is different from all others, as the search found none of them
  next unknown =>
    refine ⟨List.pairwise_cons.2 ⟨fun entry he isDie same => ?_, tallied.apart⟩,
      List.forall_mem_cons.2 ⟨fun _ => rfl, tallied.single⟩,
      List.forall_mem_cons.2 ⟨Nat.one_pos, tallied.pos⟩⟩
    refine unknown (Bool.and_eq_true_iff.2 ⟨isDie, List.any_eq_true.2 ⟨entry, he, ?_⟩⟩)
    simpa using same.symm

theorem tallied_nil : Tallied [] := ⟨.nil, by simp, by simp⟩

/-- The members that entries stand for, each as often as it is counted. It is
the pool that is read for them, without its nesting. -/
def listed (entries : List (Expr × Nat)) : List Expr :=
  entries.flatMap fun entry => List.replicate entry.2 entry.1

/-- Counting a known die once more adds one of its copies. Only one entry is
changed, as no die has two of them. -/
theorem listed_map_perm {entries : List (Expr × Nat)}
    (apart : entries.Pairwise fun a b => a.1.isDie = true → a.1 ≠ b.1)
    (isDie : m.isDie = true) (known : ∃ entry ∈ entries, entry.1 = m) :
    (listed (entries.map fun entry =>
      if entry.1 = m then (entry.1, entry.2 + 1) else entry)).Perm (m :: listed entries) := by
  induction entries with
  | nil => simp at known
  | cons entry rest ih =>
    obtain ⟨head, tail⟩ := List.pairwise_cons.1 apart
    by_cases same : entry.1 = m
    -- no later entry is of the same die
    · have others : (rest.map fun e => if e.1 = m then (e.1, e.2 + 1) else e) = rest :=
        (List.map_congr_left fun e he => by
          rw [if_neg fun same' => head e he (same ▸ isDie) (same.trans same'.symm)]; rfl).trans
          (List.map_id _)
      simp only [listed] at *
      rw [List.map_cons, if_pos same, others, List.flatMap_cons, List.flatMap_cons,
        List.replicate_succ, same]
      exact .refl _
    · have inside : ∃ e ∈ rest, e.1 = m := by
        obtain ⟨e, he, same'⟩ := known
        rcases List.mem_cons.1 he with rfl | he
        · exact absurd same' same
        · exact ⟨e, he, same'⟩
      have perm := ih tail inside
      simp only [listed] at *
      rw [List.map_cons, if_neg same, List.flatMap_cons, List.flatMap_cons]
      exact (perm.append_left _).trans List.perm_middle

/-- After a step the entries stand for one member more. Where it was counted
before, it moves there. -/
theorem listed_tallyStep_perm {entries : List (Expr × Nat)} (tallied : Tallied entries) :
    (listed (tallyStep entries m)).Perm (m :: listed entries) := by
  unfold tallyStep
  split
  next known =>
    obtain ⟨isDie, found⟩ := Bool.and_eq_true_iff.1 known
    obtain ⟨entry, he, same⟩ := List.any_eq_true.1 found
    exact listed_map_perm tallied.apart isDie ⟨entry, he, by simpa using same⟩
  next => exact .refl _

/-- Going through the members keeps the entries tallied and adds all of them.
The induction is on the members. -/
theorem listed_foldl_perm {entries : List (Expr × Nat)} (tallied : Tallied entries) :
    Tallied (members.foldl tallyStep entries) ∧
      (listed (members.foldl tallyStep entries)).Perm (members ++ listed entries) := by
  induction members generalizing entries with
  | nil => exact ⟨tallied, .refl _⟩
  | cons m rest ih =>
    obtain ⟨tallied', perm⟩ := ih (tallied_tallyStep tallied)
    refine ⟨tallied', perm.trans ?_⟩
    exact ((listed_tallyStep_perm tallied).append_left rest).trans List.perm_middle

/-- **A tally has every member as often as the pool.** Only their order changes.
-/
theorem tally_perm (members : List Expr) : (listed (tally members)).Perm members := by
  have perm : (listed (members.foldl tallyStep [])).Perm (members ++ []) :=
    (listed_foldl_perm tallied_nil).2
  rw [List.append_nil] at perm
  exact ((List.reverse_perm _).flatMap_right _).trans perm

/-- What holds of the entries of a tally holds of all members, and the other way
round. -/
theorem forall_tally_iff {p : Expr → Prop} :
    (∀ entry ∈ tally members, p entry.1) ↔ ∀ m ∈ members, p m := by
  constructor
  · intro all m hm
    obtain ⟨entry, he, copy⟩ := List.mem_flatMap.1 ((tally_perm members).mem_iff.2 hm)
    rw [List.eq_of_mem_replicate copy]
    exact all entry he
  · exact fun all entry he => all _ (fst_mem_of_mem_tally he)

theorem tally_ne_nil (some : members ≠ []) : tally members ≠ [] := by
  intro none
  have perm := tally_perm members
  rw [none] at perm
  exact some perm.nil_eq.symm

theorem tallied_foldl (members : List Expr) : Tallied (members.foldl tallyStep []) :=
  (listed_foldl_perm tallied_nil).1

/-- Only dice are counted more than once. Anything else gets an entry each time
that it is met. -/
theorem single_of_mem_tally (mem : entry ∈ tally members) (other : entry.1.isDie = false) :
    entry.2 = 1 :=
  (tallied_foldl members).single entry (List.mem_reverse.1 mem) other

theorem pos_of_mem_tally (mem : entry ∈ tally members) : 0 < entry.2 :=
  (tallied_foldl members).pos entry (List.mem_reverse.1 mem)

/-- An entry that is counted several times is of a die. -/
theorem exists_die_of_several (mem : entry ∈ tally members) (several : entry.2 ≠ 1) :
    ∃ d count, entry = (die d, count + 2) := by
  obtain ⟨m, count⟩ := entry
  cases isDie : m.isDie with
  | false => exact absurd (single_of_mem_tally mem isDie) several
  | true =>
    obtain ⟨d, rfl⟩ := exists_die_of_isDie isDie
    have pos := pos_of_mem_tally mem
    exact ⟨d, count - 2, by simp only [Prod.mk.injEq, true_and] at several pos ⊢; omega⟩

/-- No die has two entries. The later one of a pair is the one that is asked to
be a die here, since the tally is the collected list turned around. -/
theorem apart_tally (members : List Expr) :
    (tally members).Pairwise fun a b => b.1.isDie = true → a.1 ≠ b.1 :=
  List.pairwise_reverse.2 ((tallied_foldl members).apart.imp fun h isDie same => h isDie same.symm)

/-! ## Special tallies -/

/-- Members of which no die is listed twice are counted once each, in their
order. -/
theorem tally_of_apart
    (apart : members.Pairwise fun a b => b.isDie = true → a ≠ b) :
    tally members = members.map (·, 1) := by
  have steps : ∀ {entries : List (Expr × Nat)},
      (∀ entry ∈ entries, ∀ m ∈ members, m.isDie = true → entry.1 ≠ m) →
      members.foldl tallyStep entries = (members.map (·, 1)).reverse ++ entries := by
    -- the entries so far may hold anything but the members that are still to come
    induction members with
    | nil => intro entries _; rfl
    | cons m rest ih =>
      intro entries new
      obtain ⟨head, tail⟩ := List.pairwise_cons.1 apart
      -- a die that was counted before would be listed twice
      have unknown : tallyStep entries m = (m, 1) :: entries := by
        refine if_neg fun known => ?_
        obtain ⟨isDie, found⟩ := Bool.and_eq_true_iff.1 known
        obtain ⟨entry, he, same⟩ := List.any_eq_true.1 found
        exact new entry he m (by simp) isDie (by simpa using same)
      rw [List.foldl_cons, unknown, ih tail, List.map_cons, List.reverse_cons, List.append_assoc]
      · rfl
      · refine List.forall_mem_cons.2 ⟨fun x hx isDie => head x hx isDie, fun entry he x hx => ?_⟩
        exact new entry he x (by simp [hx])
  rw [tally, steps (by simp)]
  simp

/-- Each entry with something done to its member, and with the same count.
Splicing and regrouping go through a tally in this way. -/
def mapEntries (f : Expr → Expr) (entries : List (Expr × Nat)) : List (Expr × Nat) :=
  entries.map fun entry => (f entry.1, entry.2)

/-- A step on changed entries is the changed step, if dice and only dice are
sent to dice, each one to itself. -/
theorem tallyStep_mapEntries {f : Expr → Expr} {entries : List (Expr × Nat)}
    (kept : ∀ entry ∈ entries, ∀ d, f entry.1 = die d ↔ entry.1 = die d)
    (own : ∀ d, f m = die d ↔ m = die d) :
    tallyStep (mapEntries f entries) (f m) = mapEntries f (tallyStep entries m) := by
  cases isDie : m.isDie with
  | false =>
    have isDie' : (f m).isDie = false := by
      cases other : (f m).isDie with
      | false => rfl
      | true =>
        obtain ⟨d, same⟩ := exists_die_of_isDie other
        rw [(own d).1 same] at isDie
        cases isDie
    simp [mapEntries, tallyStep, isDie, isDie']
  | true =>
    obtain ⟨d, rfl⟩ := exists_die_of_isDie isDie
    -- the die itself is not changed, so both steps look for the same one
    have same : f (die d) = die d := (own d).2 rfl
    -- the step looks for the die itself, and finds it in the same places
    have found : (mapEntries f entries).any (fun entry => entry.1 = die d) =
        entries.any fun entry => entry.1 = die d := by
      rw [mapEntries, List.any_map, Bool.eq_iff_iff, List.any_eq_true, List.any_eq_true]
      exact exists_congr fun entry => and_congr_right fun he => by simp [kept entry he d]
    unfold tallyStep
    rw [same, found]
    split
    next =>
      rw [mapEntries, mapEntries, List.map_map, List.map_map]
      refine List.map_congr_left fun entry he => ?_
      simp only [Function.comp_apply, kept entry he d]
      split <;> rfl
    next => rw [mapEntries, mapEntries, List.map_cons, same]

theorem foldl_mapEntries {f : Expr → Expr} {entries : List (Expr × Nat)}
    (kept : ∀ entry ∈ entries, ∀ d, f entry.1 = die d ↔ entry.1 = die d)
    (dice : ∀ m ∈ members, ∀ d, f m = die d ↔ m = die d) :
    (members.map f).foldl tallyStep (mapEntries f entries) =
      mapEntries f (members.foldl tallyStep entries) := by
  induction members generalizing entries with
  | nil => rfl
  | cons m rest ih =>
    have own := dice m (by simp)
    rw [List.map_cons, List.foldl_cons, List.foldl_cons, tallyStep_mapEntries kept own]
    refine ih (fun entry he => ?_) fun x hx => dice x (by simp [hx])
    rcases fst_mem_tallyStep he with same | ⟨old, ho, same⟩
    · exact same ▸ own
    · exact same ▸ kept old ho

/-- What is done to members that are no dice does not change what is counted
together. -/
theorem tally_map {f : Expr → Expr} (dice : ∀ m ∈ members, ∀ d, f m = die d ↔ m = die d) :
    tally (members.map f) = mapEntries f (tally members) := by
  have whole : (members.map f).foldl tallyStep (mapEntries f []) =
      mapEntries f (members.foldl tallyStep []) := foldl_mapEntries (by simp) dice
  rw [mapEntries, List.map_nil] at whole
  rw [tally, whole, tally, mapEntries, mapEntries, List.map_reverse]

/-- The test for copies of one die says what it is meant to: there is at least
one copy, and nothing else. -/
theorem uniform_iff : uniform members = true ↔
    ∃ d count, members = List.replicate (count + 1) (die d) := by
  constructor
  · intro h
    unfold uniform at h
    split at h
    next first rest =>
      refine ⟨first, rest.length, ?_⟩
      rw [List.replicate_succ]
      exact congrArg (die first :: ·) (List.eq_replicate_iff.2 ⟨rfl, fun m hm =>
        (same_iff _ _).1 (List.all_eq_true.1 h m hm)⟩)
    next => cases h
  · rintro ⟨d, count, rfl⟩
    simp [uniform, List.replicate_succ, same_iff]

/-- Copies of one die are counted in a single entry. At least one of them is
needed for that. -/
theorem tally_replicate (d : Die) (count : Nat) :
    tally (List.replicate (count + 1) (die d)) = [(die d, count + 1)] := by
  have steps : ∀ start, (List.replicate count (die d)).foldl tallyStep [(die d, start)] =
      [(die d, start + count)] := by
    induction count with
    | zero => intro start; rfl
    | succ count ih =>
      intro start
      have step : tallyStep [(die d, start)] (die d) = [(die d, start + 1)] := by
        simp [tallyStep, isDie]
      rw [List.replicate_succ, List.foldl_cons, step, ih, Nat.add_assoc, Nat.add_comm 1]
  have first : tallyStep [] (die d) = [(die d, 1)] := by simp [tallyStep]
  rw [tally, List.replicate_succ, List.foldl_cons, first, steps, Nat.add_comm 1]
  rfl

/-- Several members that are not all the same die have several entries. So their
text is a sum. -/
theorem two_le_length_tally (several : 2 ≤ members.length) (mixed : uniform members = false) :
    2 ≤ (tally members).length := by
  have perm := tally_perm members
  cases entries : tally members with
  | nil =>
    rw [entries] at perm
    have := perm.length_eq
    simp [listed] at this
    omega
  | cons entry rest =>
    cases rest with
    | cons next rest => simp
    | nil =>
      rw [entries] at perm
      -- a single entry stands for copies of one member, and only dice are counted together
      have all : members = List.replicate entry.2 entry.1 :=
        List.perm_replicate.1 (by simpa [listed] using perm.symm)
      have count : 2 ≤ entry.2 := by rwa [all, List.length_replicate] at several
      cases isDie : entry.1.isDie with
      | false =>
        have one := single_of_mem_tally (by rw [entries]; simp : entry ∈ tally members) isDie
        omega
      | true =>
        obtain ⟨d, same⟩ := exists_die_of_isDie isDie
        rw [uniform_iff.2 ⟨d, entry.2 - 1, by rw [all, same]; congr; omega⟩] at mixed
        cases mixed

end Expr

end Dice
