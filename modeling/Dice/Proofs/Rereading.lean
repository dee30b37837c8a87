import Dice.Proofs.Expr.Regrouped
import Dice.Proofs.Notation.Pieces

/-!
# Reading a written expression

The text of a legible expression is read as the regrouped expression, or it is
refused. `rereadable` tells which: a number of equal dice has a limit, the
parentheses that were added have one in their depth, and what the constructors
check they check again, of the regrouped members.

What is shown of each expression by induction is `Rereads`, with two parts.
One is about its text as a whole, and is used where the text stands in
parentheses. The other is about the text as the first part of a segment, with
operators behind it, and is used where it stands without them.

Only the written operators of arithmetic reach into the segment of the
expression inside. So a segment is read together with the operators behind it,
of which there is `room` for as many as its own leave. A modifier does not
reach inside, for what is modified is always put into parentheses if it is not
a number of dice.

Main statement: `readsText_text`.
-/

namespace Dice.Expr

open Notation

variable {members : List Expr} {e : Expr} {entry : Expr × Nat} {levels : Nat}

/-! ## What is accepted -/

/-- Whether a condition holds one level further down, if there is such a level.
Parentheses are read with one level less than what is around them. -/
def deeper (levels : Nat) (accepts : Nat → Bool) : Bool :=
  match levels with
  | 0 => false
  | levels + 1 => accepts levels

/-- Whether so many dice can be read: the number in front of dice has a limit. -/
def few (count : Nat) : Bool := decide ((count : Int) ≤ quantityLimit)

/-- Whether arithmetic puts the expression inside into parentheses. -/
def wrapped (inner : Expr) : Bool :=
  inner.chained || inner.text.endsWithComparator || inner.text.hasOuterPlus 0

theorem operandText_eq (inner : Expr) : operandText inner inner.text =
    if inner.wrapped then inner.text.parenthesized else inner.text := rfl

/-- Where arithmetic needs no parentheses around what is inside. -/
theorem of_wrapped_eq_false {inner : Expr} (bare : inner.wrapped = false) :
    inner.chained = false ∧ inner.text.endsWithComparator = false ∧
      inner.text.hasOuterPlus 0 = false := by
  simpa [wrapped, and_assoc] using bare

mutual

/-- Whether the text of an expression can be read with parentheses `levels`
deep. A sum checks the counts of its tally, and a modifier what its constructor
checks; dice are always read. -/
def rereadable : Expr → Nat → Bool
  | die _, _ => true
  | pool members, levels =>
    (tally members).all (fun entry => few entry.2) && allRereadable members levels
  | arithmetic inner op operand, levels =>
    (if inner.wrapped then deeper levels fun lower => rereadable inner lower
      else rereadable inner levels) && !(decide (op = .divide ∧ operand = 0))
  | selection members _ threshold, levels =>
    (if uniform members then few members.length
      else deeper levels fun lower => allRereadable members lower) &&
      decide (threshold ≤ members.length)
  | explosion members c threshold, levels =>
    (if uniform members then few members.length
      else deeper levels fun lower => allRereadable members lower) &&
      (regroupedMembers members).all fun m => !endless c threshold m

/-- Whether all members of a pool can be read, each in parentheses if it needs
them. It is defined along with `rereadable`, and `memberRereadable` is what it
says of a single member. -/
def allRereadable : List Expr → Nat → Bool
  | [], _ => true
  | m :: rest, levels =>
    (if m.text.hasOuterPlus 0 then deeper levels fun lower => rereadable m lower
      else rereadable m levels) && allRereadable rest levels

end

/-- Whether a member of a pool can be read, in parentheses if it needs them. -/
def memberRereadable (levels : Nat) (m : Expr) : Bool :=
  if m.text.hasOuterPlus 0 then deeper levels m.rereadable else m.rereadable levels

/-- Whether the pool under a selection or an explosion can be read: as a number
of dice, or in parentheses. -/
def baseRereadable (members : List Expr) (levels : Nat) : Bool :=
  if uniform members then few members.length
  else deeper levels fun lower => members.all (memberRereadable lower)

/-- All members can be read if each of them can. -/
theorem allRereadable_eq (members : List Expr) (levels : Nat) :
    allRereadable members levels = members.all (memberRereadable levels) := by
  induction members with
  | nil => simp [allRereadable]
  | cons m rest ih => simp [allRereadable, memberRereadable, ih]

/-- A sum can be read if its dice are few enough to be counted and each of its
members can be read. -/
theorem rereadable_pool (members : List Expr) (levels : Nat) :
    (pool members).rereadable levels =
      ((tally members).all (fun entry => few entry.2) &&
        members.all (memberRereadable levels)) := by
  simp [rereadable, allRereadable_eq]

/-- Arithmetic can be read if what is inside can, one level down if it stands in
parentheses, and if the constant does not divide by zero. -/
theorem rereadable_arithmetic (inner : Expr) (op : Operator) (operand : UInt32) (levels : Nat) :
    (arithmetic inner op operand).rereadable levels =
      ((if inner.wrapped then deeper levels inner.rereadable else inner.rereadable levels) &&
        !(decide (op = .divide ∧ operand = 0))) := by
  simp [rereadable]

/-- A selection can be read if its pool can, and if it does not ask for more
members than there are. -/
theorem rereadable_selection (members : List Expr) (rule : Selection) (threshold levels : Nat) :
    (selection members rule threshold).rereadable levels =
      (baseRereadable members levels && decide (threshold ≤ members.length)) := by
  simp [rereadable, allRereadable_eq, baseRereadable]

/-- An explosion can be read if its pool can, and if no regrouped member would
go on for ever. -/
theorem rereadable_explosion (members : List Expr) (c : Comparator) (threshold : Option Score)
    (levels : Nat) : (explosion members c threshold).rereadable levels =
      (baseRereadable members levels &&
        (members.map regrouped).all fun m => !endless c threshold m) := by
  simp [rereadable, allRereadable_eq, baseRereadable]

theorem rereadable_die (d : Die) (levels : Nat) : (die d).rereadable levels = true := by
  simp [rereadable]

/-- A die as a member of a pool is never in parentheses, and is always read. -/
theorem memberRereadable_die (d : Die) (levels : Nat) :
    memberRereadable levels (die d) = true := by
  have whole : (die d).text.hasOuterPlus 0 = false := by
    rw [text_die]
    exact (uncut_diceText d 1).whole
  rw [memberRereadable, whole]
  exact rereadable_die d levels

/-- What the text of an expression is read as. -/
def reading (e : Expr) (levels : Nat) : Option Expr :=
  if e.rereadable levels then some e.regrouped else none

/-! ## What the constructors give -/

/-- The constructor of arithmetic refuses to divide by zero, and nothing else. -/
theorem toOption_apply (e : Expr) (op : Operator) (operand : UInt32) :
    (e.apply op operand).toOption =
      if op = .divide ∧ operand = 0 then none else some (arithmetic e op operand) := by
  unfold apply
  split <;> rfl

/-- The constructor of selections refuses a threshold that is greater than the
number of members, and nothing else. -/
theorem toOption_select (e : Expr) (rule : Selection) (threshold : Nat) :
    (e.select rule threshold).toOption =
      if threshold ≤ e.members.length then some (selection e.members rule threshold) else none := by
  simp only [select]
  split
  next few => rw [if_neg (Nat.not_le_of_lt few)]; rfl
  next enough => rw [if_pos (Nat.le_of_not_lt enough)]; rfl

/-- The constructor of explosions refuses a pool with an endless member, and
nothing else. -/
theorem toOption_explode (e : Expr) (c : Comparator) (threshold : Option Score) :
    (e.explode c threshold).toOption =
      if e.members.all fun m => !endless c threshold m then
        some (explosion e.members c threshold) else none := by
  unfold explode
  split
  next member found =>
    have some : e.members.any (endless c threshold) = true :=
      List.any_eq_true.2 ⟨member, List.mem_of_find?_eq_some found, List.find?_some found⟩
    rw [← List.not_any_eq_all_not, some]
    rfl
  next none =>
    rw [if_pos]
    · rfl
    · exact List.all_eq_true.2 fun m hm => by simpa using List.find?_eq_none.1 none m hm

/-- Arithmetic is read where its operator is the first one behind what is
inside. -/
theorem reading_arithmetic (inner : Expr) (op : Operator) (operand : UInt32) (levels : Nat)
    (operators : List (Operator × UInt32)) :
    (if (if inner.wrapped then deeper levels inner.rereadable else inner.rereadable levels) then
        some inner.regrouped else none).bind (operate? · ((op, operand) :: operators)) =
      ((arithmetic inner op operand).reading levels).bind (operate? · operators) := by
  rw [reading, rereadable_arithmetic, regrouped_arithmetic]
  cases (if inner.wrapped then deeper levels inner.rereadable else inner.rereadable levels) with
  | false => rfl
  | true =>
    simp only [if_true, Option.bind_some, operate?, toOption_apply]
    by_cases zero : op = .divide ∧ operand = 0
    · simp [zero]
    · simp [zero]

/-- A selection is read where its pool was read with the members regrouped: the
number of members, which is all that is checked, is the same. -/
theorem reading_selection {base : Expr} (same : base.members = members.map regrouped)
    (rule : Selection) (threshold levels : Nat) :
    (if baseRereadable members levels then some base else none).bind
        (Modifier.selection rule threshold).applied =
      (selection members rule threshold).reading levels := by
  have selected := toOption_select base rule threshold
  rw [same, List.length_map] at selected
  rw [reading, rereadable_selection, regrouped_selection]
  cases baseRereadable members levels <;> simp [Modifier.applied, selected]

/-- An explosion is read where its pool was read with the members regrouped, and
the check for endless members is made of those. -/
theorem reading_explosion {base : Expr} (same : base.members = members.map regrouped)
    (c : Comparator) (threshold : Option Score) (levels : Nat) :
    (if baseRereadable members levels then some base else none).bind
        (Modifier.explosion c threshold).applied =
      (explosion members c threshold).reading levels := by
  have exploded := toOption_explode base c threshold
  rw [same] at exploded
  rw [reading, rereadable_explosion, regrouped_explosion]
  cases baseRereadable members levels <;> simp [Modifier.applied, exploded]

/-! ## How far a segment reaches -/

/-- How many operators a segment has room for behind what is written for an
expression. A segment has at most two, and arithmetic that is not in parentheses
uses up some of them. -/
def room (e : Expr) : Nat :=
  if e.chained then 0
  else
    match e with
    | arithmetic _ _ _ => 1
    | _ => 2

/-- What is shown of each expression: how its text is read, and how that is read
as the first part of a segment. -/
structure Rereads (e : Expr) : Prop where
  text : ∀ levels, ReadsText levels e.text (e.reading levels)
  piece : e.single = true → ∀ levels operators, operators.length ≤ e.room →
    (e.text.endsWithComparator = true → operators = []) →
      ReadsPiece levels (e.text ++ operatorsText operators)
        ((e.reading levels).bind (operate? · operators))

/-! ## Parts -/

/-- Reading a list in which each item is accepted or not is accepting all of
them. -/
theorem mapM_if {α β : Type} (items : List α) (accepts : α → Bool) (f : α → β) :
    items.mapM (fun x => if accepts x then some (f x) else none) =
      if items.all accepts then some (items.map f) else none := by
  induction items with
  | nil => rfl
  | cons x rest ih =>
    rw [List.mapM_cons, ih, List.all_cons]
    cases accepts x <;> cases rest.all accepts <;> rfl

theorem below_reading (m : Expr) (levels : Nat) :
    below levels m.reading = if deeper levels m.rereadable then some m.regrouped else none := by
  cases levels <;> rfl

/-- A member of a pool is read in its place, in the parentheses that it needs or
without them. -/
theorem readsPiece_member {m : Expr} (legible : m.Every Legible) (rereads : Rereads m)
    (levels : Nat) : ReadsPiece levels m.text.grouped
      (if memberRereadable levels m then some m.regrouped else none) := by
  -- parentheses take one of the levels
  unfold Text.grouped memberRereadable
  cases plus : m.text.hasOuterPlus 0 with
  | true =>
    have piece := readsPiece_group levels none []
      (firm_text m) rereads.text (by simp) (by simp) (by simp)
    simpa [modifierText, operatorsText, operate?, below_reading] using piece
  | false =>
    have piece := rereads.piece (single_of_hasOuterPlus legible plus) levels [] (by simp) (by simp)
    simpa [operatorsText, operate?, reading] using piece

/-- An entry of a tally is read as what it counts. If it is counted several
times it is a number of dice, and otherwise it is the member. -/
theorem readsPiece_entry (mem : entry ∈ tally members) (legible : entry.1.Every Legible)
    (rereads : Rereads entry.1) (levels : Nat) : ReadsPiece levels (entryText entry)
      (if few entry.2 && memberRereadable levels entry.1 then some (counted entry) else none) := by
  by_cases one : entry.2 = 1
  · have piece := readsPiece_member legible rereads levels
    simpa [entryText, few, quantityLimit, counted, copies, one] using piece
  · obtain ⟨d, count, rfl⟩ := exists_die_of_several mem one
    have die : LegibleDie d := Every.die_iff.1 legible
    have piece := readsPiece_dice levels none [] die (count + 2) (by simp) (by simp) (by simp)
    rw [entryText_die, memberRereadable_die d, Bool.and_true]
    simpa [modifierText, operatorsText, operate?, dice?, few, counted] using piece

/-- Accepting the members of all entries is accepting all members. -/
theorem all_tally (members : List Expr) (accepts : Expr → Bool) :
    (tally members).all (fun entry => accepts entry.1) = members.all accepts := by
  rw [Bool.eq_iff_iff, List.all_eq_true, List.all_eq_true]
  exact forall_tally_iff (p := fun m => accepts m = true)

/-- A sum is read as the sum of what is read for the entries of its tally, which
is the regrouped pool. -/
theorem readsText_pool (legible : (pool members).Every Legible)
    (rereads : ∀ m ∈ members, Rereads m) (levels : Nat) :
    ReadsText levels (pool members).text ((pool members).reading levels) := by
  have each := (Every.pool_iff.1 legible).2
  have text := readsText_of_pieces _ (firm_text _) (cutSegments_pool legible)
    fun entry he => readsPiece_entry he (each _ (fst_mem_of_mem_tally he))
      (rereads _ (fst_mem_of_mem_tally he)) levels
  have all : ((tally members).all fun entry => few entry.2 && memberRereadable levels entry.1) =
      (pool members).rereadable levels := by
    rw [rereadable_pool, ← all_tally members (memberRereadable levels), Bool.eq_iff_iff]
    simp [forall_and]
  rw [mapM_if, all] at text
  unfold reading
  rw [regrouped_pool fun m hm => kept_of_legible (each m hm)]
  cases accepted : (pool members).rereadable levels <;> rw [accepted] at text <;> exact text

/-! ## Pools under a modifier -/

/-- Members that are written one by one are read one by one, and what they are
read as is combined. -/
theorem readsText_listed (each : ∀ m ∈ members, m.Every Legible) (some : members ≠ [])
    (rereads : ∀ m ∈ members, Rereads m) (levels : Nat) :
    ReadsText levels (Text.join ['+'] (members.map fun m => m.text.grouped))
      (if members.all (memberRereadable levels) then .some (combine (members.map regrouped))
        else none) := by
  have pieces : members.map (fun m => m.text.grouped) ≠ [] := by simpa using some
  have cut := cutSegments_join (List.forall_mem_map.2 fun m _ => (firm_text m).uncut_grouped)
    (List.forall_mem_map.2 fun m hm => hasDice_grouped.trans (hasDice_text (each m hm))) pieces
  have firm := firm_join (List.forall_mem_map.2 fun m _ => (firm_text m).grouped) pieces
  have text := readsText_of_pieces _ firm cut
    fun m hm => readsPiece_member (each m hm) (rereads m hm) levels
  rw [mapM_if] at text
  cases accepted : members.all (memberRereadable levels) <;> rw [accepted] at text <;> exact text

/-- What is read between the parentheses has the regrouped members as its
members again. For a single one this takes that it is no pool. -/
theorem members_combine (each : ∀ m ∈ members, m.Every Legible) (pooled : LegiblePool members) :
    (combine (members.map regrouped)).members = members.map regrouped := by
  cases members with
  | nil => exact absurd rfl pooled.1
  | cons m rest =>
    cases rest with
    | nil =>
      cases m with
      | pool inner => exact absurd rfl (pooled.2 inner)
      | _ => simp [combine, Expr.members]
    | cons next rest =>
      rw [combine_several (by simp) (List.forall_mem_map.2 fun m hm =>
        (kept_of_legible (each m hm)).isEmpty)]
      rfl

theorem members_copies (d : Die) (count : Nat) :
    ((die d).copies (count + 1)).members = List.replicate (count + 1) (die d) := by
  cases count with
  | zero => rfl
  | succ count =>
    rw [copies_several (e := die d) rfl]
    rfl

/-- The pool under a modifier is read with the members regrouped, each in its
place. -/
theorem readsPiece_base (each : ∀ m ∈ members, m.Every Legible) (pooled : LegiblePool members)
    (rereads : ∀ m ∈ members, Rereads m) : ∃ base : Expr, base.members = members.map regrouped ∧
      ∀ (levels : Nat) (m : Modifier) (operators : List (Operator × UInt32)), m.Legible →
        operators.length ≤ 2 → (m.Bare → operators = []) →
          ReadsPiece levels (baseText members ++ (modifierText (some m) ++ operatorsText operators))
            (((if baseRereadable members levels then some base else none).bind m.applied).bind
              (operate? · operators)) := by
  cases mixed : uniform members with
  -- copies of one die are read as dice, without parentheses
  | true =>
    obtain ⟨d, count, die, rfl⟩ := exists_replicate each mixed
    refine ⟨(Expr.die d).copies (count + 1), by simp [members_copies], ?_⟩
    intro levels m operators legible few bare
    have piece := readsPiece_dice levels (some m) operators die (count + 1)
      (by simpa using legible) few (by simpa using bare)
    rw [baseText_replicate, baseRereadable, if_pos mixed]
    simpa [Expr.few, dice?] using piece
  -- anything else stands in parentheses, and takes one level
  | false =>
    refine ⟨combine (members.map regrouped), members_combine each pooled, ?_⟩
    intro levels m operators legible few bare
    have firm := firm_join (List.forall_mem_map.2 fun m _ => (firm_text m).grouped)
      (by simpa using pooled.1)
    have piece := readsPiece_group levels (some m) operators firm
      (readsText_listed each pooled.1 rereads) (by simpa using legible) few (by simpa using bare)
    rw [baseText_of_mixed mixed pooled.1, baseRereadable, mixed]
    cases levels <;> exact piece

/-! ## Every expression -/

/-- An expression that is one segment is read as that. -/
theorem rereads_of_piece (whole : e.single = true)
    (piece : ∀ levels operators, operators.length ≤ e.room →
      (e.text.endsWithComparator = true → operators = []) →
        ReadsPiece levels (e.text ++ operatorsText operators)
          ((e.reading levels).bind (operate? · operators))) : Rereads e := by
  refine ⟨fun levels => ?_, fun _ => piece⟩
  have alone : ∀ x ∈ [e], ReadsPiece levels x.text (x.reading levels) := by
    simpa [operatorsText, operate?] using piece levels [] (by simp) (by simp)
  have text := readsText_of_pieces [e] (firm_text e) (cutSegments_text whole) alone
  rw [List.mapM_cons, List.mapM_nil] at text
  cases read : e.reading levels with
  | none => simpa [read] using text
  | some other => simpa [read, combine] using text

/-- A die is read as a segment with room for two operators. -/
theorem rereads_die {d : Die} (legible : LegibleDie d) : Rereads (die d) := by
  refine rereads_of_piece rfl fun levels operators few _ => ?_
  have piece := readsPiece_dice levels none operators legible 1 (by simp) few (by simp)
  simpa [text_die, modifierText, dice?, quantityLimit, copies, reading, rereadable] using piece

/-- A sum is read as a text, and as a first part only where it is a number of
dice. -/
theorem rereads_pool (legible : (pool members).Every Legible)
    (rereads : ∀ m ∈ members, Rereads m) : Rereads (pool members) := by
  -- a sum of different members is no single segment
  refine ⟨readsText_pool legible rereads, fun same levels operators few _ => ?_⟩
  obtain ⟨d, rest, die, rfl⟩ := exists_replicate_of_pool legible same
  have piece := readsPiece_dice levels none operators die (rest + 2) (by simp) few (by simp)
  have accepted : (pool (List.replicate (rest + 2) (.die d))).rereadable levels =
      Expr.few (rest + 2) := by
    rw [rereadable_pool, tally_replicate]
    simp [memberRereadable_die d]
  rw [text_replicate, reading, accepted, regrouped_replicate]
  simpa [modifierText, dice?, Expr.few, copies_several (e := .die d) rfl] using piece

/-- A modifier without its score ends with a comparator, which is why nothing
that starts with a minus sign is written behind it without parentheses. -/
theorem endsWithComparator_of_bare {m : Modifier} (bare : m.Bare) (front : Text) :
    (front ++ modifierText (some m)).endsWithComparator = true := by
  cases m with
  | selection rule threshold => cases bare
  | explosion c threshold =>
    cases threshold with
    | some score => cases bare
    | none =>
      cases c <;> first
        | exact absurd rfl bare
        | simp [modifierText, Modifier.text, conditionText, Text.endsWithComparator,
            Comparator.symbol, Comparator.ofSymbol?]

/-- The segment of a selection starts with its pool, and its modifier always has
a number, so operators may follow. -/
theorem rereads_selection {rule : Selection} {threshold : Nat}
    (legible : (selection members rule threshold).Every Legible)
    (rereads : ∀ m ∈ members, Rereads m) : Rereads (selection members rule threshold) := by
  obtain ⟨⟨pooled, numbers⟩, each⟩ := Every.selection_iff.1 legible
  obtain ⟨base, same, piece⟩ := readsPiece_base each pooled rereads
  refine rereads_of_piece rfl fun levels operators few _ => ?_
  rw [text_selection, List.append_assoc, ← reading_selection same]
  exact piece levels (.selection rule threshold) operators numbers few nofun

/-- The segment of an explosion starts with its pool. Operators follow only
where its modifier does not end with the comparator. -/
theorem rereads_explosion {c : Comparator} {threshold : Option Score}
    (legible : (explosion members c threshold).Every Legible)
    (rereads : ∀ m ∈ members, Rereads m) : Rereads (explosion members c threshold) := by
  obtain ⟨⟨pooled, numbers⟩, each⟩ := Every.explosion_iff.1 legible
  obtain ⟨base, same, piece⟩ := readsPiece_base each pooled rereads
  refine rereads_of_piece rfl fun levels operators few ends => ?_
  have bare : (Modifier.explosion c threshold).Bare → operators = [] := fun bare => by
    rw [text_explosion] at ends
    exact ends (endsWithComparator_of_bare bare _)
  rw [text_explosion, List.append_assoc, ← reading_explosion same]
  exact piece levels (.explosion c threshold) operators numbers few bare

theorem room_arithmetic_le (inner : Expr) (op : Operator) (operand : UInt32) :
    (arithmetic inner op operand).room ≤ 1 := by
  unfold room
  split
  next => exact Nat.zero_le 1
  next => exact Nat.le_refl 1

/-- Where arithmetic has room for operators, there is room for one more inside. -/
theorem lt_room_of_unchained {inner : Expr} {op : Operator} {operand : UInt32} {count : Nat}
    (unchained : inner.chained = false) (fits : count ≤ (arithmetic inner op operand).room) :
    count < inner.room := by
  cases inner with
  | arithmetic inmost op' operand' =>
    -- arithmetic on arithmetic leaves no room, and has one operator inside of two
    have none : count ≤ 0 := by simpa [room, chained] using fits
    simp [room, unchained]
    omega
  | _ =>
    -- all other expressions have no operators of their own
    have one : count ≤ 1 := by simpa [room, chained] using fits
    simp [room, chained]
    omega

/-- Arithmetic is read as the expression inside with one more operator behind
it, either in the segment of that expression or behind parentheses. -/
theorem rereads_arithmetic {inner : Expr} {op : Operator} {operand : UInt32}
    (legible : (arithmetic inner op operand).Every Legible) (rereads : Rereads inner) :
    Rereads (arithmetic inner op operand) := by
  have inside := (Every.arithmetic_iff.1 legible).2
  refine rereads_of_piece rfl fun levels operators few bare => ?_
  -- the own operator is the first one behind what is written for the expression inside
  have text : (arithmetic inner op operand).text ++ operatorsText operators =
      operandText inner inner.text ++ operatorsText ((op, operand) :: operators) := by
    simp [text_arithmetic, operatorsText]
  rw [text, ← reading_arithmetic, operandText_eq]
  cases wrap : inner.wrapped with
  | true =>
    have fits : ((op, operand) :: operators).length ≤ 2 :=
      Nat.succ_le_succ (few.trans (room_arithmetic_le inner op operand))
    have piece := readsPiece_group levels none ((op, operand) :: operators)
      (firm_text inner) rereads.text (by simp) fits (by simp)
    simpa [modifierText, below_reading] using piece
  | false =>
    obtain ⟨unchained, ends, whole⟩ := of_wrapped_eq_false wrap
    exact rereads.piece (single_of_hasOuterPlus inside whole) levels ((op, operand) :: operators)
      (lt_room_of_unchained unchained few) (by simp [ends])

/-- **The text of a legible expression is read as the regrouped expression, or
refused.** It is refused just where the expression is not rereadable. -/
theorem readsText_text (legible : e.Every Legible) (levels : Nat) :
    ReadsText levels e.text (e.reading levels) := by
  -- the part about segments is needed for the induction, and forgotten at its end
  suffices rereads : Rereads e from rereads.text levels
  induction e using ind with
  | die d => exact rereads_die (Every.die_iff.1 legible)
  | pool members ih =>
    have each := (Every.pool_iff.1 legible).2
    exact rereads_pool legible fun m hm => ih m hm (each m hm)
  | arithmetic inner op operand ih =>
    exact rereads_arithmetic legible (ih (Every.arithmetic_iff.1 legible).2)
  | selection members rule threshold ih =>
    have each := (Every.selection_iff.1 legible).2
    exact rereads_selection legible fun m hm => ih m hm (each m hm)
  | explosion members c threshold ih =>
    have each := (Every.explosion_iff.1 legible).2
    exact rereads_explosion legible fun m hm => ih m hm (each m hm)

end Dice.Expr
