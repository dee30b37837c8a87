import Dice.Proofs.Notation.Unbalanced

/-!
# Where a notation is cut

A plus sign of a balanced text stands outside of all parentheses if as many of
them are closed in front of it as are opened. `UpToPlus` says the same of the
part up to the first such sign. Neither speaks of the scans that cut a text.

A plus sign between two parts of a joined text is a cut, and one inside of a
part is seen from that part alone (`cut_or_inside`). Of fragments no outer
plus sign is inside, so they tell what stands behind each one of a segment.

The statement is put together from one lemma for each of its parts. The first
two say what is in front of a cut and behind it, and the third says of every
other outer plus sign that no dice follow. By these the cuts of a text are
determined.

Main statement: `segments_cut`.
-/

namespace Dice

namespace Text

variable {part text before after : Text} {left right : List Text}

/-- Whether no parenthesis is left open in a text: as many are closed as are
opened. -/
def NoneOpen (text : Text) : Prop := text.count '(' = text.count ')'

/-- Whether a part of a text ends at its first plus sign outside of parentheses,
or at its end. -/
structure UpToPlus (part text : Text) : Prop where
  ends : text = part ∨ part.NoneOpen ∧ ∃ rest, text = part ++ '+' :: rest
  first : ∀ before after, part = before ++ '+' :: after → ¬ before.NoneOpen

/-- Whether pieces of a text are cut behind some part of it, which is the first
ones of them. -/
def CutAfter (pieces : List Text) (before : Text) : Prop :=
  ∃ left right, left ≠ [] ∧ right ≠ [] ∧ pieces = left ++ right ∧ join ['+'] left = before

theorem join_append (some : left ≠ []) (some' : right ≠ []) :
    join ['+'] (left ++ right) = join ['+'] left ++ '+' :: join ['+'] right := by
  induction left with
  | nil => exact absurd rfl some
  | cons first rest ih =>
    cases rest with
    | nil =>
      cases right with
      | nil => exact absurd rfl some'
      | cons next right => simp [join_cons_cons]
    | cons second rest =>
      have tail := ih (by simp)
      rw [List.cons_append] at tail
      rw [List.cons_append, List.cons_append, join_cons_cons, join_cons_cons, tail]
      simp

/-- Behind a plus sign that is outside of parentheses the count begins anew. So
it can be taken for each segment by itself. -/
theorem noneOpen_append_plus (none : before.NoneOpen) :
    NoneOpen (before ++ '+' :: after) ↔ after.NoneOpen := by
  unfold NoneOpen at none ⊢
  rw [List.count_append, List.count_append, List.count_cons_of_ne (by decide),
    List.count_cons_of_ne (by decide)]
  omega

/-- The part up to the first plus sign of a text is that of what the text
begins. -/
theorem UpToPlus.join_cons (up : UpToPlus part text) (none : part.NoneOpen) (rest : List Text) :
    UpToPlus part (join ['+'] (text :: rest)) := by
  refine ⟨?_, up.first⟩
  cases rest with
  | nil => simpa using up.ends
  | cons next rest =>
    rw [join_cons_cons]
    rcases up.ends with rfl | ⟨-, more, rfl⟩
    · exact .inr ⟨none, join ['+'] (next :: rest), by simp⟩
    · exact .inr ⟨none, more ++ '+' :: join ['+'] (next :: rest), by simp⟩

end Text

namespace Notation

open Text

variable {part text before after piece : Text} {pieces rest : List Text}

/-! ## Outer plus signs -/

theorem noneOpen_of_balanced (balanced : text.Balanced) : text.NoneOpen :=
  (balanced_iff.1 balanced).2

theorem balanced_of_noneOpen (balanced : (before ++ after).Balanced) (none : before.NoneOpen) :
    before.Balanced :=
  balanced_iff.2 ⟨fun front le =>
    (balanced_iff.1 balanced).1 front (le.trans (List.prefix_append before after)), none⟩

/-- In an uncut text every plus sign is inside of parentheses. -/
theorem not_noneOpen_of_uncut (uncut : Uncut part) (whole : part = before ++ '+' :: after) :
    ¬ before.NoneOpen := by
  intro none
  subst whole
  have outer := uncut.whole
  rw [(balanced_of_noneOpen uncut.balanced none).hasOuterPlus_append,
    hasOuterPlus_plain (by decide) (by decide)] at outer
  simp at outer

/-- Of two plus signs of a text one is in front of the other, or they are the
same. -/
theorem plus_cases {tail : Text} (whole : piece ++ '+' :: tail = before ++ '+' :: after) :
    (piece = before ∧ tail = after) ∨
    (∃ back, piece = before ++ '+' :: back ∧ after = back ++ '+' :: tail) ∨
    ∃ front, before = piece ++ '+' :: front ∧ tail = front ++ '+' :: after := by
  rcases List.append_eq_append_iff.1 whole with ⟨more, same, behind⟩ | ⟨more, same, behind⟩
  · cases more with
    | nil =>
      cases behind
      exact .inl ⟨by simpa using same.symm, rfl⟩
    | cons c more =>
      cases behind
      exact .inr (.inr ⟨more, same, rfl⟩)
  · cases more with
    | nil =>
      cases behind
      exact .inl ⟨by simpa using same, rfl⟩
    | cons c more =>
      cases behind
      exact .inr (.inl ⟨more, same, rfl⟩)

/-- A plus sign outside of parentheses is one between two pieces or inside of a
piece. -/
theorem cut_or_inside (balanced : ∀ piece ∈ pieces, piece.Balanced) (none : before.NoneOpen)
    (whole : join ['+'] pieces = before ++ '+' :: after) :
    (∃ left right, left ≠ [] ∧ right ≠ [] ∧ pieces = left ++ right ∧ join ['+'] left = before ∧
      join ['+'] right = after) ∨
    ∃ left front back right, pieces = left ++ (front ++ '+' :: back) :: right ∧ NoneOpen front ∧
      after = join ['+'] (back :: right) := by
  induction pieces generalizing before with
  | nil => simp at whole
  | cons piece rest ih =>
    cases rest with
    | nil =>
      rw [join_singleton] at whole
      exact .inr ⟨[], before, after, [], by simp [whole], none, by simp⟩
    | cons next rest =>
      rw [join_cons_cons, List.append_assoc] at whole
      -- the plus sign stands behind the first piece, inside of it, or further on
      rcases plus_cases whole with ⟨rfl, rfl⟩ | ⟨back, rfl, rfl⟩ | ⟨front, rfl, tail⟩
      · exact .inl ⟨[piece], next :: rest, by simp, by simp, rfl, by simp, rfl⟩
      · exact .inr ⟨[], before, back, next :: rest, rfl, none, by simp [join_cons_cons]⟩
      · have self := noneOpen_of_balanced (balanced piece (by simp))
        rcases ih (fun x hx => balanced x (by simp [hx])) ((noneOpen_append_plus self).1 none) tail
          with ⟨left, right, some, some', same, rfl, same'⟩ |
            ⟨left, front, back, right, same, none', rfl⟩
        · have ahead := join_append (List.cons_ne_nil piece []) some
          rw [join_singleton] at ahead
          exact .inl ⟨piece :: left, right, by simp, some', by simp [same], ahead, same'⟩
        · exact .inr ⟨piece :: left, front, back, right, by simp [same], none', rfl⟩

/-! ## Parts up to a plus sign -/

/-- The first of some joined parts goes up to the first outer plus sign, if no
plus sign cuts it. -/
theorem upToPlus_join (uncut : Uncut part) (rest : List Text) :
    UpToPlus part (join ['+'] (part :: rest)) := by
  have alone : UpToPlus part part := ⟨.inl rfl, fun _ _ => not_noneOpen_of_uncut uncut⟩
  exact alone.join_cons (noneOpen_of_balanced uncut.balanced) rest

theorem hasDice_iff_mem (text : Text) : hasDice text = true ↔ 'd' ∈ text ∨ 'D' ∈ text := by
  simp only [hasDice, List.any_eq_true, Bool.or_eq_true, beq_iff_eq, and_or_left, exists_or,
    exists_eq_right]

/-! ## Segments -/

/-- Segments are groups of uncut fragments. Only the first one of a group can
have dice, and behind a cut it does. -/
theorem exists_uncut_groups (balanced : text.Balanced) : ∃ group groups,
    cutSegments text = (group :: groups).map (join ['+']) ∧
    ∀ fragments ∈ group :: groups, ∃ first more, fragments = first :: more ∧
      (∀ f ∈ first :: more, Uncut f) ∧ Diceless more ∧
      (fragments ∈ groups → hasDice first = true) := by
  obtain ⟨first, more, groups, whole, diceless, each, cut⟩ := exists_groups text
  have uncut := uncut_of_mem_fragments balanced
  rw [whole] at uncut
  refine ⟨first :: more, groups, cut, fun fragments mem => ?_⟩
  rcases List.mem_cons.1 mem with rfl | inside
  · refine ⟨first, more, rfl, fun f hf => uncut f (List.mem_append_left _ hf), diceless, ?_⟩
    intro inside
    obtain ⟨_, _, same, dice, -⟩ := each _ inside
    cases same
    exact dice
  · obtain ⟨start, rest, rfl, dice, diceless⟩ := each _ inside
    exact ⟨start, rest, rfl, fun f hf => uncut f (List.mem_append_right _
      (List.mem_flatten.2 ⟨_, inside, hf⟩)), diceless, fun _ => dice⟩

/-- Behind a plus sign that a segment keeps there are no dice up to the next
one. -/
theorem exists_behind {first : Text} {more : List Text} {front back : Text}
    (uncut : ∀ f ∈ first :: more, Uncut f) (diceless : Diceless more) (none : front.NoneOpen)
    (whole : join ['+'] (first :: more) = front ++ '+' :: back) :
    ∃ part, Uncut part ∧ UpToPlus part back ∧ hasDice part = false := by
  rcases cut_or_inside (fun f hf => (uncut f hf).balanced) none whole with
    ⟨left, right, some, some', same, -, rfl⟩ | ⟨left, start, rest, right, same, none', -⟩
  · cases left with
    | nil => exact absurd rfl some
    | cons _ left =>
      cases right with
      | nil => exact absurd rfl some'
      | cons part right =>
        cases same
        have self : Uncut part := uncut part (by simp)
        exact ⟨part, self, upToPlus_join self right, diceless part (by simp)⟩
  · rw [same] at uncut
    exact absurd none' (not_noneOpen_of_uncut (uncut (start ++ '+' :: rest) (by simp)) rfl)

/-- A text is cut at plus signs outside of parentheses only. In front of a cut
as many parentheses are closed as are opened. -/
theorem noneOpen_of_cutAfter (balanced : text.Balanced) (cut : CutAfter (cutSegments text) before) :
    before.NoneOpen ∧ ∃ after, text = before ++ '+' :: after := by
  obtain ⟨left, right, some, some', same, rfl⟩ := cut
  refine ⟨noneOpen_of_balanced (balanced_join fun piece mem => ?_), join ['+'] right, ?_⟩
  · exact (cutSegments_of_mem balanced (same ▸ List.mem_append_left right mem)).1
  · rw [← join_append some some', ← same, join_cutSegments]

/-- Behind a cut there are dice before the next outer plus sign. The first
segment is not behind a cut. -/
theorem exists_dice_of_mem_tail (balanced : text.Balanced)
    (mem : piece ∈ (cutSegments text).tail) :
    ∃ part, UpToPlus part piece ∧ ('d' ∈ part ∨ 'D' ∈ part) := by
  obtain ⟨group, groups, cut, each⟩ := exists_uncut_groups balanced
  rw [cut, List.map_cons, List.tail_cons, List.mem_map] at mem
  obtain ⟨fragments, inside, rfl⟩ := mem
  obtain ⟨first, more, rfl, uncut, -, dice⟩ := each fragments (by simp [inside])
  have up := upToPlus_join (uncut first (by simp)) more
  exact ⟨first, up, (hasDice_iff_mem first).1 (dice inside)⟩

/-- Behind an outer plus sign that is no cut there are none. So dice decide
exactly where a text is cut. -/
theorem exists_diceless_of_not_cutAfter (balanced : text.Balanced)
    (split : text = before ++ '+' :: after) (none : before.NoneOpen)
    (kept : ¬ CutAfter (cutSegments text) before) :
    ∃ part, UpToPlus part after ∧ 'd' ∉ part ∧ 'D' ∉ part := by
  rcases cut_or_inside (fun piece mem => (cutSegments_of_mem balanced mem).1) none
      ((join_cutSegments text).trans split) with
    ⟨left, right, some, some', same, here, -⟩ | ⟨left, front, back, right, same, none', rfl⟩
  · exact absurd ⟨left, right, some, some', same, here⟩ kept
  · obtain ⟨group, groups, cut, each⟩ := exists_uncut_groups balanced
    have mem : front ++ '+' :: back ∈ cutSegments text := by simp [same]
    rw [cut] at mem
    obtain ⟨fragments, inside, segment⟩ := List.mem_map.1 mem
    obtain ⟨first, more, rfl, uncut, diceless, -⟩ := each fragments inside
    obtain ⟨part, self, up, dice⟩ := exists_behind uncut diceless none' segment
    have bare := mt (hasDice_iff_mem part).2 (by simp [dice])
    -- the next outer plus sign may be the one at which the segment ends
    exact ⟨part, up.join_cons (noneOpen_of_balanced self.balanced) right, not_or.1 bare⟩

/-- **A balanced text is cut without loss, exactly where dice follow.** Its
segments are the text again with plus signs between them, these plus signs are
outside of all parentheses, and behind each of them there are dice before the
next outer plus sign. Behind every other outer plus sign there are none. A
segment is its own only segment. -/
theorem segments_cut (balanced : text.Balanced) : ∃ pieces, segments 0 text = .ok pieces ∧
    pieces ≠ [] ∧ join ['+'] pieces = text ∧
    (∀ before, CutAfter pieces before →
      before.NoneOpen ∧ ∃ after, text = before ++ '+' :: after) ∧
    (∀ piece ∈ pieces.tail, ∃ part, UpToPlus part piece ∧ ('d' ∈ part ∨ 'D' ∈ part)) ∧
    (∀ before after, text = before ++ '+' :: after → before.NoneOpen → ¬ CutAfter pieces before →
      ∃ part, UpToPlus part after ∧ 'd' ∉ part ∧ 'D' ∉ part) ∧
    ∀ piece ∈ pieces, segments 0 piece = .ok [piece] := by
  refine ⟨cutSegments text, segments_ok (unbalanced?_eq_none balanced 0), cutSegments_ne_nil text,
    join_cutSegments text, fun before => noneOpen_of_cutAfter balanced,
    fun piece => exists_dice_of_mem_tail balanced,
    fun before after => exists_diceless_of_not_cutAfter balanced, fun piece mem => ?_⟩
  obtain ⟨inner, alone⟩ := cutSegments_of_mem balanced mem
  rw [segments_ok (unbalanced?_eq_none inner 0), alone]

/-- Three dice with constants, cut at two of four outer plus signs. -/
def constants : Text := "2d3+4+(d6+1)*2+d8+5".toList

/-- The last plus sign is kept, since no dice are behind it. The first one is
kept for the same reason, and the one in parentheses is no outer one. -/
theorem segments_cut_constants : constants.Balanced ∧
    segments 0 constants = .ok ["2d3+4".toList, "(d6+1)*2".toList, "d8+5".toList] ∧
    ∃ part, UpToPlus part "5".toList ∧ 'd' ∉ part ∧ 'D' ∉ part := by
  have scanned : unbalanced? 0 0 constants = none := rfl
  have balanced : constants.Balanced := balanced_of_unbalanced? scanned
  have cut : segments 0 constants = .ok ["2d3+4".toList, "(d6+1)*2".toList, "d8+5".toList] := by
    decide +kernel
  refine ⟨balanced, cut, ?_⟩
  obtain ⟨pieces, same, -, -, cuts, dice, kept, -⟩ := segments_cut balanced
  obtain rfl := Except.ok.inj (same.symm.trans cut)
  refine kept "2d3+4+(d6+1)*2+d8".toList "5".toList rfl rfl fun cutAfter => ?_
  -- the first one or two segments are shorter than what is in front of this sign
  obtain ⟨left, right, some, some', three, joined⟩ := cutAfter
  match left, three, joined with
  | [], _, _ => exact some rfl
  | [_], rfl, joined => exact absurd joined (by decide)
  | [_, _], rfl, joined => exact absurd joined (by decide)
  | _ :: _ :: _ :: _, three, _ =>
    simp at three
    exact some' three.2.2.2.2

end Notation

end Dice
