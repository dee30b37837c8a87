import Dice.Proofs.Notation.Segments
import Dice.Proofs.Notation.Shifted

/-!
# Reading segment by segment

A notation is read as the sum of what its segments are read as on their own. A
segment alone is cut no further (`cutSegments_of_mem`), so it is read as it is
read in its place, but for the byte at which it begins there, and that moves
the positions of faults and nothing else (`readPieceWithin_shifts`). No
segment is read as an empty pool, so the sum keeps all of them.

Segments are read from left to right up to the first one that is refused. So
either all of them are accepted, or there is such a first one
(`accepted_or_first_error`), and the two cases have a lemma each. In the
second one the place of the segment is the number of bytes of those before it,
with one more for each plus sign between them.

Main statement: `parse_piecewise`.
-/

namespace Dice.Notation

open Text

variable {text piece : Text} {pieces before after : List Text} {trees : List Expr}
  {read : Nat → Text → Reading Expr}

/-! ## Where a segment begins -/

/-- The text in front of a segment that comes after some others. Its bytes are
the offset of the segment. -/
def leading (before : List Text) : Text := before.flatMap (· ++ ['+'])

/-- A segment stands behind the ones before it, and those after it begin with
their plus signs. -/
theorem join_append_cons (before : List Text) (piece : Text) (after : List Text) :
    join ['+'] (before ++ piece :: after) =
      leading before ++ piece ++ after.flatMap ('+' :: ·) := by
  induction before generalizing piece after with
  | nil =>
    induction after generalizing piece with
    | nil => simp [leading]
    | cons next rest ih =>
      have tail := ih next
      rw [List.nil_append, join_cons_cons]
      rw [List.nil_append] at tail
      simp [tail, leading]
  | cons first rest ih =>
    cases rest with
    | nil =>
      rw [List.singleton_append, join_cons_cons, ← List.nil_append (piece :: after), ih]
      simp [leading]
    | cons second rest =>
      rw [List.cons_append, List.cons_append, join_cons_cons, ← List.cons_append, ih]
      simp [leading]

/-! ## Reading all segments -/

/-- If all segments are accepted on their own, they are accepted one after the
other, as the same expressions. -/
theorem readAll_of_map_eq (shifts : Shifts read)
    (each : pieces.map (fun piece => (read 0 piece).result) = trees.map .ok)
    (offset : Nat) (visits : Array Visit) (earlier : List Expr) :
    (readAll read offset visits earlier pieces).result = .ok (earlier.reverse ++ trees) := by
  induction pieces generalizing trees offset visits earlier with
  | nil =>
    obtain rfl : trees = [] := by simpa using each.symm
    simp [readAll_nil]
  | cons piece rest ih =>
    obtain ⟨e, trees, rfl, head, tail⟩ := List.map_eq_cons_iff.1 each.symm
    have first : (read 0 piece).result = .ok e := head.symm
    have moved := (first ▸ shifts offset 0 piece).eq_ok
    rw [Nat.zero_add] at moved
    rw [readAll_cons, moved]
    simpa using ih tail.symm _ _ (e :: earlier)

/-- If a segment is refused on its own and all before it are accepted, reading
ends there with the same fault, as many bytes further on. -/
theorem readAll_of_first_error (shifts : Shifts read) {error : ParseError}
    (accepted : ∀ p ∈ before, ∃ e, (read 0 p).result = .ok e)
    (refused : (read 0 piece).result = .error error) (after : List Text) (offset : Nat)
    (visits : Array Visit) (earlier : List Expr) :
    ∃ (fault : Fault) (position : Nat), error = fault.located position ∧
      (readAll read offset visits earlier (before ++ piece :: after)).result =
        .error (fault.located (position + (offset + (leading before).byteLength))) := by
  induction before generalizing offset visits earlier with
  | nil =>
    obtain ⟨fault, position, rfl, moved⟩ := (refused ▸ shifts offset 0 piece).eq_error
    rw [Nat.zero_add] at moved
    refine ⟨fault, position, rfl, ?_⟩
    rw [List.nil_append, readAll_cons, moved]
    rfl
  | cons p rest ih =>
    obtain ⟨e, ok⟩ := accepted p (by simp)
    have moved := (ok ▸ shifts offset 0 p).eq_ok
    rw [Nat.zero_add] at moved
    have tail := ih (fun x hx => accepted x (by simp [hx]))
    -- one more segment in front moves the error by its bytes and its plus sign
    have size : (leading (p :: rest)).byteLength =
        p.byteLength + 1 + (leading rest).byteLength := by
      simp only [leading, List.flatMap_cons, byteLength_append, byteLength_cons, byteLength_nil]
      rfl
    rw [List.cons_append, readAll_cons, moved, size, ← Nat.add_assoc, ← Nat.add_assoc]
    exact tail _ _ _

/-! ## Segments on their own -/

/-- A text that is cut without a fault is balanced, and its segments are the
cuts. -/
theorem balanced_of_segments (cut : segments 0 text = .ok pieces) :
    text.Balanced ∧ cutSegments text = pieces := by
  unfold segments at cut
  split at cut
  next => cases cut
  next sound => exact ⟨balanced_of_unbalanced? sound, Except.ok.inj cut⟩

/-- A text with a segment that is not blank is not blank. -/
theorem blank_of_segments (cut : segments 0 text = .ok pieces)
    (solid : ∀ piece ∈ pieces, piece.blank = false) : text.blank = false := by
  obtain ⟨-, rfl⟩ := balanced_of_segments cut
  obtain ⟨piece, mem⟩ := List.exists_mem_of_ne_nil _ (cutSegments_ne_nil text)
  obtain ⟨before, after, split⟩ := List.append_of_mem mem
  have whole := join_cutSegments text
  rw [split, join_append_cons] at whole
  have some := solid piece mem
  rw [← whole]
  simp only [blank, List.all_append] at some ⊢
  simp [some]

/-- A notation is what its segments combine to, if none of them is blank. The
cut is made once, at the front. -/
theorem parse_of_segments (cut : segments 0 text = .ok pieces)
    (solid : ∀ piece ∈ pieces, piece.blank = false) :
    parse text = (readAll (readPieceWithin nestingLimit) 0 #[] [] pieces).result.map combine := by
  rw [parse, compile, readText, blank_of_segments cut solid, if_neg Bool.false_ne_true, cut]

/-- A segment alone is read as it is read in its place, had it begun there. It
is not cut further. -/
theorem parse_of_mem_segments (cut : segments 0 text = .ok pieces) (mem : piece ∈ pieces)
    (solid : piece.blank = false) :
    parse piece = (readPieceWithin nestingLimit 0 piece).result := by
  obtain ⟨balanced, rfl⟩ := balanced_of_segments cut
  obtain ⟨balanced, alone⟩ := cutSegments_of_mem balanced mem
  have single : segments 0 piece = .ok [piece] := by
    rw [segments_ok (unbalanced?_eq_none balanced 0), alone]
  rw [parse_of_segments single (by simpa using solid), readAll_cons]
  cases (readPieceWithin nestingLimit 0 piece).result <;> rfl

/-- Expressions with members of their own add up to the pool of them, none left
out. -/
theorem combine_of_length_ne_one (some : ∀ e ∈ trees, e.isEmpty = false)
    (several : trees.length ≠ 1) : combine trees = .pool trees := by
  have normal : Expr.Normal trees := by
    refine ⟨some, ?_⟩
    rintro inner rfl
    exact several rfl
  unfold combine
  split
  next e => exact absurd rfl several
  next => rw [Expr.sum, Expr.sumMembers_of_normal normal]

theorem isEmpty_of_parse {e : Expr} (solid : text.blank = false) (ok : parse text = .ok e) :
    e.isEmpty = false := Expr.isEmpty_of_legible (legible_of_parse solid ok)

/-! ## The whole notation -/

/-- Either all texts are accepted, or there is a first one that is refused. The
induction is on their list. -/
theorem accepted_or_first_error (pieces : List Text) :
    (∃ trees : List Expr, pieces.map parse = trees.map .ok) ∨
      ∃ before piece after error, pieces = before ++ piece :: after ∧
        (∀ p ∈ before, ∃ e, parse p = .ok e) ∧ parse piece = .error error := by
  induction pieces with
  | nil => exact .inl ⟨[], rfl⟩
  | cons first rest ih =>
    cases read : parse first with
    | error error => exact .inr ⟨[], first, rest, error, rfl, by simp, read⟩
    | ok e =>
      rcases ih with ⟨trees, each⟩ | ⟨before, piece, after, error, rfl, accepted, refused⟩
      · exact .inl ⟨e :: trees, by simp [read, each]⟩
      · exact .inr ⟨first :: before, piece, after, error, rfl,
          List.forall_mem_cons.2 ⟨⟨e, read⟩, accepted⟩, refused⟩

theorem exists_parse_eq_of_mem (each : pieces.map parse = trees.map .ok) {e : Expr}
    (mem : e ∈ trees) : ∃ piece ∈ pieces, parse piece = .ok e := by
  have ok : Except.ok e ∈ pieces.map parse := by
    rw [each]
    exact List.mem_map_of_mem mem
  simpa using ok

/-- If all segments are accepted, the notation is what they combine to. A single
one stays what it is. -/
theorem parse_of_map_eq (cut : segments 0 text = .ok pieces)
    (solid : ∀ piece ∈ pieces, piece.blank = false) (each : pieces.map parse = trees.map .ok) :
    parse text = .ok (combine trees) := by
  have alone : pieces.map (fun piece => (readPieceWithin nestingLimit 0 piece).result) =
      trees.map .ok := by
    rw [← each]
    exact List.map_congr_left fun piece mem =>
      (parse_of_mem_segments cut mem (solid piece mem)).symm
  rw [parse_of_segments cut solid,
    readAll_of_map_eq (readPieceWithin_shifts nestingLimit) alone 0 #[] []]
  rfl

/-- If there is a first segment that is refused, the notation is refused for the
same fault. -/
theorem parse_of_first_error {error : ParseError}
    (cut : segments 0 text = .ok (before ++ piece :: after))
    (solid : ∀ p ∈ before ++ piece :: after, p.blank = false)
    (accepted : ∀ p ∈ before, ∃ e, parse p = .ok e) (refused : parse piece = .error error) :
    ∃ (fault : Fault) (position : Nat), error = fault.located position ∧
      parse text = .error (fault.located (position + (leading before).byteLength)) := by
  have alone : ∀ p ∈ before ++ piece :: after,
      parse p = (readPieceWithin nestingLimit 0 p).result :=
    fun p mem => parse_of_mem_segments cut mem (solid p mem)
  have ok : ∀ p ∈ before, ∃ e, (readPieceWithin nestingLimit 0 p).result = .ok e := fun p mem =>
    alone p (List.mem_append_left _ mem) ▸ accepted p mem
  have first : (readPieceWithin nestingLimit 0 piece).result = .error error :=
    alone piece (by simp) ▸ refused
  obtain ⟨fault, position, same, read⟩ :=
    readAll_of_first_error (readPieceWithin_shifts nestingLimit) ok first after 0 #[] []
  refine ⟨fault, position, same, ?_⟩
  rw [parse_of_segments cut solid, read, Nat.zero_add]
  rfl

/-- **A notation is read segment by segment.** It is accepted exactly when each
of its segments is: as the only one, or as the pool of all of them. Otherwise
the fault is that of the first segment that is refused, at its position there
plus the bytes in front of that segment. -/
theorem parse_piecewise (cut : segments 0 text = .ok pieces)
    (solid : ∀ piece ∈ pieces, piece.blank = false) :
    ((∃ e, parse text = .ok e) ↔ ∀ piece ∈ pieces, ∃ e, parse piece = .ok e) ∧
    (∀ trees, pieces.map parse = trees.map .ok →
      (∀ e, trees = [e] → parse text = .ok e) ∧
      (trees.length ≠ 1 → parse text = .ok (.pool trees))) ∧
    ∀ before piece after error, pieces = before ++ piece :: after →
      (∀ p ∈ before, ∃ e, parse p = .ok e) → parse piece = .error error →
        text = leading before ++ piece ++ after.flatMap ('+' :: ·) ∧
        ∃ (fault : Fault) (position : Nat), error = fault.located position ∧
          parse text = .error (fault.located (position + (leading before).byteLength)) := by
  refine ⟨⟨?_, ?_⟩, ?_, ?_⟩
  -- a segment that is refused would have made the whole refused
  · rintro ⟨e, ok⟩ piece mem
    rcases accepted_or_first_error pieces with
      ⟨trees, each⟩ | ⟨before, piece, after, error, rfl, accepted, refused⟩
    · have read : parse piece ∈ trees.map .ok := each ▸ List.mem_map_of_mem mem
      obtain ⟨e, -, same⟩ := List.mem_map.1 read
      exact ⟨e, same.symm⟩
    · obtain ⟨fault, position, -, failed⟩ := parse_of_first_error cut solid accepted refused
      rw [failed] at ok
      cases ok
  · intro accepted
    rcases accepted_or_first_error pieces with
      ⟨trees, each⟩ | ⟨before, piece, after, error, rfl, -, refused⟩
    · exact ⟨_, parse_of_map_eq cut solid each⟩
    · obtain ⟨e, ok⟩ := accepted piece (by simp)
      rw [refused] at ok
      cases ok
  -- no summand is empty, so none of them is left out of the sum
  · intro trees each
    have ok := parse_of_map_eq cut solid each
    refine ⟨?_, fun several => ?_⟩
    · rintro e rfl
      exact ok
    · have some : ∀ e ∈ trees, e.isEmpty = false := fun e mem => by
        obtain ⟨piece, inside, read⟩ := exists_parse_eq_of_mem each mem
        exact isEmpty_of_parse (solid piece inside) read
      rw [ok, combine_of_length_ne_one some several]
  · rintro before piece after error rfl accepted refused
    refine ⟨?_, parse_of_first_error cut solid accepted refused⟩
    obtain ⟨-, same⟩ := balanced_of_segments cut
    rw [← join_append_cons, ← same, join_cutSegments]

/-- Segments of which the third is refused, after a blank of three bytes in the
second. -/
def spoilt : List Text := ["(d6+d4)*2", "\u3000d8+1", "d6 d4", "3d6"].map String.toList

/-- The fault at byte 5 of the third segment is one at byte 23 of the notation. -/
theorem parse_piecewise_spoilt : segments 0 (join ['+'] spoilt) = .ok spoilt ∧
    (∀ piece ∈ spoilt, piece.blank = false) ∧
    parse "d6 d4".toList = .error ((Fault.unexpectedToken "Dice").located 5) ∧
    parse (join ['+'] spoilt) = .error ((Fault.unexpectedToken "Dice").located 23) := by
  have cut : segments 0 (join ['+'] spoilt) = .ok spoilt := by decide +kernel
  have solid : ∀ piece ∈ spoilt, piece.blank = false := by decide +kernel
  have refused : parse "d6 d4".toList = .error ((Fault.unexpectedToken "Dice").located 5) := by
    decide +kernel
  have accepted : ∀ p ∈ spoilt.take 2, ∃ e, parse p = .ok e := by
    have read : ∀ p ∈ spoilt.take 2, (parse p).isOk = true := by decide +kernel
    intro p mem
    cases ok : parse p with
    | ok e => exact ⟨e, rfl⟩
    | error error => simpa [ok, Except.isOk, Except.toBool] using read p mem
  obtain ⟨-, -, moved⟩ := parse_piecewise cut solid
  obtain ⟨-, fault, position, same, failed⟩ :=
    moved (spoilt.take 2) "d6 d4".toList ["3d6".toList] _ rfl accepted refused
  cases same
  exact ⟨cut, solid, refused, failed⟩

end Dice.Notation
