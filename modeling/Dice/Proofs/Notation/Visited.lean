import Dice.Log

/-!
# Where segments were met

Every segment that is met while a notation is compiled is told with the byte
at which it begins. That is put together on the way down: a text begins where
the one around it does, or one parenthesis behind that; its segments lie one
plus sign apart; and blanks in front of a segment are left out.

`Traced` says of some visits that they stand in a text that begins at a given
byte, and that each begins behind the one before it. It is kept by every step
from the segments to the texts that hold them, whether reading ends with a
fault or not.

That the bytes of a segment stand at its offset follows from where it stands
among the characters. The offsets increase from one event to the next, also
from a segment to those in its parentheses, since these begin behind the
opening one.

Main statement: `visited_segments`.
-/

namespace Dice

open Text

/-! ## Bytes -/

/-- The UTF-8 bytes of a text. There are as many as `byteLength` counts. -/
def Text.bytes (text : Text) : List UInt8 := text.flatMap String.utf8EncodeChar

theorem Text.bytes_append (a b : Text) : bytes (a ++ b) = a.bytes ++ b.bytes :=
  List.flatMap_append

theorem Text.length_bytes (text : Text) : text.bytes.length = text.byteLength := by
  induction text with
  | nil => rfl
  | cons c rest ih =>
    rw [bytes, List.flatMap_cons, List.length_append, String.length_utf8EncodeChar,
      byteLength_cons]
    exact congrArg (c.utf8Size + ·) ih

/-- The bytes of a part of a text, at the byte where the part begins. This is
how a part is found by its offset. -/
theorem Text.take_drop_bytes (before part after : Text) :
    ((bytes (before ++ part ++ after)).drop before.byteLength).take part.byteLength =
      part.bytes := by
  rw [bytes_append, bytes_append, List.append_assoc, ← length_bytes, ← length_bytes,
    List.drop_left, List.take_left]

namespace Notation

variable {offset : Nat} {text front back : Text} {visits later : List Visit}
  {read : Nat → Text → Reading Expr}

/-! ## Visits in a text -/

/-- Whether visits are of parts of a text that begins at byte `offset`, each at
the byte where the part begins, and each behind the one before it. -/
structure Traced (offset : Nat) (text : Text) (visits : List Visit) : Prop where
  stands : ∀ visit ∈ visits, ∃ before after, text = before ++ visit.text ++ after ∧
    visit.offset = offset + before.byteLength
  rising : visits.Pairwise (·.offset < ·.offset)

theorem Traced.nil (offset : Nat) (text : Text) : Traced offset text [] := ⟨by simp, .nil⟩

theorem Traced.whole (offset : Nat) (text : Text) : Traced offset text [⟨text, offset⟩] :=
  ⟨List.forall_mem_singleton.2 ⟨[], [], by simp, by simp⟩, by simp⟩

/-- Visits begin where the text begins or behind that, and not behind its end.
So visits of a part in front come before those of the rest. -/
theorem Traced.between (traced : Traced offset text visits) :
    ∀ visit ∈ visits, offset ≤ visit.offset ∧ visit.offset ≤ offset + text.byteLength := by
  intro visit mem
  obtain ⟨before, after, rfl, start⟩ := traced.stands visit mem
  rw [byteLength_append, byteLength_append]
  omega

/-- Visits of a part of a text are visits of the text. -/
theorem Traced.widen (front : Text) (traced : Traced (offset + front.byteLength) text visits)
    (back : Text) : Traced offset (front ++ text ++ back) visits := by
  refine ⟨fun visit mem => ?_, traced.rising⟩
  obtain ⟨before, after, rfl, start⟩ := traced.stands visit mem
  refine ⟨front ++ before, after ++ back, by simp, ?_⟩
  rw [start, byteLength_append, Nat.add_assoc]

/-- Visits of two parts with a plus sign between them. The sign takes one byte. -/
theorem Traced.append (traced : Traced offset front visits)
    (traced' : Traced (offset + front.byteLength + 1) back later) :
    Traced offset (front ++ '+' :: back) (visits ++ later) := by
  have one : byteLength ['+'] = 1 := by decide
  have left : Traced offset (front ++ '+' :: back) visits := by
    simpa using Traced.widen [] traced ('+' :: back)
  have right : Traced offset (front ++ '+' :: back) later := by
    have start : offset + byteLength (front ++ ['+']) = offset + front.byteLength + 1 := by
      rw [byteLength_append, one, Nat.add_assoc]
    simpa using Traced.widen (front ++ ['+']) (start ▸ traced') []
  refine ⟨List.forall_mem_append.2 ⟨left.stands, right.stands⟩,
    List.pairwise_append.2 ⟨traced.rising, traced'.rising, fun visit mem visit' mem' => ?_⟩⟩
  have before := (traced.between visit mem).2
  have behind := (traced'.between visit' mem').1
  omega

/-- The visit of a text as a whole comes before those of what is behind its
first character. -/
theorem Traced.cons (traced : Traced (offset + 1) text visits) {first : Char}
    (one : first.utf8Size = 1) (back : Text) :
    Traced offset (first :: (text ++ back)) (⟨first :: (text ++ back), offset⟩ :: visits) := by
  have inner : Traced offset (first :: (text ++ back)) visits :=
    Traced.widen [first] (by simpa [one] using traced) back
  refine ⟨List.forall_mem_append.2 ⟨(Traced.whole offset _).stands, inner.stands⟩,
    List.pairwise_cons.2 ⟨fun visit mem => ?_, traced.rising⟩⟩
  exact (traced.between visit mem).1

/-! ## Cuts -/

/-- The segments of a text make it up, wherever it begins. There are plus signs
between them and nothing else. -/
theorem join_of_segments {pieces : List Text} (cut : segments offset text = .ok pieces) :
    join ['+'] pieces = text := by
  unfold segments at cut
  split at cut
  next => cases cut
  next =>
    cases cut
    exact join_cutSegments text

/-- A text is cut at the parenthesis that closes it, and nothing else is lost.
What was seen `before` is in reverse. -/
theorem reverse_append_of_splitAtClose {depth : Nat} {before interior suffix : Text}
    (cut : splitAtClose depth before text = some (interior, suffix)) :
    before.reverse ++ text = interior ++ ')' :: suffix := by
  fun_induction splitAtClose depth before text with
  | case1 => cases cut
  | case2 depth before rest ih => simpa using ih cut
  | case3 before rest =>
    cases cut
    rfl
  | case4 before rest depth closes ih => simpa using ih cut
  | case5 depth before c rest opens closes ih => simpa using ih cut

/-! ## Visits of readers -/

/-- Whether whatever is read of a text visits parts of it. It holds of texts
that are refused as well. -/
def Traces (read : Nat → Text → Reading Expr) : Prop :=
  ∀ offset text, Traced offset text (read offset text).visits.toList

/-- Segments that are read one after the other visit parts of the text that they
make up, and those behind a fault are not met. -/
theorem Traces.readAll (traces : Traces read) (pieces : List Text) :
    ∀ (offset : Nat) (visits : Array Visit) (trees : List Expr), ∃ more,
      (readAll read offset visits trees pieces).visits.toList = visits.toList ++ more ∧
        Traced offset (join ['+'] pieces) more := by
  induction pieces with
  | nil => exact fun offset visits trees => ⟨[], by simp [readAll_nil], .nil _ _⟩
  | cons piece rest ih =>
    intro offset visits trees
    have first := traces offset piece
    rw [readAll_cons]
    split
    next =>
      -- the rest of the text is not read
      refine ⟨_, Array.toList_append, ?_⟩
      cases rest with
      | nil => rwa [join_singleton]
      | cons next rest =>
        rw [join_cons_cons, List.append_assoc]
        simpa using Traced.widen [] first (['+'] ++ join ['+'] (next :: rest))
    next tree _ =>
      obtain ⟨more, same, traced⟩ := ih (offset + piece.byteLength + 1)
        (visits ++ (read offset piece).visits) (tree :: trees)
      refine ⟨(read offset piece).visits.toList ++ more, by rw [same]; simp, ?_⟩
      cases rest with
      | nil =>
        have none : more = [] := by simpa [readAll_nil] using same.symm
        rw [none, List.append_nil, join_singleton]
        exact first
      | cons next rest =>
        rw [join_cons_cons, List.append_assoc]
        exact first.append traced

/-- A text visits parts of itself through its segments. The offset of each is
that of the text and of what is in front. -/
theorem Traces.readText (traces : Traces read) : Traces (readText read) := by
  intro offset text
  unfold Notation.readText
  split
  next => exact .nil _ _
  next =>
    cases cut : segments offset text with
    | error error => exact .nil _ _
    | ok pieces =>
      obtain ⟨more, same, traced⟩ := traces.readAll pieces offset #[] []
      rw [join_of_segments cut] at traced
      dsimp only
      rw [same]
      exact traced

/-- In parentheses a text is met one byte behind that of the segment. -/
theorem Traces.readNested {inner : Option (Nat → Text → Reading Expr)}
    (traces : ∀ read ∈ inner, Traces read) (offset : Nat) (rest : Text) :
    Traced offset ('(' :: rest)
      (⟨'(' :: rest, offset⟩ :: (readNested inner offset rest).visits.toList) := by
  have alone := Traced.whole offset ('(' :: rest)
  unfold Notation.readNested
  cases inner with
  | none => exact alone
  | some read =>
    cases cut : splitAtClose 0 [] rest with
    | none => exact alone
    | some parts =>
      obtain ⟨interior, suffix⟩ := parts
      dsimp only
      split
      next => exact alone
      next =>
        have nested := Traces.readText (traces read rfl) (offset + 1) interior
        have whole : rest = interior ++ ')' :: suffix := by
          simpa using reverse_append_of_splitAtClose cut
        -- the segments inside stand one byte behind the opening parenthesis
        rw [whole]
        exact nested.cons (by decide) _

/-- A segment is met without the blanks around it, at the byte behind those in
front. -/
theorem Traces.readPiece {inner : Option (Nat → Text → Reading Expr)}
    (traces : ∀ read ∈ inner, Traces read) : Traces (readPiece inner) := by
  intro offset piece
  obtain ⟨back, -, ends⟩ := exists_trimEnd_append piece.trimStart
  have starts := takeWhile_append_trimStart piece
  -- the segment begins behind the blanks in front of it
  have place : offset + (piece.byteLength - piece.trimStart.byteLength) =
      offset + byteLength (piece.takeWhile isBlank) := by
    have size := congrArg byteLength starts
    rw [byteLength_append] at size
    omega
  have inside : ∀ visits, Traced (offset + byteLength (piece.takeWhile isBlank))
      piece.trimStart.trimEnd visits → Traced offset piece visits := by
    intro visits traced
    have wide := Traced.widen (piece.takeWhile isBlank) traced back
    rwa [List.append_assoc, ends, starts] at wide
  unfold Notation.readPiece
  dsimp only
  rw [place]
  generalize offset + byteLength (piece.takeWhile isBlank) = place at inside ⊢
  generalize piece.trimStart.trimEnd = text at inside ⊢
  refine inside _ ?_
  cases text with
  | nil => exact .whole place []
  | cons first rest =>
    dsimp only
    split
    next opens =>
      subst opens
      simpa using Traces.readNested traces place rest
    next => exact .whole place (first :: rest)

theorem traces_readPieceWithin (levels : Nat) : Traces (readPieceWithin levels) := by
  induction levels with
  | zero => exact Traces.readPiece (by simp)
  | succ levels ih => exact Traces.readPiece (by simpa using ih)

/-- What is visited while a notation is compiled stands in it, in this order.
The induction is on the levels of parentheses. -/
theorem traced_compile (text : Text) : Traced 0 text (compile text).visits.toList :=
  (traces_readPieceWithin nestingLimit).readText 0 text

end Notation

open Notation

namespace LogEvent

/-- The segment that an event tells of. -/
def visit? : LogEvent → Option Visit
  | segment visit => some visit
  | _ => none

/-- The segments that the events of a compilation tell of are those that it
visits. -/
theorem filterMap_visit? (text : Text) :
    (ofCompilation text).filterMap visit? = (compile text).visits.toList := by
  have told : ((compile text).visits.toList.map segment).filterMap visit? =
      (compile text).visits.toList := by
    rw [List.filterMap_map]
    exact List.filterMap_some
  unfold ofCompilation
  dsimp only
  cases (compile text).result with
  | error error => exact told
  | ok e => rw [List.filterMap_append, told]; exact List.append_nil _

end LogEvent

/-- **Every segment that an event tells of stands where the event says.** Its
text is the part of the notation from its offset on, byte by byte, and that part
begins and ends between characters. The offsets of the events increase. -/
theorem visited_segments (text : Text) :
    (∀ visit, LogEvent.segment visit ∈ LogEvent.ofCompilation text →
      (text.bytes.drop visit.offset).take visit.text.byteLength = visit.text.bytes ∧
      ∃ before after, text = before ++ visit.text ++ after ∧
        before.byteLength = visit.offset) ∧
    ((LogEvent.ofCompilation text).filterMap LogEvent.visit?).Pairwise (·.offset < ·.offset) := by
  have traced := traced_compile text
  rw [← LogEvent.filterMap_visit?] at traced
  refine ⟨fun visit told => ?_, traced.rising⟩
  obtain ⟨before, after, whole, start⟩ :=
    traced.stands visit (List.mem_filterMap.2 ⟨_, told, rfl⟩)
  rw [Nat.zero_add] at start
  refine ⟨?_, before, after, whole, start.symm⟩
  rw [start, whole, take_drop_bytes]

/-- Blanks of three and of two bytes, parentheses in parentheses, and a fault
before the last segment. -/
def straggling : Text := "\u3000(d6+(\u00a02d4!)*2)+ d8\u00e9+d6".toList

/-- The segment inside of both parentheses begins behind blanks of three and of
two bytes, and the one behind the fault is not met. -/
theorem visited_segments_straggling :
    (LogEvent.ofCompilation straggling).filterMap LogEvent.visit? =
      [⟨"(d6+(\u00a02d4!)*2)".toList, 3⟩, ⟨"d6".toList, 4⟩, ⟨"(\u00a02d4!)*2".toList, 7⟩,
        ⟨"2d4!".toList, 10⟩, ⟨"d8\u00e9".toList, 20⟩] ∧
    (straggling.bytes.drop 10).take 4 = bytes "2d4!".toList ∧
    ((LogEvent.ofCompilation straggling).filterMap LogEvent.visit?).Pairwise
      (·.offset < ·.offset) := by
  have met : (LogEvent.ofCompilation straggling).filterMap LogEvent.visit? =
      [⟨"(d6+(\u00a02d4!)*2)".toList, 3⟩, ⟨"d6".toList, 4⟩, ⟨"(\u00a02d4!)*2".toList, 7⟩,
        ⟨"2d4!".toList, 10⟩, ⟨"d8\u00e9".toList, 20⟩] := by decide +kernel
  -- the segment inside begins behind a blank of two bytes
  have told : LogEvent.segment ⟨"2d4!".toList, 10⟩ ∈ LogEvent.ofCompilation straggling := by
    have mem : (⟨"2d4!".toList, 10⟩ : Visit) ∈
        (LogEvent.ofCompilation straggling).filterMap LogEvent.visit? := by simp [met]
    obtain ⟨event, told, same⟩ := List.mem_filterMap.1 mem
    cases event with
    | segment visit =>
      cases same
      exact told
    | compiled source written => cases same
    | toss made => cases same
  obtain ⟨stands, rising⟩ := visited_segments straggling
  exact ⟨met, (stands _ told).1, rising⟩

end Dice
