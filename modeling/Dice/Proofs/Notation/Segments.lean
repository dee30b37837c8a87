import Dice.Proofs.Notation.Parsed
import Dice.Proofs.Notation.Written

/-!
# What segments are made of

A text in which no parenthesis lacks its partner is balanced
(`balanced_of_unbalanced?`), and each fragment of a balanced text is balanced
again and has no outer plus sign. A segment is a group of fragments that
follow each other: the first one has dice, unless it is the first of the text,
and the others have none.

So whether a plus sign is a cut is seen from the fragment behind it alone, and
that is the same one in the text and in the segment. It is also the same one
whatever uncut part is put in front of the text.

The groups are found by following how fragments are gathered
(`exists_groups_of_gather`). With them a segment that is cut again has the
fragments of its group, of which only the first may have dice, and so it stays
whole.

Main statements: `exists_groups`, `cutSegments_of_mem` and
`exists_cutSegments_append`.
-/

namespace Dice.Notation

open Text

variable {text : Text}

/-! ## Texts without a fault -/

/-- Where no parenthesis lacks its partner, a balanced part goes up to the first
one that closes a parenthesis opened before it, or to the end of the text. -/
theorem exists_balanced_front (depth index : Nat) (sound : unbalanced? depth index text = none) :
    ∃ inner, inner.Balanced ∧
      match depth with
      | 0 => text = inner
      | depth + 1 => ∃ rest index', text = inner ++ ')' :: rest ∧
          unbalanced? depth index' rest = none := by
  -- what follows a group is no tail of the text, so the induction is on the length
  induction length : text.length using Nat.strongRecOn generalizing text depth index with
  | ind n ih =>
    subst length
    cases text with
    | nil =>
      cases depth with
      | zero => exact ⟨[], .nil, rfl⟩
      | succ depth => simp [unbalanced?] at sound
    | cons c rest =>
      unfold unbalanced? at sound
      split at sound
      next opens =>
        subst opens
        obtain ⟨inside, balanced, after, index', rfl, later⟩ := ih _ (by simp) _ _ sound rfl
        obtain ⟨inner, balanced', found⟩ := ih _ (by simp; omega) _ _ later rfl
        refine ⟨'(' :: inside ++ ')' :: inner, .group inside inner balanced balanced', ?_⟩
        cases depth with
        | zero => rw [found]; rfl
        | succ depth =>
          obtain ⟨rest, index', rfl, left⟩ := found
          exact ⟨rest, index', by simp, left⟩
      next opens =>
        split at sound
        next closes =>
          subst closes
          cases depth with
          | zero => cases sound
          | succ depth => exact ⟨[], .nil, rest, _, rfl, sound⟩
        next closes =>
          obtain ⟨inner, balanced, found⟩ := ih _ (by simp) _ _ sound rfl
          refine ⟨c :: inner, .plain c inner opens closes balanced, ?_⟩
          cases depth with
          | zero => rw [found]
          | succ depth =>
            obtain ⟨rest, index', rfl, left⟩ := found
            exact ⟨rest, index', rfl, left⟩

/-- A text in which no parenthesis lacks its partner is balanced. With
`unbalanced?_eq_none` the search decides what balanced texts are. -/
theorem balanced_of_unbalanced? {index : Nat} (sound : unbalanced? 0 index text = none) :
    text.Balanced := by
  obtain ⟨inner, balanced, rfl⟩ := exists_balanced_front 0 index sound
  exact balanced

/-! ## Fragments -/

theorem uncut_nil : Uncut [] := ⟨.nil, rfl⟩

/-- Cutting collects pieces that are not cut further, if the one that was begun
and those that are done are such pieces. -/
theorem uncut_of_mem_cutAtPluses (balanced : text.Balanced) {piece : Text} {done : List Text}
    (before : Uncut piece.reverse) (each : ∀ fragment ∈ done, Uncut fragment) :
    ∀ fragment ∈ cutAtPluses 0 piece done text, Uncut fragment := by
  induction balanced generalizing piece done with
  | nil =>
    rw [cutAtPluses, List.reverse_cons]
    simpa [or_imp, forall_and] using ⟨each, before⟩
  | plain c rest opens closes _ ih =>
    rw [cutAtPluses, if_neg opens, if_neg closes]
    split
    next => exact ih uncut_nil (List.forall_mem_cons.2 ⟨before, each⟩)
    -- what is no outer plus sign goes with the piece so far
    next stays =>
      have other : c ≠ '+' := fun plus => stays ⟨plus, rfl⟩
      have single : Uncut [c] :=
        ⟨.plain c [] opens closes .nil, hasOuterPlus_of_forall_ne 0 (by simpa using other)⟩
      refine ih ?_ each
      rw [List.reverse_cons]
      exact before.append single
  | group inner rest inside _ _ ih =>
    -- a group goes with it as a whole, since the search passes over it
    have group := uncut_parenthesized inside
    have whole : '(' :: inner ++ ')' :: rest = inner.parenthesized ++ rest := by
      simp [parenthesized]
    rw [whole, cutAtPluses_append group.balanced group.whole]
    refine ih ?_ each
    rw [List.reverse_append, List.reverse_reverse]
    exact before.append group

/-- Each fragment of a balanced text is balanced again, and no plus sign cuts
it. -/
theorem uncut_of_mem_fragments (balanced : text.Balanced) :
    ∀ fragment ∈ fragments text, Uncut fragment :=
  uncut_of_mem_cutAtPluses balanced uncut_nil (by simp)

/-- Balanced pieces with plus signs between them are balanced. -/
theorem balanced_join {pieces : List Text} (each : ∀ piece ∈ pieces, piece.Balanced) :
    (join ['+'] pieces).Balanced := by
  induction pieces with
  | nil => exact .nil
  | cons piece rest ih =>
    have tail := ih fun x hx => each x (by simp [hx])
    cases rest with
    | nil => simpa using each piece (by simp)
    | cons next rest =>
      rw [join_cons_cons, List.append_assoc]
      exact (each piece (by simp)).append (.plain '+' _ (by decide) (by decide) tail)

/-! ## Groups of fragments -/

/-- Whether none of some fragments has dice. Such fragments are constants that
are added to what is in front of them. -/
def Diceless (fragments : List Text) : Prop := ∀ fragment ∈ fragments, hasDice fragment = false

/-- Fragments without dice all go with the segment so far. The plus signs
between them are put back. -/
theorem gather_of_diceless {rest : List Text} (diceless : Diceless rest) (segment : Text)
    (done : List Text) :
    gather segment done rest = done.reverse ++ [join ['+'] (segment :: rest)] := by
  induction rest generalizing segment with
  | nil => simp [gather]
  | cons fragment rest ih =>
    have glue := join_glue ['+'] [] segment fragment rest
    rw [gather, diceless fragment (by simp), if_neg Bool.false_ne_true,
      ih fun x hx => diceless x (by simp [hx])]
    simpa using glue

/-- Fragments that make a segment behind a cut: the first one has dice and the
others have none. -/
def IsGroup (group : List Text) : Prop :=
  ∃ first rest, group = first :: rest ∧ hasDice first = true ∧ Diceless rest

/-- Fragments are gathered into groups: the ones without dice that follow at
once go with the segment so far. -/
theorem exists_groups_of_gather (rest : List Text) (segment : Text) (done : List Text) :
    ∃ more groups, more ++ List.flatten groups = rest ∧ Diceless more ∧
      (∀ group ∈ groups, IsGroup group) ∧
      gather segment done rest =
        done.reverse ++ join ['+'] (segment :: more) :: groups.map (join ['+']) := by
  induction rest generalizing segment done with
  | nil => exact ⟨[], [], rfl, by simp [Diceless], by simp, by simp [gather]⟩
  | cons fragment rest ih =>
    rw [gather]
    split
    next dice =>
      obtain ⟨more, groups, rfl, diceless, each, gathered⟩ := ih fragment (segment :: done)
      exact ⟨[], (fragment :: more) :: groups, by simp, by simp [Diceless],
        List.forall_mem_cons.2 ⟨⟨fragment, more, rfl, dice, diceless⟩, each⟩, by simp [gathered]⟩
    next none =>
      obtain ⟨more, groups, rfl, diceless, each, gathered⟩ := ih (segment ++ '+' :: fragment) done
      have glue := join_glue ['+'] [] segment fragment more
      refine ⟨fragment :: more, groups, rfl,
        List.forall_mem_cons.2 ⟨by simpa using none, diceless⟩, each, ?_⟩
      simpa [gathered] using glue

/-- **The segments of a text are groups of its fragments,** and only the first
group can begin without dice. -/
theorem exists_groups (text : Text) : ∃ first more groups,
    fragments text = first :: more ++ List.flatten groups ∧ Diceless more ∧
      (∀ group ∈ groups, IsGroup group) ∧
      cutSegments text = join ['+'] (first :: more) :: groups.map (join ['+']) := by
  unfold cutSegments
  split
  next none => exact absurd none (cutAtPluses_ne_nil 0 [] [] text)
  next first rest some =>
    obtain ⟨more, groups, rfl, diceless, each, gathered⟩ := exists_groups_of_gather rest first []
    exact ⟨first, more, groups, some, diceless, each, by simpa using gathered⟩

/-! ## Cutting a segment again -/

/-- A group is balanced and makes a single segment, as none of its plus signs
has dice behind it. -/
theorem cutSegments_group {first : Text} {more : List Text} (uncut : ∀ f ∈ first :: more, Uncut f)
    (diceless : Diceless more) :
    (join ['+'] (first :: more)).Balanced ∧
      cutSegments (join ['+'] (first :: more)) = [join ['+'] (first :: more)] := by
  refine ⟨balanced_join fun f hf => (uncut f hf).balanced, ?_⟩
  rw [cutSegments, fragments_join uncut (by simp)]
  exact gather_of_diceless diceless first []

/-- **A segment of a balanced text is balanced, and it is its own only
segment.** -/
theorem cutSegments_of_mem (balanced : text.Balanced) {segment : Text}
    (mem : segment ∈ cutSegments text) : segment.Balanced ∧ cutSegments segment = [segment] := by
  obtain ⟨first, more, groups, whole, diceless, each, cut⟩ := exists_groups text
  have uncut := uncut_of_mem_fragments balanced
  rw [whole] at uncut
  rw [cut] at mem
  rcases List.mem_cons.1 mem with rfl | mem
  · exact cutSegments_group (fun f hf => uncut f (List.mem_append_left _ hf)) diceless
  · obtain ⟨group, inside, rfl⟩ := List.mem_map.1 mem
    obtain ⟨start, rest, rfl, -, diceless⟩ := each group inside
    exact cutSegments_group (fun f hf => uncut f (List.mem_append_right _
      (List.mem_flatten.2 ⟨_, inside, hf⟩))) diceless

/-! ## Cutting behind a part -/

/-- Pieces that are done stay in front of those that are cut later. The search
does not look at them again. -/
theorem cutAtPluses_done (depth : Nat) (piece : Text) (done : List Text) (text : Text) :
    cutAtPluses depth piece done text = done.reverse ++ cutAtPluses depth piece [] text := by
  induction text generalizing depth piece done with
  | nil => simp [cutAtPluses]
  | cons c rest ih =>
    unfold cutAtPluses
    split
    next => exact ih _ _ done
    next =>
      split
      next => exact ih _ _ done
      next =>
        split
        next =>
          rw [ih 0 [] (piece.reverse :: done), ih 0 [] [piece.reverse]]
          simp
        next => exact ih _ _ done

/-- What is in front of a text goes with its first piece. The other pieces are
the same whatever it is. -/
theorem exists_cutAtPluses_append (depth : Nat) (piece text : Text) : ∃ first rest, ∀ before,
    cutAtPluses depth (piece ++ before) [] text = (before.reverse ++ first) :: rest := by
  induction text generalizing depth piece with
  | nil => exact ⟨piece.reverse, [], fun before => by simp [cutAtPluses]⟩
  | cons c rest ih =>
    unfold cutAtPluses
    split
    next => exact ih _ (c :: piece)
    next =>
      split
      next => exact ih _ (c :: piece)
      next =>
        split
        next =>
          -- behind the first cut nothing is left of what was in front
          refine ⟨piece.reverse, cutAtPluses 0 [] [] rest, fun before => ?_⟩
          rw [cutAtPluses_done, List.reverse_append]
          rfl
        next => exact ih _ (c :: piece)

theorem gather_done (segment : Text) (done rest : List Text) :
    gather segment done rest = done.reverse ++ gather segment [] rest := by
  induction rest generalizing segment done with
  | nil => simp [gather]
  | cons fragment rest ih =>
    unfold gather
    split
    next =>
      rw [ih fragment (segment :: done), ih fragment [segment]]
      simp
    next => exact ih _ done

/-- What is in front of a segment goes with the first segment that is gathered. -/
theorem exists_gather_append (segment : Text) (pieces : List Text) : ∃ first rest, ∀ before,
    gather (before ++ segment) [] pieces = (before ++ first) :: rest := by
  induction pieces generalizing segment with
  | nil => exact ⟨segment, [], fun before => rfl⟩
  | cons fragment pieces ih =>
    unfold gather
    split
    next =>
      exact ⟨segment, gather fragment [] pieces, fun before =>
        gather_done fragment [before ++ segment] pieces⟩
    next =>
      obtain ⟨first, rest, gathered⟩ := ih (segment ++ '+' :: fragment)
      exact ⟨first, rest, fun before => by rw [List.append_assoc, gathered]⟩

/-- A part that is not cut goes with the first segment of what is behind it. So
dice can be put in front of a text without cutting it elsewhere. -/
theorem exists_cutSegments_append (text : Text) : ∃ first rest, first <+: text ∧
    ∀ front, Uncut front → cutSegments (front ++ text) = (front ++ first) :: rest := by
  obtain ⟨fragment, pieces, cut⟩ := exists_cutAtPluses_append 0 [] text
  obtain ⟨first, rest, gathered⟩ := exists_gather_append fragment pieces
  have segments : ∀ front, Uncut front →
      cutSegments (front ++ text) = (front ++ first) :: rest := by
    intro front uncut
    have whole : fragments (front ++ text) = (front ++ fragment) :: pieces := by
      have behind := cut front.reverse
      rw [List.nil_append, List.reverse_reverse] at behind
      rw [fragments, cutAtPluses_append uncut.balanced uncut.whole, List.append_nil, behind]
    rw [cutSegments, whole]
    exact gathered front
  refine ⟨first, rest, ?_, segments⟩
  -- with nothing in front, the first segment is the front of the text
  have joined := join_cutSegments text
  rw [← List.nil_append text, segments [] uncut_nil, List.nil_append, List.nil_append] at joined
  rw [← joined]
  cases rest with
  | nil => simp
  | cons second rest =>
    rw [join_cons_cons, List.append_assoc]
    exact List.prefix_append first _

end Dice.Notation
