import Dice.Expr.Written
import Dice.Notation.Segments

/-!
# Balanced texts

In a balanced text every parenthesis has its partner. Whatever goes through a
text and counts open parentheses comes out of a balanced part with the count
it went in with, so each of the scanners can step over such a part at once.

There are four of them: the search for an outer plus sign, the check of the
parentheses, the search for the partner of one, and the cutting at plus signs.
For each there is a lemma that steps over a balanced part, and they are all
inductions over how the part is built.

From that follows how a sum of written parts is cut: at the plus signs between
them, if each part has a die in it and no outer plus sign of its own
(`cutSegments_join`), and nowhere if what follows the only outer plus sign is
no die (`cutSegments_glued`).

Main statements: `cutSegments_join` and `splitAtClose_close`.
-/

namespace Dice

namespace Text

/-- Whether every parenthesis has its partner. A balanced text is a list of
characters and of groups, so proofs about it go by induction on that list. -/
inductive Balanced : Text → Prop
  | nil : Balanced []
  | plain (c : Char) (rest : Text) (opens : c ≠ '(') (closes : c ≠ ')') (after : Balanced rest) :
    Balanced (c :: rest)
  | group (inner rest : Text) (inside : Balanced inner) (after : Balanced rest) :
    Balanced ('(' :: inner ++ ')' :: rest)

/-- A balanced text may have another one behind it. The parts of the first are
taken one by one. -/
theorem Balanced.append {a b : Text} (ha : a.Balanced) (hb : b.Balanced) : (a ++ b).Balanced := by
  induction ha with
  | nil => exact hb
  | plain c rest opens closes _ ih => exact .plain c _ opens closes ih
  | group inner rest inside _ _ ih =>
    have whole := Balanced.group inner (rest ++ b) inside ih
    simpa using whole

theorem Balanced.parenthesized {a : Text} (ha : a.Balanced) : a.parenthesized.Balanced :=
  .group a [] ha .nil

/-- A text without parentheses is balanced. Texts of tokens are all of this
kind. -/
theorem balanced_of_plain {a : Text} (h : ∀ c ∈ a, c ≠ '(' ∧ c ≠ ')') : a.Balanced := by
  induction a with
  | nil => exact .nil
  | cons c rest ih =>
    have head := h c (by simp)
    exact .plain c rest head.1 head.2 (ih fun d hd => h d (by simp [hd]))

/-! ## Outer plus signs -/

variable {a b : Text}

theorem hasOuterPlus_open (depth : Nat) (rest : Text) :
    hasOuterPlus depth ('(' :: rest) = hasOuterPlus (depth + 1) rest := by
  simp [hasOuterPlus]

theorem hasOuterPlus_close (depth : Nat) (rest : Text) :
    hasOuterPlus (depth + 1) (')' :: rest) = hasOuterPlus depth rest := by
  simp [hasOuterPlus]

theorem hasOuterPlus_plain {c : Char} (opens : c ≠ '(') (closes : c ≠ ')') (depth : Nat)
    (rest : Text) : hasOuterPlus depth (c :: rest) =
      ((c == '+' && depth == 0) || hasOuterPlus depth rest) := by
  rw [hasOuterPlus.eq_def]
  split <;> simp_all

/-- Where there is no plus sign, there is no outer one. -/
theorem hasOuterPlus_of_forall_ne (depth : Nat) (h : ∀ c ∈ a, c ≠ '+') :
    hasOuterPlus depth a = false := by
  induction a generalizing depth with
  | nil => rfl
  | cons c rest ih =>
    have head := h c (by simp)
    have tail := fun depth => ih depth fun d hd => h d (by simp [hd])
    rw [hasOuterPlus.eq_def]
    split <;> simp_all

/-- An outer plus sign of a text is in one of its two parts. The first part has
to be balanced, or its parentheses could hide what is behind them. -/
theorem Balanced.hasOuterPlus_append (ha : a.Balanced) (depth : Nat) :
    hasOuterPlus depth (a ++ b) = (hasOuterPlus depth a || hasOuterPlus depth b) := by
  induction ha generalizing depth b with
  | nil => simp [hasOuterPlus]
  | plain c rest opens closes _ ih =>
    simp only [List.cons_append, hasOuterPlus_plain opens closes, ih, Bool.or_assoc]
  | group inner rest _ _ ih ih' =>
    simp only [List.cons_append, List.append_assoc, hasOuterPlus_open, hasOuterPlus_close, ih, ih',
      Bool.or_assoc]

/-- Inside of parentheses no plus sign is an outer one. The reader passes over
groups without a look inside. -/
theorem Balanced.hasOuterPlus_succ (ha : a.Balanced) (depth : Nat) :
    hasOuterPlus (depth + 1) a = false := by
  induction ha generalizing depth with
  | nil => rfl
  | plain c rest opens closes _ ih => simp [hasOuterPlus_plain opens closes, ih]
  | group inner rest inside _ ih ih' =>
    simp [hasOuterPlus_open, hasOuterPlus_close, inside.hasOuterPlus_append, ih, ih']

theorem Balanced.hasOuterPlus_parenthesized (ha : a.Balanced) :
    hasOuterPlus 0 (a.parenthesized ++ b) = hasOuterPlus 0 b := by
  simp [Text.parenthesized, hasOuterPlus_open, hasOuterPlus_close, ha.hasOuterPlus_append,
    ha.hasOuterPlus_succ]

/-- What gets parentheses if it needs them has no outer plus sign. It can be put
in a sum without falling apart. -/
theorem Balanced.hasOuterPlus_grouped (ha : a.Balanced) : hasOuterPlus 0 a.grouped = false := by
  unfold grouped
  split
  next => simpa [hasOuterPlus] using ha.hasOuterPlus_parenthesized (b := [])
  next h => simpa using h

theorem Balanced.grouped (ha : a.Balanced) : a.grouped.Balanced := by
  unfold Text.grouped
  split
  next => exact ha.parenthesized
  next => exact ha

end Text

namespace Notation

open Text

variable {a b : Text}

/-! ## Stepping over a balanced part -/

/-- The check of the parentheses goes on behind a balanced part as if it began
there. -/
theorem unbalanced?_append (ha : a.Balanced) (depth index : Nat) (rest : Text) :
    unbalanced? depth index (a ++ rest) = unbalanced? depth (index + a.byteLength) rest := by
  induction ha generalizing depth index rest with
  | nil => rfl
  | plain c after opens closes _ ih =>
    simp only [List.cons_append, unbalanced?, if_neg opens, if_neg closes, ih, byteLength_cons,
      Nat.add_assoc]
  | group inner after _ _ ih ih' =>
    have size : Char.utf8Size '(' = 1 ∧ Char.utf8Size ')' = 1 := by decide
    simp [unbalanced?, ih, ih', byteLength_append, size, Nat.add_assoc, Nat.add_comm,
      Nat.add_left_comm]

/-- Nothing is wrong with the parentheses of a balanced text. The converse is in
`Dice.Proofs.Notation.Unbalanced`. -/
theorem unbalanced?_eq_none (ha : a.Balanced) (index : Nat) : unbalanced? 0 index a = none := by
  have whole := unbalanced?_append ha 0 index []
  rw [List.append_nil] at whole
  simp [whole, unbalanced?]

/-- The partner of a parenthesis is not in a balanced part. The search passes
over such a part and keeps what it has seen. -/
theorem splitAtClose_append (ha : a.Balanced) (depth : Nat) (before rest : Text) :
    splitAtClose depth before (a ++ rest) = splitAtClose depth (a.reverse ++ before) rest := by
  induction ha generalizing depth before rest with
  | nil => rfl
  | plain c after opens closes _ ih => simp [splitAtClose, opens, closes, ih]
  | group inner after _ _ ih ih' => simp [splitAtClose, ih, ih']

/-- The parenthesis after a balanced text closes the one before it. So what is
in a group is found again, whatever follows. -/
theorem splitAtClose_close (ha : a.Balanced) (rest : Text) :
    splitAtClose 0 [] (a ++ ')' :: rest) = some (a, rest) := by
  simp [splitAtClose_append ha, splitAtClose]

/-- A part without an outer plus sign is not cut, and is added to the piece that
is being collected. -/
theorem cutAtPluses_append (ha : a.Balanced) {depth : Nat} (whole : hasOuterPlus depth a = false)
    (piece : Text) (done : List Text) (rest : Text) :
    cutAtPluses depth piece done (a ++ rest) =
      cutAtPluses depth (a.reverse ++ piece) done rest := by
  induction ha generalizing depth piece rest with
  | nil => rfl
  | plain c after opens closes _ ih =>
    simp only [hasOuterPlus_plain opens closes, Bool.or_eq_false_iff] at whole
    have stays : ¬ (c = '+' ∧ depth = 0) := by simpa using whole.1
    simp [cutAtPluses, opens, closes, stays, ih whole.2]
  | group inner after inside _ ih ih' =>
    have tail : hasOuterPlus depth after = false := by
      simpa [hasOuterPlus_open, hasOuterPlus_close, inside.hasOuterPlus_append,
        inside.hasOuterPlus_succ] using whole
    simp [cutAtPluses, ih (inside.hasOuterPlus_succ depth), ih' tail]

/-! ## Cutting sums -/

/-- A part of a sum as it is written: nothing in it is cut. Such a part is found
again between plus signs. -/
structure Uncut (text : Text) : Prop where
  balanced : text.Balanced
  whole : text.hasOuterPlus 0 = false

/-- Parts with plus signs between them are the pieces, behind those that are cut
already. -/
theorem cutAtPluses_join {pieces : List Text} (uncut : ∀ piece ∈ pieces, Uncut piece)
    (some : pieces ≠ []) (done : List Text) :
    cutAtPluses 0 [] done (Text.join ['+'] pieces) = done.reverse ++ pieces := by
  induction pieces generalizing done with
  | nil => exact absurd rfl some
  | cons piece rest ih =>
    obtain ⟨balanced, whole⟩ := uncut piece (by simp)
    cases rest with
    | nil =>
      have stepped := cutAtPluses_append balanced whole [] done []
      rw [List.append_nil] at stepped
      simp [stepped, cutAtPluses]
    | cons next rest =>
      rw [join_cons_cons, List.append_assoc, cutAtPluses_append balanced whole]
      simp [cutAtPluses, ih (fun x hx => uncut x (by simp [hx]))]

theorem fragments_join {pieces : List Text} (uncut : ∀ piece ∈ pieces, Uncut piece)
    (some : pieces ≠ []) : fragments (Text.join ['+'] pieces) = pieces :=
  cutAtPluses_join uncut some []

/-- Pieces that have dice are segments of their own. Nothing is glued to the one
in front. -/
theorem gather_of_hasDice {rest : List Text} (dice : ∀ piece ∈ rest, hasDice piece = true)
    (segment : Text) (done : List Text) :
    gather segment done rest = done.reverse ++ segment :: rest := by
  induction rest generalizing segment done with
  | nil => simp [gather]
  | cons piece rest ih =>
    simp [gather, dice piece (by simp), ih fun x hx => dice x (by simp [hx])]

/-- A sum is cut into its parts if each of them has dice. A part without dice
would be taken for the constant of the one in front. -/
theorem cutSegments_join {pieces : List Text} (uncut : ∀ piece ∈ pieces, Uncut piece)
    (dice : ∀ piece ∈ pieces, hasDice piece = true) (some : pieces ≠ []) :
    cutSegments (Text.join ['+'] pieces) = pieces := by
  unfold cutSegments
  rw [fragments_join uncut some]
  cases pieces with
  | nil => exact absurd rfl some
  | cons first rest => exact gather_of_hasDice (fun x hx => dice x (by simp [hx])) first []

theorem cutSegments_uncut (ha : Uncut a) : cutSegments a = [a] := by
  have cut : fragments (Text.join ['+'] [a]) = [a] :=
    fragments_join (by simpa using ha) (by simp)
  rw [join_singleton] at cut
  rw [cutSegments, cut]
  rfl

/-- What follows a plus sign without dice stays with what is before it, so a
constant can be added to dice. -/
theorem cutSegments_glued (ha : Uncut a) (hb : Uncut b) (none : hasDice b = false) :
    cutSegments (a ++ '+' :: b) = [a ++ '+' :: b] := by
  have cut : fragments (Text.join ['+'] [a, b]) = [a, b] :=
    fragments_join (by simp [ha, hb]) (by simp)
  rw [join_cons_cons, join_singleton, List.append_assoc, List.singleton_append] at cut
  unfold cutSegments
  rw [cut]
  simp [gather, none]

end Notation

end Dice
