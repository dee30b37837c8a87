import Dice.Proofs.Notation.Denotes

/-!
# Redundant parentheses

A notation in parentheses is a single segment with nothing behind it, so it
denotes what the notation denotes. However many pairs of parentheses are put
around a notation, all they change is the nesting, and the limit of that is
met at the first parenthesis past it and reported there: no other fault can
come first, as everything up to it is accepted.

Which parenthesis is the first one past the limit is determined by the text
(`FirstPast.unique`). So the position that is reported for a notation in many
parentheses can be given without reading it: as long as the limit is met among
those that were put around it, it is the number of them in front.

For a notation with parentheses of its own the limit may be met inside of it,
and the statement covers that as well.

Main statement: `parse_wrapped`.
-/

namespace Dice

namespace Text

variable {text a b : Text}

/-- A text in so many pairs of parentheses. With none it is the text itself. -/
def wrapped (k : Nat) (text : Text) : Text :=
  List.replicate k '(' ++ text ++ List.replicate k ')'

@[simp] theorem wrapped_zero (text : Text) : text.wrapped 0 = text := by simp [wrapped]

theorem wrapped_succ (k : Nat) (text : Text) :
    text.wrapped (k + 1) = (text.wrapped k).parenthesized := by
  unfold wrapped parenthesized
  rw [List.replicate_succ, List.replicate_succ', List.cons_append, List.cons_append,
    ← List.append_assoc, List.cons_append]

theorem Balanced.wrapped (balanced : text.Balanced) (k : Nat) : (text.wrapped k).Balanced := by
  induction k with
  | zero => rwa [wrapped_zero]
  | succ k ih =>
    rw [wrapped_succ]
    exact ih.parenthesized

/-- Each pair of parentheses adds one level, whatever is in them. -/
theorem Balanced.nesting_wrapped (balanced : text.Balanced) (k : Nat) :
    (text.wrapped k).nesting = text.nesting + k := by
  induction k with
  | zero => rw [wrapped_zero, Nat.add_zero]
  | succ k ih => rw [wrapped_succ, (balanced.wrapped k).nesting_parenthesized, ih, Nat.add_assoc]

/-- No more parentheses are open in a text than it is nested deep. At a prefix
the difference of both counts is what is open there. -/
theorem count_le_deepest (inside : a <+: text) (depth : Nat) :
    depth + a.count '(' ≤ a.count ')' + deepest depth text := by
  induction a generalizing depth text with
  | nil =>
    rw [List.count_nil, List.count_nil, Nat.add_zero, Nat.zero_add]
    exact le_deepest depth text
  | cons c a ih =>
    obtain ⟨rest, rfl⟩ := inside
    have inside : a <+: a ++ rest := List.prefix_append a rest
    rw [List.cons_append]
    by_cases opens : c = '('
    · subst opens
      have step := ih inside (depth + 1)
      rw [deepest_open, List.count_cons_self, List.count_cons_of_ne (by decide)]
      omega
    · by_cases closes : c = ')'
      · subst closes
        -- closing where nothing is open adds to the right side only
        have step := ih inside (depth - 1)
        rw [List.count_cons_self, List.count_cons_of_ne (by decide)]
        show _ ≤ _ + max depth (deepest (depth - 1) (a ++ rest))
        omega
      · have step := ih inside depth
        rw [deepest_plain opens closes, List.count_cons_of_ne opens, List.count_cons_of_ne closes]
        exact step

end Text

namespace Notation

open Text

variable {text before other : Text} {e : Expr} {limit : Nat}

/-- There is one first parenthesis past a limit. So the position that is
reported is determined. -/
theorem FirstPast.unique (first : FirstPast limit text before)
    (first' : FirstPast limit text other) : before = other := by
  have later : ∀ {a b}, FirstPast limit text a → FirstPast limit text b → b.length ≤ a.length := by
    intro a b first first'
    by_contra shorter
    have inside : a ++ ['('] <+: b := by
      refine List.prefix_of_prefix_length_le first.opens
        ((List.prefix_append b ['(']).trans first'.opens) ?_
      simp
      omega
    have open' := count_le_deepest inside 0
    have within := first'.within
    have level := first.level_eq
    rw [List.count_append, List.count_append] at open'
    simp [nesting] at open' within
    omega
  have same : before.length = other.length :=
    Nat.le_antisymm (later first' first) (later first first')
  have le := (List.prefix_append before ['(']).trans first.opens
  have le' := (List.prefix_append other ['(']).trans first'.opens
  exact (List.prefix_of_prefix_length_le le le' same.le).eq_of_length same

/-! ## Notations in parentheses -/

/-- Parentheses do not change what a notation denotes. The sum in them is the
only segment around them. -/
theorem DenotesSum.parenthesized (denotes : DenotesSum text e) :
    DenotesSum text.parenthesized e := by
  have group : Denotes ([] ++ '(' :: (text ++ ')' :: [])) e :=
    denotes.group blank_nil (amends_blank blank_nil e)
  have opens : isBlank '(' = false := by decide
  have cut := cutSegments_uncut (uncut_parenthesized denotes.balanced)
  exact (denotesSum_iff_of_cut cut).2
    ⟨denotes.balanced.parenthesized, by simp [blank, Text.parenthesized, opens], group⟩

/-- However many parentheses there are, a notation denotes the same. -/
theorem DenotesSum.wrapped (denotes : DenotesSum text e) (k : Nat) :
    DenotesSum (text.wrapped k) e := by
  induction k with
  | zero => rwa [wrapped_zero]
  | succ k ih =>
    rw [wrapped_succ]
    exact ih.parenthesized

/-- **Redundant parentheses are transparent up to the limit of nesting.** Past
the limit the fault is that of the first parenthesis that is nested deeper, at
the bytes in front of it. -/
theorem parse_wrapped (solid : text.blank = false) (ok : parse text = .ok e) (k : Nat) :
    (text.nesting + k ≤ 128 → parse (text.wrapped k) = .ok e) ∧
    (128 < text.nesting + k → ∃ before, FirstPast 128 (text.wrapped k) before ∧
      parse (text.wrapped k) =
        .error ((Fault.outOfRange "nesting deeper than 128").located before.byteLength)) := by
  have denotes := denotes_of_parse solid ok
  have depth := denotes.balanced.nesting_wrapped k
  have limited := limited_parse (denotes.wrapped k)
  have fault : tooDeep = .outOfRange "nesting deeper than 128" := by decide
  generalize parse (text.wrapped k) = result at limited ⊢
  rw [← depth, ← fault]
  cases limited with
  | within fits => exact ⟨fun _ => rfl, fun deep => absurd fits (Nat.not_le_of_lt deep)⟩
  | @past before deep first =>
    refine ⟨fun fits => absurd fits (Nat.not_le_of_lt deep), fun _ => ⟨before, first, ?_⟩⟩
    rw [Nat.zero_add]

/-- A notation with parentheses of its own, behind a segment without. -/
def crowded : Text := "d12\u3000+ (d6+2)*2".toList

/-- A twelve-sided die and twice a six-sided one with 2 added. -/
def crowdedExpr : Expr :=
  .pool [.die (.sided 12 (by decide)),
    .arithmetic (.arithmetic (.die .sixSided) .add 2) .multiply 2]

/-- Up to 127 pairs of parentheses are accepted around a notation that has some
itself. Then those are the first ones past the limit. -/
theorem parse_wrapped_crowded : crowded.blank = false ∧ parse crowded = .ok crowdedExpr ∧
    parse (crowded.wrapped 127) = .ok crowdedExpr ∧
    parse (crowded.wrapped 128) =
      .error ((Fault.outOfRange "nesting deeper than 128").located 136) := by
  have solid : crowded.blank = false := by decide +kernel
  have ok : parse crowded = .ok crowdedExpr := by decide +kernel
  have depth : crowded.nesting = 1 := by decide +kernel
  obtain ⟨shallow, -⟩ := parse_wrapped solid ok 127
  obtain ⟨-, deep⟩ := parse_wrapped solid ok 128
  obtain ⟨before, first, failed⟩ := deep (by omega)
  let front : Text := List.replicate 128 '(' ++ "d12\u3000+ ".toList
  have shown : FirstPast 128 (crowded.wrapped 128) front :=
    ⟨List.isPrefixOf_iff_prefix.1 (by decide +kernel), by decide +kernel, by decide +kernel⟩
  have size : front.byteLength = 136 := by decide +kernel
  rw [first.unique shown, size] at failed
  exact ⟨solid, ok, shallow (by omega), failed⟩

end Notation

end Dice
