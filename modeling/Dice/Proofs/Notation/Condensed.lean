import Dice.Proofs.Notation.Denotes

/-!
# Blanks and the case of letters

A text `CondensesTo` another one if the second is the first without its
blanks, up to the case of letters. Blanks in front of and between tokens are
passed over, and a token has its letters in either case. Only two numbers
could grow together when the blanks between them go, and the letter of a die
with an `h` or an `l`; but in no form a number follows another
(`apart_tokens`), and no token begins with one of these letters.

The cuts of a text, at plus signs and at parentheses, are at characters that
stay. So whatever a text denotes is denoted by what it condenses to, at all
levels of parentheses.

Nothing is said of texts that are refused. Without its blanks such a text may
be accepted, for two numbers that it had side by side are one then.

Main statement: `parse_condensed`.
-/

namespace Dice

namespace Text

variable {a b a' b' text : Text} {c d : Char}

/-- Whether one text is another without its blanks, with the letters of ASCII in
any case. -/
def CondensesTo (text condensed : Text) : Prop :=
  condensed.map Char.toLower = (text.filter fun c => !isBlank c).map Char.toLower

namespace CondensesTo

theorem nil : CondensesTo [] [] := rfl

/-- Nothing is left of a blank text. -/
theorem eq_nil (condensed : CondensesTo a b) (blank : a.blank = true) : b = [] := by
  have none : (a.filter fun c => !isBlank c) = [] :=
    List.filter_eq_nil_iff.2 fun c mem => by simp [List.all_eq_true.1 blank c mem]
  unfold CondensesTo at condensed
  rw [none] at condensed
  exact List.map_eq_nil_iff.1 condensed

/-- Parts that are condensed on their own are condensed together. Blanks between
them belong to one of the two. -/
theorem append (first : CondensesTo a a') (second : CondensesTo b b') :
    CondensesTo (a ++ b) (a' ++ b') := by
  unfold CondensesTo at first second ⊢
  rw [List.map_append, List.filter_append, List.map_append, first, second]

theorem reverse (condensed : CondensesTo a b) : CondensesTo a.reverse b.reverse := by
  unfold CondensesTo at condensed ⊢
  rw [List.map_reverse, List.filter_reverse, List.map_reverse, condensed]

/-- What a part condenses to is a part. So a text and what it condenses to can
be cut side by side. -/
theorem exists_of_append (condensed : CondensesTo (a ++ b) text) :
    ∃ a' b', text = a' ++ b' ∧ CondensesTo a a' ∧ CondensesTo b b' := by
  unfold CondensesTo at condensed
  rw [List.filter_append, List.map_append] at condensed
  obtain ⟨a', b', rfl, first, second⟩ := List.map_eq_append_iff.1 condensed
  exact ⟨a', b', rfl, first, second⟩

theorem cons_blank_iff (blank : isBlank c = true) : CondensesTo (c :: a) b ↔ CondensesTo a b := by
  unfold CondensesTo
  rw [List.filter_cons_of_neg (by simp [blank])]

theorem cons_cons (solid : isBlank c = false) (lower : d.toLower = c.toLower)
    (condensed : CondensesTo a b) : CondensesTo (c :: a) (d :: b) := by
  unfold CondensesTo at condensed ⊢
  rw [List.filter_cons_of_pos (by simp [solid]), List.map_cons, List.map_cons, lower, condensed]

/-- A character that is no blank stays, in one case or the other. What is behind
it condenses to what is behind that. -/
theorem exists_of_cons (solid : isBlank c = false) (condensed : CondensesTo (c :: a) text) :
    ∃ d b, text = d :: b ∧ d.toLower = c.toLower ∧ CondensesTo a b := by
  unfold CondensesTo at condensed
  rw [List.filter_cons_of_pos (by simp [solid]), List.map_cons] at condensed
  exact List.map_eq_cons_iff.1 condensed

/-- A character that is no letter stays as it is. Parentheses, plus signs and
digits are such characters. -/
theorem exists_of_cons_plain (solid : isBlank c = false) (plain : c.isAlpha = false)
    (condensed : CondensesTo (c :: a) text) : ∃ b, text = c :: b ∧ CondensesTo a b := by
  obtain ⟨d, b, rfl, lower, rest⟩ := condensed.exists_of_cons solid
  exact ⟨b, by rw [eq_of_toLower_eq plain lower], rest⟩

/-- There are no blanks left in what a text condenses to. Changing the case of a
letter does not make it one. -/
theorem isBlank_eq_false (condensed : CondensesTo a b) : ∀ d ∈ b, isBlank d = false := by
  intro d mem
  have plain : ∀ c, isBlank c = true → c.isAlpha = false :=
    Notation.forall_isBlank (by decide +kernel)
  have lower : d.toLower ∈ (a.filter fun c => !isBlank c).map Char.toLower :=
    condensed ▸ List.mem_map_of_mem mem
  obtain ⟨c, kept, same⟩ := List.mem_map.1 lower
  have solid : isBlank c = false := by simpa using (List.mem_filter.1 kept).2
  by_contra blank
  rw [Bool.not_eq_false] at blank
  rw [eq_of_toLower_eq (plain d blank) same, blank] at solid
  cases solid

/-- Something is left of a text that is not blank. So blank notations and others
are not confused. -/
theorem blank_eq_false (condensed : CondensesTo a b) (solid : a.blank = false) :
    b.blank = false := by
  cases b with
  | nil =>
    have none : (a.filter fun c => !isBlank c) = [] := List.map_eq_nil_iff.1 condensed.symm
    have blank : a.blank = true := by simpa [blank, List.filter_eq_nil_iff] using none
    rw [blank] at solid
    cases solid
  | cons d b =>
    have first := condensed.isBlank_eq_false d (by simp)
    simp [blank, first]

/-! ## Parentheses and plus signs -/

/-- What stays of a character is a mark only if it is one. Marks are what texts
are cut at. -/
theorem mark_iff (lower : d.toLower = c.toLower) :
    (d = '(' ↔ c = '(') ∧ (d = ')' ↔ c = ')') ∧ (d = '+' ↔ c = '+') := by
  have same : ∀ mark : Char, mark.isAlpha = false → (d = mark ↔ c = mark) := by
    intro mark plain
    constructor
    · intro is
      subst is
      exact eq_of_toLower_eq plain lower.symm
    · intro is
      subst is
      exact eq_of_toLower_eq plain lower
  exact ⟨same '(' rfl, same ')' rfl, same '+' rfl⟩

/-- Parentheses stay, and so do their partners. The induction is on the groups
of the text. -/
theorem balanced (condensed : CondensesTo a b) (balanced : a.Balanced) : b.Balanced := by
  induction balanced generalizing b with
  | nil =>
    rw [condensed.eq_nil blank_nil]
    exact .nil
  | plain c rest opens closes _ ih =>
    cases blank : isBlank c with
    | true => exact ih ((cons_blank_iff blank).1 condensed)
    | false =>
      obtain ⟨d, b, rfl, lower, after⟩ := condensed.exists_of_cons blank
      obtain ⟨opens', closes', -⟩ := mark_iff lower
      exact .plain d b (mt opens'.1 opens) (mt closes'.1 closes) (ih after)
  | group inner rest _ _ ih ih' =>
    obtain ⟨b, rfl, after⟩ := condensed.exists_of_cons_plain (by decide) (by decide)
    obtain ⟨inner', back, rfl, inside, closed⟩ := after.exists_of_append
    obtain ⟨rest', rfl, behind⟩ := closed.exists_of_cons_plain (by decide) (by decide)
    exact .group inner' rest' (ih inside) (ih' behind)

/-- Parentheses are nested as deep without the blanks between them. The limit of
nesting therefore makes no difference. -/
theorem deepest_eq (condensed : CondensesTo a b) (depth : Nat) :
    deepest depth b = deepest depth a := by
  induction a generalizing b depth with
  | nil => rw [condensed.eq_nil blank_nil]
  | cons c a ih =>
    have other : ∀ c, isBlank c = true → c ≠ '(' ∧ c ≠ ')' :=
      Notation.forall_isBlank (by decide +kernel)
    cases blank : isBlank c with
    | true =>
      -- a blank is no parenthesis, and may be gone
      obtain ⟨opens, closes⟩ := other c blank
      rw [deepest_plain opens closes]
      exact ih ((cons_blank_iff blank).1 condensed) depth
    | false =>
      obtain ⟨d, b, rfl, lower, after⟩ := condensed.exists_of_cons blank
      -- what stays of a character is a parenthesis where the character is one
      obtain ⟨opens', closes', -⟩ := mark_iff lower
      by_cases opens : c = '('
      · rw [opens, opens'.2 opens, deepest_open, deepest_open]
        exact ih after (depth + 1)
      · by_cases closes : c = ')'
        · rw [closes, closes'.2 closes]
          show max depth (deepest (depth - 1) b) = max depth (deepest (depth - 1) a)
          rw [ih after (depth - 1)]
        · rw [deepest_plain opens closes, deepest_plain (mt opens'.1 opens) (mt closes'.1 closes)]
          exact ih after depth

theorem nesting_eq (condensed : CondensesTo a b) : b.nesting = a.nesting := condensed.deepest_eq 0

end CondensesTo

end Text

namespace Notation

open Text

variable {a b piece piece' : Text} {pieces pieces' done done' : List Text}

/-- Cutting goes through both texts side by side, and meets the same plus signs
at the same depth. -/
theorem condensed_cutAtPluses (condensed : CondensesTo a b) (before : CondensesTo piece piece')
    (each : List.Forall₂ CondensesTo done done') (depth : Nat) :
    List.Forall₂ CondensesTo (cutAtPluses depth piece done a)
      (cutAtPluses depth piece' done' b) := by
  induction a generalizing b piece piece' done done' depth with
  | nil =>
    rw [condensed.eq_nil blank_nil]
    exact List.rel_reverse (.cons before.reverse each)
  | cons c a ih =>
    cases blank : isBlank c with
    | true =>
      have other : ∀ c, isBlank c = true → c ≠ '(' ∧ c ≠ ')' ∧ c ≠ '+' :=
        forall_isBlank (by decide +kernel)
      -- a blank goes with the piece so far, where it may be gone as well
      obtain ⟨opens, closes, plus⟩ := other c blank
      rw [cutAtPluses, if_neg opens, if_neg closes, if_neg (fun cut => plus cut.1)]
      exact ih ((CondensesTo.cons_blank_iff blank).1 condensed)
        ((CondensesTo.cons_blank_iff blank).2 before) each depth
    | false =>
      obtain ⟨d, b, rfl, lower, after⟩ := condensed.exists_of_cons blank
      obtain ⟨opens, closes, plus⟩ := CondensesTo.mark_iff lower
      -- the two texts take the same branch for any other character
      have longer := before.cons_cons blank lower
      unfold cutAtPluses
      simp only [opens, closes, plus]
      split
      next => exact ih after longer each _
      next =>
        split
        next => exact ih after longer each _
        next =>
          split
          next => exact ih after .nil (.cons before.reverse each) _
          next => exact ih after longer each _

/-- The letter of a die is found in either case. Put like this it does not
depend on the case of the letters in the text. -/
theorem hasDice_iff (text : Text) : hasDice text = true ↔ 'd' ∈ text.map Char.toLower := by
  have either : ∀ c : Char, c = 'd' ∨ c = 'D' ↔ c.toLower = 'd' := by
    intro c
    constructor
    · intro is
      rcases is with rfl | rfl <;> rfl
    · exact eq_or_eq_of_toLower_eq
  simp [hasDice, either]

theorem hasDice_eq_of_condensed (condensed : CondensesTo a b) : hasDice b = hasDice a := by
  rw [Bool.eq_iff_iff, hasDice_iff, hasDice_iff, condensed, List.mem_map, List.mem_map]
  constructor
  · intro kept
    obtain ⟨c, mem, lower⟩ := kept
    exact ⟨c, List.mem_of_mem_filter mem, lower⟩
  · intro found
    obtain ⟨c, mem, lower⟩ := found
    have solid : isBlank c = false := by
      rcases eq_or_eq_of_toLower_eq lower with rfl | rfl <;> decide
    exact ⟨c, List.mem_filter.2 ⟨mem, by simp [solid]⟩, lower⟩

/-- Fragments are gathered in the same way, as the same ones of them have dice.
The induction is on the fragments that are left. -/
theorem condensed_gather (each : List.Forall₂ CondensesTo pieces pieces')
    (before : CondensesTo piece piece') (each' : List.Forall₂ CondensesTo done done') :
    List.Forall₂ CondensesTo (gather piece done pieces) (gather piece' done' pieces') := by
  induction each generalizing piece piece' done done' with
  | nil => exact List.rel_reverse (.cons before each')
  | @cons next next' rest rest' condensed _ ih =>
    unfold gather
    rw [hasDice_eq_of_condensed condensed]
    split
    next => exact ih condensed (.cons before each')
    next => exact ih (before.append (condensed.cons_cons (by decide) rfl)) each'

/-- A text and what it condenses to are cut in the same places. The segments
correspond one by one, each condensed. -/
theorem condensed_cutSegments (condensed : CondensesTo a b) :
    List.Forall₂ CondensesTo (cutSegments a) (cutSegments b) := by
  have cut : List.Forall₂ CondensesTo (fragments a) (fragments b) :=
    condensed_cutAtPluses condensed .nil .nil 0
  unfold cutSegments
  generalize fragments a = first at cut ⊢
  generalize fragments b = second at cut ⊢
  cases cut with
  | nil => exact .nil
  | cons first rest => exact condensed_gather rest first .nil

/-! ## Tokens -/

variable {token : Token} {tokens more : List Token} {operators : List (Operator × UInt32)}

/-- A token has no blank in it, and may have its letters in any case. So nothing
can be taken out of its spelling. -/
theorem Token.SpelledBy.condensed (spelled : token.SpelledBy a) (condensed : CondensesTo a b) :
    token.SpelledBy b := by
  have whole : b.map Char.toLower = a.map Char.toLower := by
    have solid : (a.filter fun c => !isBlank c) = a :=
      List.filter_eq_self.2 fun c mem => by simp [(spelled.of_mem c mem).1]
    rw [condensed, solid]
  cases token with
  | number value =>
    have plain : ∀ c : Char, c.isDigit = true → c.isAlpha = false := forall_isDigit (by decide)
    rwa [eq_of_map_toLower_eq (fun c mem => plain c (spelled.1 c mem)) whole]
  | _ => exact whole.trans spelled

/-- The tokens of a text are those of what it condenses to, if no number follows
another. -/
theorem Spelt.condensed (spelt : Spelt a tokens) (apart : Apart tokens)
    (condensed : CondensesTo a b) : Spelt b tokens := by
  induction spelt generalizing b with
  | nil =>
    rw [condensed.eq_nil blank_nil]
    exact .nil
  | blank blank _ ih => exact ih apart ((CondensesTo.cons_blank_iff blank).1 condensed)
  | token spelled _ _ ih =>
    obtain ⟨front, rest, rfl, first, second⟩ := condensed.exists_of_append
    have after := ih apart.tail second
    exact .token (spelled.condensed first) (after.ends_of_apart apart) after

/-! ## Forms -/

theorem Apart.append (first : Apart tokens) (second : Apart more) (start : Detached more) :
    Apart (tokens ++ more) :=
  List.isChain_append.2 ⟨first, second, fun _ _ y hy _ => start y hy⟩

theorem Apart.cons (rest : Apart tokens) (other : token.isNumber = false) :
    Apart (token :: tokens) := by
  refine List.isChain_cons.2 ⟨fun _ _ number => ?_, rest⟩
  rw [other] at number
  cases number

theorem apart_signed (face : SignedForm) : Apart face.tokens := by
  cases face with
  | plain magnitude => exact List.isChain_singleton _
  | minus magnitude => exact Apart.cons (List.isChain_singleton _) rfl

/-- Between the faces of a list there are commas, so none of their numbers
follows another. -/
theorem apart_moreFaceTokens (trailing : Bool) (listed : List SignedForm) :
    Apart (moreFaceTokens trailing listed) ∧ Detached (moreFaceTokens trailing listed) := by
  induction listed with
  | nil => cases trailing <;> simp [moreFaceTokens, Apart, Detached, Token.isNumber]
  | cons face rest ih =>
    obtain ⟨more, start⟩ := ih
    exact ⟨((apart_signed face).append more start).cons rfl,
      by simp [moreFaceTokens, Detached, Token.isNumber]⟩

theorem apart_listedFaceTokens (trailing : Bool) (listed : List SignedForm) :
    Apart (listedFaceTokens trailing listed) := by
  cases listed with
  | nil => exact .nil
  | cons face rest =>
    obtain ⟨more, start⟩ := apart_moreFaceTokens trailing rest
    exact (apart_signed face).append more start

theorem apart_size (size : Option SizeForm) : Apart (size.elim [] SizeForm.tokens) := by
  cases size with
  | none => exact .nil
  | some size =>
    cases size with
    | sides count => exact List.isChain_singleton _
    | fudge | percent => exact List.isChain_singleton _
    | faces listed trailing =>
      have close : Apart [.rightBracket] := List.isChain_singleton _
      exact ((apart_listedFaceTokens trailing listed).append close
        (by simp [Detached, Token.isNumber])).cons rfl

theorem apart_option (number : Option Score) : Apart (number.map Token.number).toList := by
  cases number with
  | none => exact .nil
  | some value => exact List.isChain_singleton _

/-- A modifier has one number at most, behind a token that is none. -/
theorem apart_modifier (modifier : Option ModifierForm) :
    Apart (modifier.elim [] ModifierForm.tokens) := by
  cases modifier with
  | none => exact .nil
  | some modifier =>
    cases modifier with
    | selection rule threshold => exact (apart_option threshold).cons rfl
    | explosion threshold => exact (apart_option threshold).cons rfl
    | comparison c threshold =>
      cases threshold with
      | none => exact Apart.cons (List.isChain_singleton _) rfl
      | some face => exact ((apart_signed face).cons rfl).cons rfl

theorem apart_suffix (modifier : Option ModifierForm) (operators : List (Operator × UInt32)) :
    Apart (modifier.elim [] ModifierForm.tokens ++ operatorTokens operators) :=
  (apart_modifier modifier).append (spelled_operatorTokens operators).apart
    (detached_operatorTokens operators)

/-- In a form no number follows another. This is why blanks are never needed in
a segment. -/
theorem apart_tokens (form : SegmentForm) : Apart form.tokens := by
  have suffix := apart_suffix form.modifier form.operators
  have dice : Apart (.dice :: (form.size.elim [] SizeForm.tokens ++
      (form.modifier.elim [] ModifierForm.tokens ++ operatorTokens form.operators))) :=
    ((apart_size form.size).append suffix (sizeless_form form).1).cons rfl
  have whole := (apart_option form.quantity).append dice (by simp [Detached, Token.isNumber])
  rw [SegmentForm.tokens, SegmentForm.diceTokens, List.append_assoc, List.cons_append]
  exact whole

/-! ## What is denoted -/

variable {e made : Expr}

theorem Lexes.condensed (lexes : Lexes a tokens) (apart : Apart tokens)
    (condensed : CondensesTo a b) : Lexes b tokens :=
  lexes_iff_spelt.2 ((lexes_iff_spelt.1 lexes).condensed apart condensed)

/-- Modifiers do the same without the blanks between them. Their tokens are the
same ones. -/
theorem Amends.condensed (amends : Amends a e made) (condensed : CondensesTo a b) :
    Amends b e made := by
  obtain ⟨modifier, operators, lexes, read⟩ := amends
  exact ⟨modifier, operators, lexes.condensed (apart_suffix modifier operators) condensed, read⟩

/-- Parts condensed one by one, with what they denote. It is stated for a list,
as the induction on what a segment denotes has one. -/
theorem exists_parts_condensed {parts : List (Text × Expr)}
    (each : ∀ part ∈ parts, ∀ b, CondensesTo part.1 b → Denotes b part.2)
    (condensed : List.Forall₂ CondensesTo (parts.map (·.1)) pieces) :
    ∃ parts' : List (Text × Expr), pieces = parts'.map (·.1) ∧
      (∀ part ∈ parts', Denotes part.1 part.2) ∧ parts'.map (·.2) = parts.map (·.2) := by
  induction parts generalizing pieces with
  | nil =>
    cases condensed
    exact ⟨[], rfl, by simp, rfl⟩
  | cons part rest ih =>
    obtain ⟨head, tail⟩ := List.forall_mem_cons.1 each
    cases condensed with
    | cons first others =>
      obtain ⟨parts', rfl, each', same⟩ := ih tail others
      exact ⟨(_, part.2) :: parts', rfl, List.forall_mem_cons.2 ⟨head _ first, each'⟩, by
        simp [same]⟩

/-- **What a segment denotes is denoted by what it condenses to.** The induction
is over how it denotes that, and the parentheses around a part stay where they
are. -/
theorem Denotes.condensed (denotes : Denotes a e) : ∀ b, CondensesTo a b → Denotes b e := by
  induction denotes with
  | dice form lexes read =>
    intro b condensed
    exact .dice form (lexes.condensed (apart_tokens form) condensed) read
  | @group blanks interior suffix made parts blank balanced solid cut each amends ih =>
    intro b condensed
    obtain ⟨blanks', back, rfl, front, opened⟩ := condensed.exists_of_append
    obtain ⟨back, rfl, inside⟩ := opened.exists_of_cons_plain (by decide) (by decide)
    obtain ⟨interior', back, rfl, within, closed⟩ := inside.exists_of_append
    obtain ⟨suffix', rfl, behind⟩ := closed.exists_of_cons_plain (by decide) (by decide)
    have pieces := condensed_cutSegments within
    rw [cut] at pieces
    obtain ⟨parts', cut', each', same⟩ := exists_parts_condensed ih pieces
    have amends' := amends.condensed behind
    rw [← same] at amends'
    rw [front.eq_nil blank]
    exact .group parts' blank_nil (within.balanced balanced) (within.blank_eq_false solid) cut'
      each' amends'

/-- What a notation denotes is denoted by what it condenses to. The induction is
on what its segments denote. -/
theorem DenotesSum.condensed (denotes : DenotesSum a e) (condensed : CondensesTo a b) :
    DenotesSum b e := by
  obtain ⟨balanced, solid, parts, cut, each, rfl⟩ := denotes
  have pieces := condensed_cutSegments condensed
  rw [cut] at pieces
  obtain ⟨parts', cut', each', same⟩ :=
    exists_parts_condensed (fun part mem => (each part mem).condensed) pieces
  exact ⟨condensed.balanced balanced, condensed.blank_eq_false solid, parts', cut', each', by
    rw [same]⟩

/-- **White space and the case of letters do not matter in an accepted
notation.** Without its blanks, and with its letters in any case, it is read as
the same expression. -/
theorem parse_condensed (ok : parse a = .ok e) (condensed : CondensesTo a b) : parse b = .ok e := by
  cases solid : a.blank with
  | true =>
    rw [condensed.eq_nil solid]
    rw [parse, compile_blank solid] at ok
    exact ok
  | false =>
    obtain ⟨denotes, fits⟩ := (parse_eq_ok_iff solid).1 ok
    rw [← condensed.nesting_eq] at fits
    exact (parse_eq_ok_iff (condensed.blank_eq_false solid)).2
      ⟨denotes.condensed condensed, fits⟩

/-- A notation with blanks in every place, of one byte and of three. -/
def loose : Text := " 3D6 dl 1 +\u3000( d 4 ! > 2 )\tkH1 * 2\n".toList

/-- The lowest of three dice dropped, plus twice an explosion. -/
def looseExpr : Expr :=
  .pool [.selection [.die .sixSided, .die .sixSided, .die .sixSided] .dropLowest 1,
    .arithmetic (.selection [.explosion [.die (.sided 4 (by decide))] .greaterThan (some 2)]
      .keepHighest 1) .multiply 2]

/-- The letters of a die and of a rule stand behind numbers and parentheses. -/
theorem parse_condensed_loose : parse loose = .ok looseExpr ∧
    CondensesTo loose "3d6DL1+(D4!>2)Kh1*2".toList ∧
    parse "3d6DL1+(D4!>2)Kh1*2".toList = .ok looseExpr := by
  have ok : parse loose = .ok looseExpr := by decide +kernel
  have condensed : CondensesTo loose "3d6DL1+(D4!>2)Kh1*2".toList := by
    unfold CondensesTo
    decide +kernel
  exact ⟨ok, condensed, parse_condensed ok condensed⟩

end Notation

end Dice
