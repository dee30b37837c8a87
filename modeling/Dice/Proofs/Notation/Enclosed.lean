import Dice.Proofs.Notation.Ahead
import Dice.Proofs.Notation.Denotes
import Dice.Proofs.Notation.Shifted

/-!
# Dice in parentheses

What is behind dice is read in one of two ways. Behind dice as they are, it
goes on in the same stream of tokens. Behind dice in parentheses a stream of
its own begins, and the dice are a notation of their own. If nothing that is
behind the dice could belong to them (`Unsized`), both come down to reading
modifiers of the same expression from the same tokens, elsewhere in the text.

Dice are not cut, with or without parentheses, so the first segment is read in
the two ways and the segments after it are the same.

Results are compared without the positions of faults (`unplaced`), as the two
parentheses move everything behind them. If the parentheses behind the dice
are at fault themselves, that is found before anything is read, in both
notations.

Main statement: `parse_enclosed`.
-/

namespace Dice.Notation

open Text TokenStream

variable {α β : Type} {text front : Text} {quantity : Option Score} {size : Option SizeForm}
  {e : Expr}

/-! ## Texts of dice -/

/-- Dice with nothing behind them. Their form has no modifier and no operators,
so all conditions on these are met. -/
def SegmentForm.unmodified (quantity : Option Score) (size : Option SizeForm) : SegmentForm where
  quantity := quantity
  size := size
  modifier := none
  operators := []
  few := Nat.zero_le 2
  unmistaken := fun _ none => nomatch none

namespace SegmentForm

theorem tokens_unmodified (quantity : Option Score) (size : Option SizeForm) :
    (unmodified quantity size).tokens = (unmodified quantity size).diceTokens :=
  List.append_nil _

theorem expr?_unmodified (quantity : Option Score) (size : Option SizeForm) :
    (unmodified quantity size).expr? = (unmodified quantity size).dice? := by
  cases made : (unmodified quantity size).dice? <;> rw [expr?, made] <;> rfl

end SegmentForm

theorem add_notMem_signed (face : SignedForm) : .operator .add ∉ face.tokens := by
  cases face <;> simp [SignedForm.tokens]

theorem add_notMem_moreFaceTokens (trailing : Bool) (listed : List SignedForm) :
    .operator .add ∉ moreFaceTokens trailing listed := by
  induction listed with
  | nil => cases trailing <;> simp [moreFaceTokens]
  | cons face rest ih => simp [moreFaceTokens, add_notMem_signed face, ih]

theorem add_notMem_size (size : SizeForm) : .operator .add ∉ size.tokens := by
  cases size with
  | sides | fudge | percent => simp [SizeForm.tokens]
  | faces listed trailing =>
    cases listed with
    | nil => simp [SizeForm.tokens, listedFaceTokens]
    | cons face rest =>
      simp [SizeForm.tokens, listedFaceTokens, add_notMem_signed face,
        add_notMem_moreFaceTokens trailing rest]

/-- There is no plus sign among the tokens of dice. A minus sign may stand
there, in front of a face. -/
theorem add_notMem_diceTokens (form : SegmentForm) : .operator .add ∉ form.diceTokens := by
  have sized : .operator .add ∉ form.size.elim [] SizeForm.tokens := by
    cases form.size with
    | none => simp
    | some size => exact add_notMem_size size
  simp [SegmentForm.diceTokens, sized]

/-- Without the token of a plus sign nothing cuts a text. There are no
parentheses among tokens. -/
theorem uncut_of_lexes {tokens : List Token} (lexes : Lexes text tokens)
    (other : .operator .add ∉ tokens) : Uncut text := by
  have inside := (lexes_iff_spelt.1 lexes).of_mem
  refine ⟨balanced_of_plain fun c mem => ⟨(inside c mem).1, (inside c mem).2.1⟩, ?_⟩
  exact hasOuterPlus_of_forall_ne 0 fun c mem plus => other ((inside c mem).2.2 plus)

/-- A text with a token is not blank. -/
theorem blank_of_lexes {token : Token} {tokens : List Token} (lexes : Lexes text tokens)
    (mem : token ∈ tokens) : text.blank = false := by
  by_contra blank
  rw [Bool.not_eq_false] at blank
  have none : Lexes [] tokens := (lexes_append_blanks_iff blank).1 lexes
  rw [← none.tokens_eq] at mem
  cases mem

/-! ## What can be behind dice -/

/-- Whether a text begins with nothing that could belong to dice in front of it.
-/
def Unsized (text : Text) : Prop :=
  ∀ c ∈ text.trimStart.head?, c.isDigit = false ∧ c.toLower ≠ 'h' ∧ c.toLower ≠ 'l' ∧
    c.toLower ≠ 'f' ∧ c ≠ '%' ∧ c ≠ '['

theorem trimStart_blank {c : Char} (blank : isBlank c = true) (rest : Text) :
    trimStart (c :: rest) = rest.trimStart := List.dropWhile_cons_of_pos blank

/-- No token of the dice goes on with such a text. What is read in front of it
is read there without it as well. -/
theorem Unsized.separate (unsized : Unsized text) : Separate text := by
  intro c mem
  cases blank : isBlank c with
  | true =>
    obtain ⟨digit, -, other⟩ := ends_at_blank c blank
    exact ⟨digit, other⟩
  | false =>
    obtain ⟨rest, rfl⟩ := List.head?_eq_some_iff.1 mem
    have first := unsized c (by rw [trimStart_cons blank]; rfl)
    exact ⟨first.1, first.2.1, first.2.2.1⟩

/-- A part in front of such a text is one as well. -/
theorem Unsized.of_start (unsized : Unsized text) (le : front <+: text) : Unsized front := by
  -- the front may end among the blanks, and then nothing is said of it
  induction front generalizing text with
  | nil => simp [Unsized, trimStart]
  | cons c front ih =>
    obtain ⟨rest, rfl⟩ := le
    unfold Unsized at unsized ⊢
    cases blank : isBlank c with
    | true =>
      rw [List.cons_append, trimStart_blank blank] at unsized
      rw [trimStart_blank blank]
      exact ih unsized (List.prefix_append front rest)
    | false =>
      rw [List.cons_append, trimStart_cons blank] at unsized
      rw [trimStart_cons blank]
      exact unsized

/-- The first token of a text is spelled where the blanks end. So a condition on
the token is one on the first character. -/
theorem exists_spelling_of_current {position : Nat} {token : Token}
    (current : (ofText position text).current = some token) :
    ∃ c tail, c ∈ text.trimStart.head? ∧ token.SpelledBy (c :: tail) := by
  induction text generalizing position with
  | nil => cases current
  | cons c rest ih =>
    cases read : Lexeme.read c rest with
    -- a blank is passed over by the reader and trimmed from the text
    | blank =>
      have blank := isBlank_of_read read
      rw [ofText_blank blank] at current
      rw [trimStart_blank blank]
      exact ih current
    | token found width =>
      obtain ⟨tail, after, rfl, -, spelled, ends⟩ := exists_spelling_of_read read
      have solid := (spelled.of_mem c (by simp)).1
      have stream := ofText_token spelled ends position
      rw [List.cons_append] at stream
      rw [stream] at current
      cases current
      exact ⟨c, tail, by rw [trimStart_cons solid]; rfl, spelled⟩
    | broken fault width =>
      rw [ofText, scan, read] at current
      cases current

/-- The tokens of such a text do not begin with a size. The dice in front of it
end where they ended without it. -/
theorem Unsized.sizeless (unsized : Unsized text) (position : Nat) :
    Sizeless ((ofText position text).tokens.map (·.token)) := by
  have other : ∀ token ∈ (ofText position text).current, token.isNumber = false ∧
      token ≠ .fudge ∧ token ≠ .percent ∧ token ≠ .leftBracket := by
    intro token current
    obtain ⟨c, tail, head, spelled⟩ := exists_spelling_of_current current
    obtain ⟨digit, -, -, fudge, percent, bracket⟩ := unsized c head
    cases token with
    | number value =>
      have isDigit := spelled.1 c (by simp)
      rw [digit] at isDigit
      cases isDigit
    | fudge => exact absurd (List.cons.inj spelled).1 fudge
    | percent =>
      exact absurd (eq_of_toLower_eq (by decide) (List.cons.inj spelled).1) percent
    | leftBracket =>
      exact absurd (eq_of_toLower_eq (by decide) (List.cons.inj spelled).1) bracket
    | _ => simp [Token.isNumber]
  unfold Sizeless Detached
  rw [List.head?_map]
  exact ⟨fun token mem => (other token mem).1, fun token mem => (other token mem).2⟩

/-- Whether a modifier can begin with a token. An operator counts, as operators
stand where a modifier may. -/
def Token.BeginsModifier : Token → Prop
  | selection _ | explode | operator _ => True
  | _ => False

/-- What begins a modifier is no number, and is not written with what could be a
size. -/
theorem Token.BeginsModifier.spelling_eq_cons {token : Token} (begins : token.BeginsModifier) :
    token.isNumber = false ∧ ∃ first tail, token.spelling = first :: tail ∧
      first.toLower ≠ 'f' ∧ first.toLower ≠ '%' ∧ first.toLower ≠ '[' := by
  cases token with
  | selection rule => cases rule <;> exact ⟨rfl, _, _, rfl, by decide⟩
  | explode => exact ⟨rfl, _, _, rfl, by decide⟩
  | operator op => cases op <;> exact ⟨rfl, _, _, rfl, by decide⟩
  | _ => cases begins

/-- A text whose first token begins a modifier could not belong to dice. -/
theorem unsized_of_current {position : Nat} {token : Token}
    (current : (ofText position text).current = some token)
    (begins : token.BeginsModifier) : Unsized text := by
  obtain ⟨c, tail, head, spelled⟩ := exists_spelling_of_current current
  obtain ⟨digit, h, l⟩ := spelled.of_head
  obtain ⟨other, first, after, written, fudge, percent, bracket⟩ := begins.spelling_eq_cons
  -- the first character is the first one of the spelling, in one case or the other
  have lower : c.toLower = first.toLower := by
    cases token with
    | number value => cases other
    | _ =>
      have same := spelled.trans (congrArg (List.map Char.toLower) written)
      exact (List.cons.inj same).1
  intro d head'
  obtain rfl : c = d := Option.some.inj (head.symm.trans head')
  refine ⟨?_, h, l, lower ▸ fudge, ?_, ?_⟩
  · rw [Bool.eq_false_iff]
    intro isDigit
    rw [digit isDigit] at other
    cases other
  · intro same
    subst same
    exact percent lower.symm
  · intro same
    subst same
    exact bracket lower.symm

/-! ## Faults without their positions -/

/-- A result of reading without the position of a fault. Parentheses move
positions and nothing else. -/
def unplaced (result : Except ParseError α) : Except Fault α := result.mapError (·.fault)

/-- Without positions a text further on gives the same result. -/
theorem Shifted.unplaced_eq {k : Nat} {result moved : Except ParseError α}
    (shifted : Shifted k id result moved) : unplaced moved = unplaced result := by
  cases shifted <;> rfl

theorem unplaced_map (result : Except ParseError α) (f : α → β) :
    unplaced (result.map f) = (unplaced result).map f := by cases result <;> rfl

/-- Modifiers are read the same wherever they begin. Only the position of a
fault would tell. -/
theorem unplaced_readModifiers (e : Expr) (position : Nat) (text : Text) :
    unplaced ((ofText position text).ready >>= readModifiers e) =
      unplaced ((ofText 0 text).ready >>= readModifiers e) := by
  have moved := ofText_shifted position 0 text
  rw [Nat.zero_add] at moved
  rw [moved]
  exact (ready_shifted.bind fun stream => readModifiers_shifted e).unplaced_eq

/-- Segments are read the same wherever they begin. What was visited before
plays no part in the result. -/
theorem unplaced_readAll {read : Nat → Text → Reading Expr} (shifts : Shifts read)
    (offset : Nat) (visits : Array Visit) (trees : List Expr) (pieces : List Text) :
    unplaced (readAll read offset visits trees pieces).result =
      unplaced (readAll read 0 #[] trees pieces).result := by
  have moved := @Shifts.readAll offset read shifts pieces 0 #[] visits trees
  rw [Nat.zero_add] at moved
  exact moved.unplaced_eq

/-- What is wrong with the parentheses of a text is wrong with them behind a
balanced part. -/
theorem unplaced_parse_of_unbalanced? {error : ParseError} (balanced : front.Balanced)
    (found : unbalanced? 0 0 text = some error) :
    unplaced (parse (front ++ text)) = .error error.fault := by
  have moved := unbalanced?_append balanced 0 0 text
  rcases @unbalanced?_shifted front.byteLength 0 0 text with
    ⟨none, -⟩ | ⟨fault, position, here, there⟩
  · rw [found] at none
    cases none
  · rw [found] at here
    cases here
    rw [there] at moved
    rw [parse_of_unbalanced? moved]
    rfl

/-- All segments but the first are read the same, whatever is in front of them.
So the comparison comes down to the first one. -/
theorem unplaced_parse_append {first : Text} {rest : List Text}
    (balanced : (front ++ text).Balanced) (solid : front.blank = false)
    (cut : cutSegments (front ++ text) = (front ++ first) :: rest) :
    unplaced (parse (front ++ text)) =
      unplaced (readPieceWithin nestingLimit 0 (front ++ first)).result >>= fun e =>
        (unplaced (readAll (readPieceWithin nestingLimit) 0 #[] [e] rest).result).map combine := by
  have whole : (front ++ text).blank = false := by
    unfold blank at solid ⊢
    rw [List.all_append, solid, Bool.false_and]
  rw [parse, compile, readText_of_balanced balanced whole, cut, readAll_cons]
  cases (readPieceWithin nestingLimit 0 (front ++ first)).result with
  | error error => rfl
  | ok e =>
    refine (unplaced_map _ combine).trans (congrArg (Except.map combine) ?_)
    exact unplaced_readAll (readPieceWithin_shifts nestingLimit) _ _ [e] rest

/-! ## The two ways -/

section Dice

variable (lexes : Lexes front (SegmentForm.unmodified quantity size).diceTokens)

include lexes

theorem readsPiece_unmodified (levels : Nat) :
    ReadsPiece levels front (SegmentForm.unmodified quantity size).dice? := by
  rw [← SegmentForm.tokens_unmodified] at lexes
  rw [← SegmentForm.expr?_unmodified]
  exact readsPiece_of_lexes _ lexes levels

theorem uncut_unmodified : Uncut front := uncut_of_lexes lexes (add_notMem_diceTokens _)

theorem blank_unmodified : front.blank = false :=
  blank_of_lexes lexes (List.mem_append_right _ (List.mem_cons_self ..))

/-- Dice that are accepted are the dice of their form. There is nothing else
that the notation could stand for. -/
theorem dice?_of_parse (ok : parse front = .ok e) :
    (SegmentForm.unmodified quantity size).dice? = some e := by
  have read := readsPiece_unmodified lexes nestingLimit 0
  rw [parse, compile, readText_of_uncut (uncut_unmodified lexes) (blank_unmodified lexes)] at ok
  rw [ok] at read
  exact read.symm

variable (made : (SegmentForm.unmodified quantity size).dice? = some e)

include made

/-- Dice as they are: one stream has the tokens of the dice and those behind
them. -/
theorem unplaced_readPiece_dice (unsized : Unsized text) (levels offset : Nat) :
    unplaced (readPieceWithin levels offset (front ++ text)).result =
      unplaced ((ofText 0 text.trimEnd).ready >>= readModifiers e) := by
  cases solid : text.blank with
  | true =>
    -- the blanks are trimmed with the dice, so no stream begins with them
    have whole : Lexes (front ++ text) _ := (lexes_append_blanks_iff solid).2 lexes
    have dice := ok_of_toOption ((readsPiece_unmodified whole levels offset).trans made)
    have alone := (readModifiers_eq_ok_iff 0).2 (amends_trimEnd_iff.2 (amends_blank solid e))
    rw [dice, alone]
  | false =>
    obtain ⟨c, rest, start, first⟩ := exists_trimStart (blank_unmodified lexes)
    have trimmed : (front ++ text).trimStart.trimEnd = c :: (rest ++ text.trimEnd) := by
      have whole : front ++ text = front.takeWhile isBlank ++ c :: (rest ++ text) := by
        rw [← List.cons_append, ← List.append_assoc, ← start, takeWhile_append_trimStart]
      rw [whole, trimStart_blanks (blank_takeWhile front), trimStart_cons first]
      exact trimEnd_append solid (c :: rest)
    have spelt := lexes_iff_spelt.1 (lexes_trimStart_iff.2 lexes)
    rw [start] at spelt
    have plain := (spelt.of_mem c (by simp)).1
    obtain ⟨blanks, -, whole⟩ := exists_trimEnd_append text
    have unsized' := unsized.of_start ⟨blanks, whole⟩
    obtain ⟨inner, same⟩ := exists_inner levels
    obtain ⟨position, result⟩ := readPiece_of_trim inner trimmed plain offset
    obtain ⟨placed, tokens, stream⟩ := ofText_append spelt unsized'.separate position
    rw [List.cons_append] at stream
    rw [same, result, stream, ready_behind_bind_readSegment _ made tokens (unsized'.sizeless _)]
    exact unplaced_readModifiers e _ _

/-- Dice in parentheses: a stream begins behind them, with the dice as what the
modifiers apply to. -/
theorem unplaced_readPiece_parenthesized (text : Text) (levels offset : Nat) :
    unplaced (readPieceWithin (levels + 1) offset (front.parenthesized ++ text)).result =
      unplaced ((ofText 0 text.trimEnd).ready >>= readModifiers e) := by
  have whole : front.parenthesized ++ text = [] ++ '(' :: (front ++ ')' :: text) := by
    simp [parenthesized]
  have uncut := uncut_unmodified lexes
  have solid := blank_unmodified lexes
  have dice := ok_of_toOption ((readsPiece_unmodified lexes levels (offset + 1)).trans made)
  rw [readPieceWithin, whole, readPiece_nested blank_nil, readNested_group uncut.balanced solid,
    readText_of_uncut uncut solid]
  simp only [byteLength_nil, Nat.add_zero, dice]
  exact unplaced_readModifiers e _ _

end Dice

/-- **What is behind dice is read the same behind dice in parentheses,** if it
begins like modifiers. Both notations are accepted as the same expression, or
both are refused for the same fault. -/
theorem parse_enclosed (quantity : Option Score) (size : Option SizeForm)
    (lexes : Lexes front
      ((quantity.map Token.number).toList ++ .dice :: size.elim [] SizeForm.tokens))
    (accepted : parse front = .ok e) {token : Token}
    (first : (ofText 0 text).current = some token) (begins : token.BeginsModifier) :
    unplaced (parse (front ++ text)) = unplaced (parse (front.parenthesized ++ text)) := by
  have made := dice?_of_parse lexes accepted
  have uncut := uncut_unmodified lexes
  have group := uncut_parenthesized uncut.balanced
  cases found : unbalanced? 0 0 text with
  | some error =>
    rw [unplaced_parse_of_unbalanced? uncut.balanced found,
      unplaced_parse_of_unbalanced? group.balanced found]
  | none =>
    -- both texts are cut in the same places, so they differ in the first segment alone
    have balanced := balanced_of_unbalanced? found
    obtain ⟨piece, rest, le, cut⟩ := exists_cutSegments_append text
    have unsized := (unsized_of_current first begins).of_start le
    have solid : front.parenthesized.blank = false := by
      have opens : isBlank '(' = false := by decide
      simp [blank, parenthesized, opens]
    rw [unplaced_parse_append (uncut.balanced.append balanced) (blank_unmodified lexes)
        (cut front uncut),
      unplaced_parse_append (group.balanced.append balanced) solid (cut _ group),
      unplaced_readPiece_dice lexes made unsized]
    have enclosed := unplaced_readPiece_parenthesized lexes made piece (nestingLimit - 1) 0
    exact congrArg (· >>= _) enclosed.symm

/-- Dice with a list of faces, a comma behind the last one. -/
def listed : Text := "4 D[1,-2,]".toList

/-- The letters of a rule follow the dice, and the fault is behind the next cut.
-/
def straying : Text := "dL1 + 2+d6 ?".toList

/-- The same fault is met two bytes further on, behind parentheses: one for each
of them. -/
theorem parse_enclosed_straying :
    parse listed = .ok (.copies (.die (.custom [1, .clamp (-2)] (by decide))) 4) ∧
    (ofText 0 straying).current = some (.selection .dropLowest) ∧
    parse (listed ++ straying) = .error ((Fault.invalidToken '?').located 21) ∧
    unplaced (parse (listed.parenthesized ++ straying)) = .error (.invalidToken '?') := by
  have lexes : Lexes listed (((some 4).map Token.number).toList ++
      .dice :: (some (SizeForm.faces [.plain 1, .minus 2] true)).elim [] SizeForm.tokens) :=
    ⟨by decide +kernel, by decide +kernel⟩
  have accepted : parse listed = .ok (.copies (.die (.custom [1, .clamp (-2)] (by decide))) 4) := by
    decide +kernel
  have first : (ofText 0 straying).current = some (.selection .dropLowest) := by decide +kernel
  have failed : parse (listed ++ straying) = .error ((Fault.invalidToken '?').located 21) := by
    decide +kernel
  have same := parse_enclosed _ _ lexes accepted first trivial
  rw [failed] at same
  exact ⟨accepted, first, failed, same.symm⟩

end Dice.Notation
