import Dice.Notation.Compile
import Dice.Proofs.Notation.Grammar
import Dice.Proofs.Notation.Written

/-!
# Reading written segments

A written segment has no blanks, so nothing is trimmed. If it begins with dice
its tokens decide what it stands for; if it begins with a part in parentheses
that is read as a notation of its own, one level further down. A written sum
is read part by part.

What is read is stated as an option, for any place of the text: where a
segment begins decides on the positions of faults, and whether there is a
fault at all does not depend on it.

The number of dice that is written may be past the range of scores. Then it is
no token, and the text is refused for its first token instead of for the
number; that makes no difference to the option.

Main statements: `readsPiece_dice`, `readsPiece_group` and
`readsText_of_pieces`.
-/

namespace Dice.Notation

open Text

variable {levels : Nat} {text : Text}

/-! ## Blanks -/

/-- Nothing is trimmed from a text without blanks. -/
theorem Solid.trimStart (solid : Solid text) : text.trimStart = text := by
  cases text with
  | nil => rfl
  | cons c rest => simp [Text.trimStart, solid c (by simp)]

theorem Solid.trimEnd (solid : Solid text) : text.trimEnd = text := by
  have back : Solid text.reverse := fun c hc => solid c (by simpa using hc)
  rw [Text.trimEnd, back.trimStart, List.reverse_reverse]

/-! ## What is read -/

/-- What a text is read as, none if it is refused, wherever it begins. Which
fault it is refused for is left out. -/
def ReadsText (levels : Nat) (text : Text) (outcome : Option Expr) : Prop :=
  ∀ offset, (readText (readPieceWithin levels) offset text).result.toOption = outcome

/-- What a segment is read as, none if it is refused, wherever it begins. A
segment begins with parentheses or with dice. -/
def ReadsPiece (levels : Nat) (text : Text) (outcome : Option Expr) : Prop :=
  ∀ offset, (readPieceWithin levels offset text).result.toOption = outcome

/-- The level below, if there is one. On the last level nothing can be in
parentheses any more. -/
def below (levels : Nat) (outcome : Nat → Option Expr) : Option Expr :=
  match levels with
  | 0 => none
  | levels + 1 => outcome levels

/-- A segment without blanks that does not begin with a parenthesis is read from
its tokens. -/
theorem readPiece_plain {inner : Option (Nat → Text → Reading Expr)} {first : Char} {rest : Text}
    (solid : Solid (first :: rest)) (plain : first ≠ '(') (offset : Nat) :
    (readPiece inner offset (first :: rest)).result.toOption =
      (TokenStream.ofText offset (first :: rest)).ready.toOption.bind fun stream =>
        (readSegment stream).toOption := by
  unfold readPiece
  simp only [solid.trimStart, solid.trimEnd, Nat.sub_self, Nat.add_zero, if_neg plain]
  cases (TokenStream.ofText offset (first :: rest)).ready <;> rfl

/-- A segment without blanks that begins with a parenthesis is read from the
text behind that. -/
theorem readPiece_open {inner : Option (Nat → Text → Reading Expr)} {rest : Text}
    (solid : Solid ('(' :: rest)) (offset : Nat) :
    (readPiece inner offset ('(' :: rest)).result = (readNested inner offset rest).result := by
  unfold readPiece
  simp only [solid.trimStart, solid.trimEnd, Nat.sub_self, Nat.add_zero, if_true]

/-- At every level segments are read in the same way, but for what is in
parentheses. -/
theorem exists_inner (levels : Nat) : ∃ inner, readPieceWithin levels = readPiece inner := by
  cases levels <;> exact ⟨_, rfl⟩

/-! ## Segments -/

variable (levels : Nat) {m : Option Modifier} {operators : List (Operator × UInt32)}

/-- Dice of a number that is a score are read token by token. The number may
still be past the limit of quantities. -/
theorem readsPiece_fitting {d : Die} (legibleDie : LegibleDie d) {quantity : Nat}
    (fits : (quantity : Int) ≤ Score.highest.val) (legible : ∀ x ∈ m, x.Legible)
    (few : operators.length ≤ 2) (bare : ∀ x ∈ m, x.Bare → operators = []) :
    ReadsPiece levels (diceText quantity d ++ (modifierText m ++ operatorsText operators))
      (((dice? quantity d).bind (modify? m)).bind (operate? · operators)) := by
  intro offset
  obtain ⟨inner, same⟩ := exists_inner levels
  let tokens := diceTokens quantity d ++ (modifierTokens m ++ operatorTokens operators)
  have text_eq : diceText quantity d ++ (modifierText m ++ operatorsText operators) =
      tokens.flatMap Token.spelling := by
    rw [List.flatMap_append, spelling_diceTokens fits legibleDie, spelling_suffix operators legible]
  have spelled : Spelled tokens :=
    (spelled_diceTokens quantity d).append (spelled_suffix m operators)
      (detached_suffix m operators)
  have solid := solid_spellings tokens
  have holds := holds_ofText_spelling spelled.spellable spelled.apart offset
  rw [same, text_eq]
  -- dice begin with a digit or the letter of a die, never with a parenthesis
  obtain ⟨first, rest, whole, plain⟩ : ∃ first rest,
      tokens.flatMap Token.spelling = first :: rest ∧ first ≠ '(' := by
    cases list : tokens with
    | nil => cases d <;> simp [tokens, diceTokens, dieTokens] at list
    | cons token more =>
      obtain ⟨first, tail, start, -, -, -, plain⟩ := token.spelling_eq_cons
      exact ⟨first, tail ++ more.flatMap Token.spelling, by simp [start], plain⟩
  rw [whole] at solid holds ⊢
  rw [readPiece_plain solid plain, holds.ready]
  exact readSegment_eq legibleDie quantity legible few bare holds

/-- Dice of a number past all scores are refused at their first token. No list
of tokens has such a number. -/
theorem readsPiece_past {d : Die} (legibleDie : LegibleDie d) {quantity : Nat}
    (past : Score.highest.val < quantity) (legible : ∀ x ∈ m, x.Legible) :
    ReadsPiece levels (diceText quantity d ++ (modifierText m ++ operatorsText operators))
      none := by
  intro offset
  obtain ⟨inner, same⟩ := exists_inner levels
  have several : quantity ≠ 1 := by
    rintro rfl
    exact absurd past (by decide)
  have solid : Solid
      (ofNat quantity ++ (d.text ++ (modifierText m ++ operatorsText operators))) := by
    rw [← spelling_dieTokens legibleDie, ← spelling_suffix operators legible]
    exact (solid_ofNat _).append ((solid_spellings _).append (solid_spellings _))
  -- the number ends where the letter of the die stands
  have after : ∀ c ∈ (d.text ++ (modifierText m ++ operatorsText operators)).head?,
      c.isDigit = false := by
    cases d <;> simp [Die.text]
  obtain ⟨fault, stop, stream⟩ := ofText_of_lt past after offset
  rw [same, diceText, if_neg several, List.append_assoc]
  cases digits : ofNat quantity with
  | nil => exact absurd digits (ofNat_ne_nil quantity)
  | cons first rest =>
    have plain : first ≠ '(' := by
      have digit : first.isDigit = true := isDigit_of_mem_ofNat (by rw [digits]; simp)
      rintro rfl
      cases digit
    rw [digits] at solid stream
    rw [List.cons_append] at solid stream ⊢
    rw [readPiece_plain solid plain, stream]
    rfl

variable (m operators) in
/-- A number of dice is read as so many copies, if there can be so many. Two
cases are put together, of a number that is a score and of one that is not. -/
theorem readsPiece_dice {d : Die} (legibleDie : LegibleDie d) (quantity : Nat)
    (legible : ∀ x ∈ m, x.Legible) (few : operators.length ≤ 2)
    (bare : ∀ x ∈ m, x.Bare → operators = []) :
    ReadsPiece levels (diceText quantity d ++ (modifierText m ++ operatorsText operators))
      (((dice? quantity d).bind (modify? m)).bind (operate? · operators)) := by
  by_cases fits : (quantity : Int) ≤ Score.highest.val
  · exact readsPiece_fitting levels legibleDie fits legible few bare
  · have past : Score.highest.val < quantity := by omega
    have none : dice? quantity d = none := by
      rw [dice?, if_neg]
      simp only [quantityLimit, Score.highest] at past ⊢
      omega
    rw [none]
    exact readsPiece_past levels legibleDie past legible

variable (m operators) in
/-- A part in parentheses is read as what its interior is read as one level
further down. -/
theorem readsPiece_group {interior : Text} (firm : Firm interior)
    {outcome : Nat → Option Expr}
    (inside : ∀ lower, ReadsText lower interior (outcome lower))
    (legible : ∀ x ∈ m, x.Legible) (few : operators.length ≤ 2)
    (bare : ∀ x ∈ m, x.Bare → operators = []) :
    ReadsPiece levels (interior.parenthesized ++ (modifierText m ++ operatorsText operators))
      (((below levels outcome).bind (modify? m)).bind (operate? · operators)) := by
  intro offset
  have suffix := spelling_suffix operators legible
  have text_eq : interior.parenthesized ++ (modifierText m ++ operatorsText operators) =
      '(' :: (interior ++ ')' :: (modifierText m ++ operatorsText operators)) := by
    simp [parenthesized]
  -- no part has blanks, so nothing is trimmed
  have whole : Solid ('(' :: (interior ++ ')' :: (modifierText m ++ operatorsText operators))) := by
    have back := solid_spellings (modifierTokens m ++ operatorTokens operators)
    rw [suffix] at back
    have front : Solid ['('] := by simp [Solid]; decide
    have close : Solid [')'] := by simp [Solid]; decide
    exact front.append (firm.solid.append (close.append back))
  rw [text_eq]
  cases levels with
  | zero => rw [readPieceWithin, readPiece_open whole]; rfl
  | succ levels =>
    rw [readPieceWithin, readPiece_open whole, readNested, splitAtClose_close firm.balanced]
    have spelled := spelled_suffix m operators
    have holds := holds_ofText_spelling spelled.spellable spelled.apart
      (offset + interior.byteLength + 2)
    rw [suffix] at holds
    simp only [firm.blank, Bool.false_eq_true, if_false, holds.ready, below]
    -- what is inside is read on the level below, one byte further on
    rw [← inside levels (offset + 1)]
    cases (readText (readPieceWithin levels) (offset + 1) interior).result with
    | error error => rfl
    | ok e => exact readModifiers_eq legible few bare e (by simpa using holds)

variable {levels}

/-! ## Sums -/

/-- Segments are read one by one, and all are refused if one of them is. The
induction is on the items that were written. -/
theorem readAll_eq {α : Type} {items : List α} {write : α → Text} {outcome : α → Option Expr}
    (each : ∀ x ∈ items, ReadsPiece levels (write x) (outcome x)) (offset : Nat)
    (visits : Array Visit) (trees : List Expr) :
    (readAll (readPieceWithin levels) offset visits trees (items.map write)).result.toOption =
      (items.mapM outcome).map (trees.reverse ++ ·) := by
  induction items generalizing offset visits trees with
  | nil => simp [readAll_nil, Except.toOption]
  | cons x rest ih =>
    have head := each x (by simp) offset
    rw [List.map_cons, readAll_cons, List.mapM_cons]
    cases read : (readPieceWithin levels offset (write x)).result with
    | error error =>
      rw [read] at head
      rw [← head]
      rfl
    | ok tree =>
      rw [read] at head
      rw [← head]
      simp only [ih fun y hy => each y (by simp [hy])]
      cases rest.mapM outcome <;> simp [Except.toOption]

/-- A text is read as the sum of what its segments are read as. How it is cut
has to be known. -/
theorem readsText_of_pieces {α : Type} (items : List α) {write : α → Text}
    {outcome : α → Option Expr} (firm : Firm text)
    (cut : cutSegments text = items.map write)
    (each : ∀ x ∈ items, ReadsPiece levels (write x) (outcome x)) :
    ReadsText levels text ((items.mapM outcome).map combine) := by
  intro offset
  simp only [readText, firm.blank, Bool.false_eq_true, if_false,
    segments_ok (unbalanced?_eq_none firm.balanced offset), cut]
  have all := readAll_eq each offset #[] []
  simp only [List.reverse_nil, List.nil_append, Option.map_id'] at all
  rw [← all]
  cases (readAll (readPieceWithin levels) offset #[] [] (items.map write)).result <;> rfl

end Dice.Notation
