import Dice.Notation.Compile
import Dice.Proofs.Expr.Built
import Dice.Proofs.Expr.Legible
import Dice.Proofs.Notation.Consumed

/-!
# What is read is legible

Every segment that is read has a form, and its expression is built from the
parts of the form by the constructors. So a property that the constructors
pass on holds of everything that is read; a part in parentheses is a notation
of its own, which is an induction on the levels of parentheses.

`Carried` has a field for each constructor, with what is known of the numbers
that a reader gives to it. That they are known to be in range is the only
thing which sets a property of what is read apart from one of what is built.

No token is a negative number: the minus sign is a token of its own, and a
number without it is at most the greatest score. So no number that is read is
the least score. Pools come from quantities above one and from sums of more
than one segment, and no segment is empty.

Main statements: `Carried.of_parse`, by which a property is shown of
everything that is read, and `legible_of_parse`.
-/

namespace Dice

open Notation

namespace Expr

variable {e made : Expr} {summands : List Expr}

/-! ## Building legible expressions -/

/-- A sum of several legible expressions is legible. None of them is empty, so
all of them are members of it. -/
theorem legible_pool (several : 2 ≤ summands.length) (each : ∀ m ∈ summands, m.Every Legible) :
    (sum summands).Every Legible := by
  have normal : Normal summands := by
    refine ⟨fun m hm => isEmpty_of_legible (each m hm), ?_⟩
    rintro inner rfl
    simp at several
  rw [sum, sumMembers_of_normal normal]
  exact .pool summands several each

/-- Copies of a legible expression are legible. They are a sum of equal members,
or the expression itself. -/
theorem legible_copies (legible : e.Every Legible) (quantity : Nat) :
    (e.copies quantity).Every Legible := by
  unfold copies
  split
  next => exact legible
  next several =>
    refine legible_pool (by rw [List.length_replicate]; omega) fun m hm => ?_
    rwa [List.eq_of_mem_replicate hm]

/-- What is read for several segments is legible if each of them is. There has
to be a segment, as the sum of nothing is not legible. -/
theorem legible_combine (each : ∀ m ∈ summands, m.Every Legible) (some : summands ≠ []) :
    (combine summands).Every Legible := by
  unfold combine
  split
  next e => exact each e (by simp)
  next other =>
    refine legible_pool ?_ each
    match summands, some, other with
    | [e], _, other => exact absurd rfl (other e)
    | _ :: _ :: _, _, _ => simp

/-- The members of a legible expression can be put under a modifier, also if it
is its own only member. -/
theorem legiblePool_members (legible : e.Every Legible) : LegiblePool e.members := by
  cases legible with
  | pool members several _ =>
    refine ⟨ne_nil_of_legible several, ?_⟩
    rintro inner rfl
    simp [Legible] at several
  | _ => exact ⟨by simp [members], by simp [members]⟩

theorem legible_apply {op : Operator} {operand : UInt32} (legible : e.Every Legible)
    (ok : e.apply op operand = .ok made) : made.Every Legible := by
  obtain ⟨rfl, -⟩ := accepted_apply ok
  exact .arithmetic e op operand trivial legible

/-- A selection is legible if its pool is and its threshold is within the range.
-/
theorem legible_select {rule : Selection} {threshold : Nat}
    (fits : (threshold : Int) ≤ Score.highest.val) (legible : e.Every Legible)
    (ok : e.select rule threshold = .ok made) : made.Every Legible := by
  obtain ⟨rfl, -⟩ := accepted_select ok
  exact .selection _ _ _ ⟨legiblePool_members legible, fits⟩ legible.members

/-- An explosion is legible if its pool is and its threshold is not the least
score. -/
theorem legible_explode {c : Comparator} {threshold : Option Score}
    (above : threshold ≠ some .lowest) (legible : e.Every Legible)
    (ok : e.explode c threshold = .ok made) : made.Every Legible := by
  obtain ⟨rfl, -⟩ := accepted_explode ok
  exact .explosion _ _ _ ⟨legiblePool_members legible, above⟩ legible.members

end Expr

namespace Notation

variable {e made : Expr} {stream : TokenStream} {tokens : List Token} {p : Expr → Prop}

/-! ## Legible forms -/

theorem ne_lowest_of_nonneg {a : Score} (nonneg : 0 ≤ a.val) : a ≠ .lowest := by
  rintro rfl
  exact absurd nonneg (by decide)

/-- The least score is the negative of no score. That is why no notation has it
as a face. -/
theorem neg_ne_lowest {a : Score} (nonneg : 0 ≤ a.val) : Score.clamp (-a.val) ≠ .lowest := by
  intro same
  have val := congrArg Score.val same
  have le := a.le_highest
  simp only [Score.val_clamp, Score.lowest, Score.highest] at val le
  omega

/-- A signed number is not the least score, since its magnitude is a score. -/
theorem SignedForm.value_ne_lowest {face : SignedForm}
    (nonneg : ∀ value, .number value ∈ face.tokens → 0 ≤ value.val) : face.value ≠ .lowest := by
  cases face with
  | plain magnitude => exact ne_lowest_of_nonneg (nonneg magnitude (by simp [tokens]))
  | minus magnitude => exact neg_ne_lowest (nonneg magnitude (by simp [tokens]))

/-- The tokens of a face are among those of its list. -/
theorem tokens_subset_listedFaceTokens (trailing : Bool) {listed : List SignedForm}
    {face : SignedForm} (mem : face ∈ listed) :
    face.tokens ⊆ listedFaceTokens trailing listed := by
  have more : ∀ {listed}, face ∈ listed → face.tokens ⊆ moreFaceTokens trailing listed := by
    intro listed mem
    induction listed with
    | nil => simp at mem
    | cons first rest ih =>
      intro token ht
      rcases List.mem_cons.1 mem with rfl | mem
      · simp [moreFaceTokens, ht]
      · simp [moreFaceTokens, ih mem ht]
  cases listed with
  | nil => simp at mem
  | cons first rest =>
    intro token ht
    rcases List.mem_cons.1 mem with rfl | mem
    · simp [listedFaceTokens, ht]
    · simp [listedFaceTokens, more mem ht]

/-- The faces of a die that is read can be written. For the other dice there is
nothing to show. -/
theorem SizeForm.legible_of_die? {size : SizeForm} {d : Die}
    (nonneg : ∀ value, .number value ∈ size.tokens → 0 ≤ value.val) (some : size.die? = some d) :
    LegibleDie d := by
  cases size with
  | sides count =>
    have sized := ok_of_toOption some
    unfold Die.ofSides at sized
    split at sized <;> cases sized
    trivial
  | fudge | percent =>
    cases some
    trivial
  | faces listed trailing =>
    have sized := ok_of_toOption some
    unfold Die.ofFaces at sized
    split at sized <;> cases sized
    refine List.forall_mem_map.2 fun face mem => SignedForm.value_ne_lowest fun value number => ?_
    have inside := tokens_subset_listedFaceTokens trailing mem number
    exact nonneg value (by simp [tokens, inside])

/-! ## What is carried -/

/-- What holds of everything that is read: it holds of legible dice, and the
constructors pass it on as long as the numbers that they are given can be
written. -/
structure Carried (p : Expr → Prop) : Prop where
  dice : ∀ {d : Die} (quantity : Nat), LegibleDie d → p ((Expr.die d).copies quantity)
  select : ∀ {e made : Expr} {rule : Selection} {threshold : Nat},
    (threshold : Int) ≤ Score.highest.val → p e → e.select rule threshold = .ok made → p made
  explode : ∀ {e made : Expr} {c : Comparator} {threshold : Option Score},
    threshold ≠ some .lowest → p e → e.explode c threshold = .ok made → p made
  apply : ∀ {e made : Expr} {op : Operator} {operand : UInt32},
    p e → e.apply op operand = .ok made → p made
  combine : ∀ {summands}, (∀ m ∈ summands, p m) → summands ≠ [] → p (combine summands)

namespace Carried

variable (carried : Carried p)
include carried

/-- A modifier of a form passes the property on. -/
theorem applied {form : ModifierForm}
    (nonneg : ∀ value, .number value ∈ form.tokens → 0 ≤ value.val) (holds : p e)
    (applied : form.applied e = some made) : p made := by
  cases form with
  -- a threshold that was read is not negative, so nothing is lost in making it a number
  | selection rule threshold =>
    refine carried.select ?_ holds (ok_of_toOption applied)
    cases threshold with
    | none => decide
    | some threshold =>
      have nonneg := nonneg threshold (by simp [ModifierForm.tokens])
      have fits := threshold.le_highest
      rwa [Option.elim_some, Int.toNat_of_nonneg nonneg]
  | explosion threshold =>
    refine carried.explode ?_ holds (ok_of_toOption applied)
    rintro rfl
    exact ne_lowest_of_nonneg (nonneg _ (by simp [ModifierForm.tokens])) rfl
  | comparison c threshold =>
    refine carried.explode ?_ holds (ok_of_toOption applied)
    cases threshold with
    | none => simp
    | some signed =>
      have above : signed.value ≠ .lowest := SignedForm.value_ne_lowest fun value number =>
        nonneg value (by simp [ModifierForm.tokens, number])
      simpa using above

/-- Operators pass the property on, one after the other. The induction is on
their list. -/
theorem operate {operators : List (Operator × UInt32)} (holds : p e)
    (operated : operate? e operators = some made) : p made := by
  induction operators generalizing e with
  | nil =>
    cases operated
    exact holds
  | cons first rest ih =>
    obtain ⟨inner, applied, operated⟩ := Option.bind_eq_some_iff.1 operated
    exact ih (carried.apply holds (ok_of_toOption applied)) operated

/-- A modifier and operators pass the property on. This is the part of a segment
behind its dice or its parentheses. -/
theorem modifiers {modifier : Option ModifierForm} {operators : List (Operator × UInt32)}
    (nonneg : ∀ value, .number value ∈ modifier.elim [] ModifierForm.tokens → 0 ≤ value.val)
    (holds : p e)
    (read : (modifier.elim (some e) (·.applied e)).bind (operate? · operators) = some made) :
    p made := by
  obtain ⟨inner, modified, operated⟩ := Option.bind_eq_some_iff.1 read
  refine carried.operate ?_ operated
  cases modifier with
  | none =>
    cases modified
    exact holds
  | some form => exact carried.applied nonneg holds modified

/-- The expression of a form has the property if no number of the form is
negative. -/
theorem segment {form : SegmentForm}
    (nonneg : ∀ value, .number value ∈ form.tokens → 0 ≤ value.val) (made : form.expr? = some e) :
    p e := by
  unfold SegmentForm.expr? SegmentForm.dice? at made
  simp only [Option.bind_assoc] at made
  obtain ⟨d, sized, made⟩ := Option.bind_eq_some_iff.1 made
  obtain ⟨dice, counted, made⟩ := Option.bind_eq_some_iff.1 made
  -- without a size the dice have six sides, which can be written
  have legible : LegibleDie d := by
    cases size : form.size with
    | none =>
      rw [size] at sized
      cases sized
      trivial
    | some size' =>
      rw [size] at sized
      refine SizeForm.legible_of_die? (fun value number => nonneg value ?_) sized
      simp [SegmentForm.tokens, SegmentForm.diceTokens, size, number]
  refine carried.modifiers (fun value number => nonneg value ?_) ?_ made
  · simp [SegmentForm.tokens, number]
  · unfold dice? at counted
    split at counted
    next =>
      cases counted
      exact carried.dice _ legible
    next => cases counted

theorem of_readModifiers (holds : p e) (ready : stream.ready = .ok stream)
    (unsigned : Unsigned stream.tokens) (ok : readModifiers e stream = .ok made) : p made := by
  obtain ⟨modifier, operators, same, read, -⟩ := exists_form_of_readModifiers ready unsigned ok
  exact carried.modifiers (fun value number => same.nonneg unsigned (by simp [number])) holds read

theorem of_readSegment (ready : stream.ready = .ok stream) (unsigned : Unsigned stream.tokens)
    (ok : readSegment stream = .ok made) : p made := by
  obtain ⟨form, same, read⟩ := exists_form_of_readSegment ready unsigned ok
  exact carried.segment (fun value number => same.nonneg unsigned number) read

end Carried

/-! ## Segments and sums -/

/-- Whether whatever is read has a property. A reader of segments that has it
hands it on to the reader of texts. -/
def Gives (p : Expr → Prop) (read : Nat → Text → Reading Expr) : Prop :=
  ∀ offset text e, (read offset text).result = .ok e → p e

/-- Segments that are read give as many expressions, each with the property.
Their number matters, since only blank texts have none. -/
theorem Gives.readAll {read : Nat → Text → Reading Expr} (gives : Gives p read)
    {offset : Nat} {visits : Array Visit} {trees : List Expr} {pieces : List Text}
    {all : List Expr} (before : ∀ m ∈ trees, p m)
    (ok : (readAll read offset visits trees pieces).result = .ok all) :
    (∀ m ∈ all, p m) ∧ all.length = trees.length + pieces.length := by
  induction pieces generalizing offset visits trees with
  | nil =>
    rw [readAll_nil] at ok
    cases ok
    simpa using before
  | cons piece rest ih =>
    rw [readAll_cons] at ok
    split at ok
    next => cases ok
    next tree single =>
      obtain ⟨each, length⟩ := ih (List.forall_mem_cons.2 ⟨gives _ _ _ single, before⟩) ok
      exact ⟨each, by simp only [List.length_cons] at length ⊢; omega⟩

/-- There is at least one piece. -/
theorem cutAtPluses_ne_nil (depth : Nat) (piece : Text) (done : List Text) (text : Text) :
    cutAtPluses depth piece done text ≠ [] := by
  induction text generalizing depth piece done with
  | nil => simp [cutAtPluses]
  | cons c rest ih =>
    unfold cutAtPluses
    split
    next => exact ih _ _ _
    next =>
      split
      next => exact ih _ _ _
      next => split <;> exact ih _ _ _

theorem gather_ne_nil (segment : Text) (done rest : List Text) :
    gather segment done rest ≠ [] := by
  induction rest generalizing segment done with
  | nil => simp [gather]
  | cons fragment rest ih =>
    unfold gather
    split <;> exact ih _ _

theorem cutSegments_ne_nil (text : Text) : cutSegments text ≠ [] := by
  unfold cutSegments
  split
  next none => exact absurd none (cutAtPluses_ne_nil 0 [] [] text)
  next => exact gather_ne_nil _ _ _

/-- A text is read as what its segments combine to, if it is not blank. A blank
one is read as the sum of nothing. -/
theorem Carried.of_readText (carried : Carried p) {read : Nat → Text → Reading Expr}
    (gives : Gives p read) {offset : Nat} {text : Text} {e : Expr} (some : text.blank = false)
    (ok : (readText read offset text).result = .ok e) : p e := by
  unfold readText at ok
  rw [some] at ok
  simp only [Bool.false_eq_true, if_false] at ok
  split at ok
  next => cases ok
  next pieces cut =>
    dsimp only at ok
    cases all : (readAll read offset #[] [] pieces).result with
    | error error =>
      rw [all] at ok
      cases ok
    | ok trees =>
      rw [all] at ok
      cases ok
      obtain ⟨each, length⟩ := gives.readAll (by simp) all
      refine carried.combine each ?_
      -- a text is cut into one segment at least
      rintro rfl
      have none : pieces = [] := List.length_eq_zero_iff.1 (by simpa using length.symm)
      unfold segments at cut
      split at cut
      next => cases cut
      next => exact cutSegments_ne_nil text (none ▸ Except.ok.inj cut)

/-- A segment has the property if what is in parentheses has it. For dice it is
shown from the form of the segment. -/
theorem Carried.readPiece (carried : Carried p) {inner : Option (Nat → Text → Reading Expr)}
    (gives : ∀ read ∈ inner, Gives p read) : Gives p (readPiece inner) := by
  intro offset text e ok
  unfold Notation.readPiece at ok
  dsimp only at ok
  split at ok
  next => cases ok
  next first rest _ =>
    split at ok
    next =>
      dsimp only at ok
      unfold readNested at ok
      split at ok
      next => cases ok
      next read =>
        split at ok
        next => cases ok
        next interior suffix _ =>
          split at ok
          next => cases ok
          next some =>
            -- what is in parentheses has the property, and modifiers pass it on
            obtain ⟨inside, read, ok⟩ := bind_ok ok
            have inner := carried.of_readText (gives _ rfl) (by simpa using some) read
            obtain ⟨stream, ready, ok⟩ := bind_ok ok
            obtain rfl := TokenStream.eq_of_ready ready
            exact carried.of_readModifiers inner ready (unsigned_ofText _ _) ok
    next =>
      obtain ⟨stream, ready, ok⟩ := bind_ok ok
      obtain rfl := TokenStream.eq_of_ready ready
      exact carried.of_readSegment ready (unsigned_ofText _ _) ok

theorem Carried.readPieceWithin (carried : Carried p) (levels : Nat) :
    Gives p (readPieceWithin levels) := by
  induction levels with
  | zero => exact carried.readPiece (by simp)
  | succ levels ih => exact carried.readPiece (by simpa using ih)

/-- What is carried holds of the expression of a notation that is not blank. The
levels of parentheses are gone through by induction. -/
theorem Carried.of_parse (carried : Carried p) {text : Text} {e : Expr}
    (some : text.blank = false) (ok : parse text = .ok e) : p e :=
  carried.of_readText (carried.readPieceWithin nestingLimit) some ok

/-- **What is read from a notation that is not blank is legible.** So what is
said of written forms applies to everything that is read. -/
theorem legible_of_parse {text : Text} {e : Expr} (some : text.blank = false)
    (ok : parse text = .ok e) : e.Every Expr.Legible :=
  Carried.of_parse
    { dice := fun quantity legible => Expr.legible_copies (.die _ legible) quantity
      select := Expr.legible_select
      explode := Expr.legible_explode
      apply := Expr.legible_apply
      combine := Expr.legible_combine } some ok

end Notation

end Dice
