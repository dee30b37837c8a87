import Mathlib.Data.List.Forall2
import Dice.Evaluation
import Dice.Proofs.Formula

/-!
# The formula of a toss

Every evaluation that ends leaves a toss whose formula has its value: read
from left to right, with saturation at every step, it comes to just what the
arithmetic of the expression came to. That is so for rolls by any source and
for the least and the greatest value.

A formula stands inside a larger one as a term. It is put in parentheses for
that if it has a blank; `Stands` says that one without a blank is a term as it
is. Each kind of node makes such a formula from the terms of its members.

The tosses of the members are what an induction over the evaluation hands on.
All that is known of them is that each is `Explained`, so the lemmas about
outcomes are about lists of such tosses, and those about evaluations only say
that the lists hold nothing else.

Main statement: `read_operation`.
-/

namespace Dice

namespace Formula

/-! ## Sums of terms -/

/-- A text that has the given value as a formula and, if it has no blank, as a
term. -/
inductive Stands : Text → Score → Prop
  | term {text : Text} {value : Score} (isTerm : IsTerm text value) : Stands text value
  | compound {text : Text} {value : Score} (blank : ' ' ∈ text)
    (isFormula : IsFormula text value) : Stands text value

variable {text : Text} {value : Score} {texts : List Text} {values : List Score}

/-- In both cases it is a formula. Where it stands decides whether it needs
parentheses. -/
theorem Stands.isFormula (stands : Stands text value) : IsFormula text value := by
  cases stands with
  | term isTerm => exact isTerm.isFormula
  | compound blank isFormula => exact isFormula

theorem stands_text (value : Score) : Stands value.text value := .term (isTerm_text value)

/-- An operator behind a term has a blank around it, so what it makes of the
term is only a formula. -/
theorem stands_constant (isTerm : IsTerm text value) (op : Operator) (operand : UInt32) :
    Stands (text ++ constantText op operand) (op.apply value operand) :=
  .compound (by simp [constantText]) (isTerm.isFormula.constant op operand)

/-- Further terms are added to a formula one after the other. The induction is
on the terms, and the sum is folded from the left as values are. -/
theorem IsFormula.join (isFormula : IsFormula text value)
    (terms : List.Forall₂ IsTerm texts values) :
    IsFormula (Text.join [' ', '+', ' '] (text :: texts)) (values.foldl (· + ·) value) := by
  induction terms generalizing text value with
  | nil => rwa [Text.join_singleton]
  | cons first _ ih =>
    have glued := ih (isFormula.plus first)
    exact Text.join_glue _ [] _ _ _ ▸ glued

/-- Terms with plus signs between them are a formula for their sum, which is
added up from the left as well. -/
theorem isFormula_join (isTerm : IsTerm text value) (terms : List.Forall₂ IsTerm texts values) :
    IsFormula (Text.join [' ', '+', ' '] (text :: texts)) (.sum (value :: values)) := by
  have whole := isTerm.isFormula.join terms
  rwa [← Score.zero_add value] at whole

/-- Terms one after the other stand for their sum. A single one is left as it
is, and none at all are written as zero. -/
theorem stands_sumText (terms : List.Forall₂ IsTerm texts values) :
    Stands (Outcome.sumText texts) (.sum values) := by
  cases terms with
  | nil => exact stands_text 0
  | cons first rest =>
    have whole := isFormula_join first rest
    cases rest with
    | nil =>
      rw [Score.sum_singleton]
      exact .term (by simpa [Outcome.sumText] using first)
    | cons second rest =>
      exact .compound (by simp [Outcome.sumText, Text.join_cons_cons]) whole

end Formula

open Formula

/-! ## Tosses -/

namespace Toss

/-- A toss whose formula has its value. Every toss that an evaluation leaves is
shown to be one. -/
def Explained (toss : Toss) : Prop := Stands toss.operation toss.value

variable {toss : Toss} {tosses : List Toss}

/-- Where a formula is put in parentheses it becomes a term. A formula without
blanks is a term already. -/
theorem Explained.isTerm (explained : toss.Explained) :
    IsTerm toss.groupedOperation toss.value := by
  unfold groupedOperation
  split
  next => exact explained.isFormula.isTerm_parenthesized
  next plain =>
    cases explained with
    | term isTerm => exact isTerm
    | compound blank _ => exact absurd (by simpa using blank) plain

/-- The formulas of tosses stand in that of a sum as terms with their values. -/
theorem terms_of_explained (explained : ∀ toss ∈ tosses, toss.Explained) :
    List.Forall₂ IsTerm (tosses.map groupedOperation) (tosses.map (·.value)) := by
  rw [List.forall₂_map_left_iff, List.forall₂_map_right_iff, List.forall₂_same]
  exact fun toss mem => (explained toss mem).isTerm

end Toss

namespace Outcome

variable {tosses : List Toss} {chain : List Toss} {chains : List (List Toss)}

/-- An outcome whose formula has its value. -/
def Explained (outcome : Outcome) : Prop := Stands outcome.operation outcome.value

theorem explained_ofScore (score : Score) : (ofScore score).Explained := stands_text score

/-- The outcome of a sum is explained by the tosses that it adds up, one term
for each of them. -/
theorem explained_ofSum (explained : ∀ toss ∈ tosses, toss.Explained) :
    (ofSum tosses).Explained := stands_sumText (Toss.terms_of_explained explained)

/-- The outcome of a selection is explained by the tosses that it keeps. The
others do not show in the formula. -/
theorem explained_ofSelection (explained : ∀ toss ∈ tosses, toss.Explained) (rule : Selection)
    (threshold : Nat) : (ofSelection rule threshold tosses).Explained := by
  -- what is kept is among the tosses
  have among : ∀ toss ∈ rule.kept threshold Toss.value tosses, toss ∈ tosses := fun toss mem =>
    (rule.kept_append_dropped_perm threshold Toss.value tosses).subset (by simp [mem])
  exact explained_ofSum fun toss mem => explained toss (among toss mem)

/-- The outcome of arithmetic is explained by the toss that it works on. The
operator applies to the formula as a whole. -/
theorem explained_ofArithmetic {toss : Toss} (explained : toss.Explained) (op : Operator)
    (operand : UInt32) : (ofArithmetic op operand toss).Explained :=
  stands_constant explained.isTerm op operand

/-- The tosses of one exploding member are a term, in parentheses if there are
several. -/
theorem isTerm_chainTerm (some : chain ≠ []) (explained : ∀ toss ∈ chain, toss.Explained) :
    IsTerm (chainTerm chain) (.sum (chain.map (·.value))) := by
  have terms := Toss.terms_of_explained explained
  match chain, some with
  | [toss], _ =>
    rw [List.map_singleton, Score.sum_singleton]
    exact (explained toss (by simp)).isTerm
  | first :: second :: rest, _ =>
    obtain ⟨head, tail⟩ := List.forall₂_cons.1 terms
    exact (isFormula_join head tail).isTerm_parenthesized

/-- The outcome of an explosion is explained by the tosses of all its members.
Each member has at least one, or its term would be empty. -/
theorem explained_ofChains
    (explained : ∀ chain ∈ chains, chain ≠ [] ∧ ∀ toss ∈ chain, toss.Explained) :
    (ofChains chains).Explained := by
  refine stands_sumText ?_
  rw [List.forall₂_map_left_iff, List.forall₂_map_right_iff, List.forall₂_same]
  exact fun chain mem => isTerm_chainTerm (explained chain mem).1 (explained chain mem).2

end Outcome

/-! ## Evaluations -/

namespace Expr

variable {σ : Type} {source : Source σ} {patience : Nat} {method : Method} {members : List Expr}

/-- Every evaluation that ends leaves a toss whose formula has its value. This
is what is shown by induction on the expression. -/
def Explains (source : Source σ) (patience : Nat) (method : Method) (e : Expr) : Prop :=
  ∀ {run toss final}, e.evaluate source patience method run = some (toss, final) →
    toss.Explained

/-- The toss that a node leaves has the formula and the value of its outcome. -/
theorem explained_of_conclude {e : Expr} {outcome : Outcome} {mid final : Run σ} {toss : Toss}
    (explained : outcome.Explained)
    (h : some (e.conclude method outcome mid) = some (toss, final)) : toss.Explained := by
  obtain ⟨rfl, rfl⟩ := Prod.mk.inj (Option.some.inj h)
  exact explained

/-- Members leave explained tosses, if those that were there already are
explained. -/
theorem explained_of_evaluateMembers (each : ∀ m ∈ members, m.Explains source patience method) :
    ∀ {earlier tosses : List Toss} {run final : Run σ}, (∀ toss ∈ earlier, toss.Explained) →
      evaluateMembers source patience method members earlier run = some (tosses, final) →
      ∀ toss ∈ tosses, toss.Explained := by
  induction members with
  | nil =>
    intro earlier tosses run final before h
    rw [evaluateMembers_nil] at h
    obtain ⟨rfl, rfl⟩ := Prod.mk.inj (Option.some.inj h)
    simpa using before
  | cons m rest ih =>
    intro earlier tosses run final before h
    rw [evaluateMembers_cons, Option.bind_eq_some_iff] at h
    obtain ⟨⟨toss, mid⟩, first, later⟩ := h
    have head := each m (by simp) first
    exact ih (fun x hx => each x (by simp [hx])) (List.forall_mem_cons.2 ⟨head, before⟩) later

/-- A run of tosses that ends has at least one, and all of them are explained.
The induction is on the patience. -/
theorem explained_of_rollWhile {again : Score → Bool} {roll : Run σ → Option (Toss × Run σ)}
    (each : ∀ {run toss final}, roll run = some (toss, final) → toss.Explained) {times : Nat} :
    ∀ {earlier chain : List Toss} {run final : Run σ}, (∀ toss ∈ earlier, toss.Explained) →
      rollWhile again roll times earlier run = some (chain, final) →
      chain ≠ [] ∧ ∀ toss ∈ chain, toss.Explained := by
  induction times with
  | zero => exact fun _ h => by cases h
  | succ times ih =>
    intro earlier chain run final before h
    cases first : roll run with
    | none => simp [rollWhile, first] at h
    | some given =>
      obtain ⟨toss, mid⟩ := given
      have taken : ∀ x ∈ toss :: earlier, x.Explained :=
        List.forall_mem_cons.2 ⟨each first, before⟩
      rw [rollWhile_succ _ _ _ _ first] at h
      split at h
      next => exact ih taken h
      next =>
        obtain ⟨rfl, rfl⟩ := Prod.mk.inj (Option.some.inj h)
        exact ⟨by simp, fun x hx => taken x (List.mem_reverse.1 hx)⟩

/-- The members of an explosion leave runs of explained tosses. The induction is
on the members, with the runs of earlier ones kept. -/
theorem explained_of_explodeMembers {c : Comparator} {threshold : Option Score}
    (each : ∀ m ∈ members, m.Explains source patience method) :
    ∀ {earlier chains : List (List Toss)} {run final : Run σ},
      (∀ chain ∈ earlier, chain ≠ [] ∧ ∀ toss ∈ chain, toss.Explained) →
      explodeMembers source patience method c threshold members earlier run =
        some (chains, final) →
      ∀ chain ∈ chains, chain ≠ [] ∧ ∀ toss ∈ chain, toss.Explained := by
  induction members with
  | nil =>
    intro earlier chains run final before h
    rw [explodeMembers] at h
    obtain ⟨rfl, rfl⟩ := Prod.mk.inj (Option.some.inj h)
    simpa using before
  | cons m rest ih =>
    intro earlier chains run final before h
    rw [explodeMembers] at h
    split at h
    next => cases h
    next chain mid rolled =>
      have head := explained_of_rollWhile (each m (by simp)) (by simp) rolled
      exact ih (fun x hx => each x (by simp [hx])) (List.forall_mem_cons.2 ⟨head, before⟩) h

/-- Every toss is explained, by induction over the expression. Only the last
toss of an evaluation is spoken of, and the others are those of its parts. -/
theorem explains (source : Source σ) (patience : Nat) (method : Method) (e : Expr) :
    e.Explains source patience method := by
  induction e using ind with
  | die d =>
    intro run toss final h
    cases method with
    | roll =>
      rw [evaluate] at h
      split at h
      next => cases h
      next => exact explained_of_conclude (Outcome.explained_ofScore _) h
    -- a bound of a die is a single score
    | minimum => exact explained_of_conclude (Outcome.explained_ofScore _) (by rwa [evaluate] at h)
    | maximum => exact explained_of_conclude (Outcome.explained_ofScore _) (by rwa [evaluate] at h)
  | pool members ih =>
    intro run toss final h
    rw [evaluate] at h
    split at h
    next => cases h
    next evaluated =>
      have each := explained_of_evaluateMembers ih (by simp) evaluated
      exact explained_of_conclude (Outcome.explained_ofSum each) h
  | arithmetic inner op operand ih =>
    intro run toss final h
    rw [evaluate] at h
    split at h
    next => cases h
    next evaluated =>
      exact explained_of_conclude (Outcome.explained_ofArithmetic (ih evaluated) op operand) h
  | selection members rule threshold ih =>
    intro run toss final h
    rw [evaluate] at h
    split at h
    next => cases h
    next evaluated =>
      have each := explained_of_evaluateMembers ih (by simp) evaluated
      exact explained_of_conclude (Outcome.explained_ofSelection each rule threshold) h
  | explosion members c threshold ih =>
    intro run toss final h
    cases method with
    | roll =>
      rw [evaluate] at h
      split at h
      next => cases h
      next evaluated =>
        have each := explained_of_explodeMembers ih (by simp) evaluated
        exact explained_of_conclude (Outcome.explained_ofChains each) h
    -- without a lower end the value is the least score, and else a sum
    | minimum =>
      rw [evaluate] at h
      split at h
      next => exact explained_of_conclude (Outcome.explained_ofScore .lowest) h
      next =>
        split at h
        next => cases h
        next evaluated =>
          have each := explained_of_evaluateMembers ih (by simp) evaluated
          exact explained_of_conclude (Outcome.explained_ofSum each) h
    | maximum =>
      rw [evaluate] at h
      exact explained_of_conclude (Outcome.explained_ofScore .highest) h

/-- **The formula of a toss has its value.** It holds for every source and
method, and for expressions that no constructor would give. -/
theorem read_operation (source : Source σ) (patience : Nat) (method : Method) (e : Expr)
    (run : Run σ) (toss : Toss) (final : Run σ)
    (evaluated : e.evaluate source patience method run = some (toss, final)) :
    Formula.read toss.operation = some toss.value :=
  read_eq_of_isFormula (explains source patience method e evaluated).isFormula

/-- The sum of an exploding die and a die with negative faces, to the third
power. -/
def explodedCube : Expr :=
  .arithmetic (.pool [.explosion [.die .sixSided] .equals none, .die .fudge]) .power 3

/-- The run of the exploding die is in parentheses of its own, inside of those
around the sum. -/
theorem read_operation_explodedCube : ∃ toss final,
    explodedCube.evaluate .answers 2 .roll (.start [6, 2, .clamp (-1)]) = some (toss, final) ∧
      toss.operation = "(((6 + 2)) + -1) ^ 3".toList ∧
      Formula.read toss.operation = some toss.value := by
  have shown : (explodedCube.evaluate .answers 2 .roll (.start [6, 2, .clamp (-1)])).map
      (·.1.operation) = some "(((6 + 2)) + -1) ^ 3".toList := by decide
  obtain ⟨⟨toss, final⟩, rolled, operation⟩ := Option.map_eq_some_iff.1 shown
  exact ⟨toss, final, rolled, operation,
    read_operation .answers 2 .roll explodedCube _ toss final rolled⟩

end Expr

end Dice
