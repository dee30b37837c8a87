import Dice.Proofs.BoundEvaluation
import Dice.Proofs.Expr.Built
import Dice.Proofs.Rolling
import Dice.Source.Script

/-!
# The order of an evaluation

Without explosions an evaluation goes through the nodes of an expression once,
those inside a node before it. Every node leaves one toss on the way, and a
roll asks one number for every die. Neither the answers nor the selections
change what comes next: a result that is dropped was rolled all the same.

`InOrder` says so of some nodes, draws and tosses. It holds of the members of
a pool together because it holds of each (`InOrder.append`), and a node adds
its own toss at the end.

That there is a result at all is a statement of its own. Without explosions
only a source that runs dry can keep a roll from ending, so the source is
asked to be `Unfailing` there, and for that part alone.

Main statement: `evaluate_postorder`.
-/

namespace Dice

variable {σ : Type} {source : Source σ} {patience : Nat} {method : Method}

/-- The numbers that a die lets the source choose from: its faces from the least
to the greatest, or the places of those that it lists. -/
def Die.range : Die → Int × Int
  | custom faces _ => (0, faces.length - 1)
  | die => (die.low.val, die.high.val)

/-- The numbers that the source was to choose from. -/
def Draw.range (d : Draw) : Int × Int := (d.low.val, d.high.val)

/-- A die that can be built asks for a number of its range. The places of a list
are scores themselves, since the list is not longer than a machine allows. -/
theorem Die.range_asked {d : Die} (fits : d.Fits) (answer : Score) :
    (Draw.mk d.asked.1 d.asked.2 answer).range = d.range := by
  cases d with
  | custom faces atLeastTwo =>
    simp only [Fits, Score.highest] at fits
    have last : (Score.clamp (faces.length - 1)).val = faces.length - 1 :=
      Score.val_clamp_of_mem (by omega) (by omega)
    rw [Draw.range, asked, last]
    rfl
  | sided sides atLeastTwo => rfl
  | fudge => rfl
  | percentile => rfl

/-- Whether a source never runs dry, whatever it is asked for and in whatever
state. -/
def Source.Unfailing (source : Source σ) : Prop :=
  ∀ low high state, ∃ given, source.between low high state = some given

/-- Further details leave the written form and the method of a context as they
are. -/
theorem Context.foldl_insert (extensions details : List (Text × Text)) (text : Text)
    (method : Method) :
    ∃ more, extensions.foldl (fun context (key, value) => context.insert key value)
      (⟨text, method, details⟩ : Context) = ⟨text, method, more⟩ := by
  induction extensions generalizing details with
  | nil => exact ⟨details, rfl⟩
  | cons extension rest ih => exact ih _

/-- The toss of an outcome has the given written form and method in its context.
-/
theorem Outcome.context_toss (outcome : Outcome) (text : Text) (method : Method) :
    ∃ details, (outcome.toss text method).context = some ⟨text, method, details⟩ := by
  obtain ⟨details, same⟩ := Context.foldl_insert outcome.extensions [] text method
  exact ⟨details, congrArg some same⟩

namespace Expr

variable {e : Expr} {members : List Expr}

/-! ## Nodes -/

mutual

/-- The nodes of an expression, those inside a node before it. The pool under a
selection or an explosion is no node of its own. -/
def nodes : Expr → List Expr
  | die d => [die d]
  | pool members => memberNodes members ++ [pool members]
  | arithmetic inner op operand => nodes inner ++ [arithmetic inner op operand]
  | selection members rule threshold =>
    memberNodes members ++ [selection members rule threshold]
  | explosion members c threshold => memberNodes members ++ [explosion members c threshold]

/-- The nodes of all members, from left to right. The nodes inside of a member
come before it. -/
def memberNodes : List Expr → List Expr
  | [] => []
  | m :: rest => nodes m ++ memberNodes rest

end

@[simp] theorem memberNodes_eq (members : List Expr) :
    memberNodes members = members.flatMap nodes := by
  induction members with
  | nil => rfl
  | cons m rest ih => rw [memberNodes, ih, List.flatMap_cons]

/-- A property of all nodes is one of each of the listed nodes. The list has
them all, in the order of evaluation. -/
theorem every_iff_forall_nodes {p : Expr → Prop} : e.Every p ↔ ∀ node ∈ e.nodes, p node := by
  induction e using ind with
  | die d => simp [nodes]
  | pool members ih =>
    simp only [nodes, memberNodes_eq, List.forall_mem_append, List.forall_mem_flatMap,
      List.forall_mem_singleton, Every.pool_iff]
    rw [and_comm, forall₂_congr ih]
  | arithmetic inner op operand ih => simp [nodes, ih, or_imp, forall_and, and_comm]
  | selection members rule threshold ih =>
    simp only [nodes, memberNodes_eq, List.forall_mem_append, List.forall_mem_flatMap,
      List.forall_mem_singleton, Every.selection_iff]
    rw [and_comm, forall₂_congr ih]
  | explosion members c threshold ih =>
    simp only [nodes, memberNodes_eq, List.forall_mem_append, List.forall_mem_flatMap,
      List.forall_mem_singleton, Every.explosion_iff]
    rw [and_comm, forall₂_congr ih]

/-- The die that a node is. -/
def die? : Expr → Option Die
  | die d => some d
  | _ => none

/-- What a method asks the source for at some nodes: a roll for a number from
each die, and a bound for nothing. -/
def asks : Method → List Expr → List (Int × Int)
  | .roll, nodes => (nodes.filterMap die?).map Die.range
  | _, _ => []

theorem asks_append (method : Method) (nodes more : List Expr) :
    asks method (nodes ++ more) = asks method nodes ++ asks method more := by
  cases method <;> simp [asks]

theorem asks_of_die? (method : Method) (other : e.die? = none) : asks method [e] = [] := by
  cases method <;> simp [asks, other]

/-! ## Order -/

/-- Whether a toss is one of a node: it tells the written form of the node and
the method, and its value is the bound if that was asked for. -/
structure Tossed (method : Method) (node : Expr) (toss : Toss) : Prop where
  context : ∃ details, toss.context = some ⟨node.text, method, details⟩
  least : method = .minimum → toss.value = node.minimum
  greatest : method = .maximum → toss.value = node.maximum

/-- Whether the draws and the tosses are those of some nodes, in their order.
There is a toss for each node, and a draw for each die among them. -/
structure InOrder (method : Method) (nodes : List Expr) (draws : List Draw) (trace : List Toss) :
    Prop where
  tossed : List.Forall₂ (Tossed method) nodes trace
  asked : draws.map Draw.range = asks method nodes

theorem InOrder.nil : InOrder method [] [] [] := ⟨.nil, by cases method <;> rfl⟩

/-- A node that is no die adds no draw to those inside of it. It only records a
toss. -/
theorem InOrder.asked_concat {nodes : List Expr} {draws : List Draw} {trace : List Toss}
    (order : InOrder method nodes draws trace) (other : e.die? = none) :
    draws.map Draw.range = asks method (nodes ++ [e]) := by
  rw [order.asked, asks_append, asks_of_die? method other, List.append_nil]

/-- Nodes that come after others have their draws and tosses after theirs. So
the members of a node can be put together one by one. -/
theorem InOrder.append {nodes more : List Expr} {draws later : List Draw}
    {trace others : List Toss} (first : InOrder method nodes draws trace)
    (second : InOrder method more later others) :
    InOrder method (nodes ++ more) (draws ++ later) (trace ++ others) := by
  refine ⟨List.rel_append first.tossed second.tossed, ?_⟩
  rw [List.map_append, first.asked, second.asked, asks_append]

/-- An evaluation that ends leaves the draws and the tosses of all nodes in
their order, and gives the last toss. -/
def Ordered (source : Source σ) (patience : Nat) (method : Method) (e : Expr) : Prop :=
  ∀ run toss final, e.evaluate source patience method run = some (toss, final) →
    ∃ draws trace, run.Leads source draws trace final ∧ InOrder method e.nodes draws trace ∧
      trace.getLast? = some toss

/-- What an evaluation gives is a toss of the node. That a bound is its value
was shown where bounds are evaluated. -/
theorem tossed_of_evaluate {outcome : Outcome} {run mid final : Run σ} {toss : Toss}
    (evaluated : e.evaluate source patience method run = some (toss, final))
    (concluded : some (e.conclude method outcome mid) = some (toss, final)) :
    e.Tossed method toss := by
  refine ⟨?_, ?_, ?_⟩
  · obtain ⟨rfl, -⟩ := Prod.mk.inj (Option.some.inj concluded)
    exact outcome.context_toss e.text method
  · rintro rfl
    exact (tells_minimum source patience e).value_eq evaluated
  · rintro rfl
    exact (tells_maximum source patience e).value_eq evaluated

/-- A node comes after what is inside of it. Its toss is the last one of the
trace. -/
theorem ordered_conclude {outcome : Outcome} {run mid final : Run σ} {toss : Toss}
    {inner : List Expr} {draws : List Draw} {trace : List Toss}
    (evaluated : e.evaluate source patience method run = some (toss, final))
    (concluded : some (e.conclude method outcome mid) = some (toss, final))
    (before : run.Leads source draws trace mid)
    (tossed : List.Forall₂ (Tossed method) inner trace)
    (asked : draws.map Draw.range = asks method (inner ++ [e])) :
    ∃ draws trace, run.Leads source draws trace final ∧
      InOrder method (inner ++ [e]) draws trace ∧ trace.getLast? = some toss := by
  have self := tossed_of_evaluate evaluated concluded
  obtain ⟨rfl, rfl⟩ := Prod.mk.inj (Option.some.inj concluded)
  have recorded : mid.Leads source [] [outcome.toss e.text method]
      (mid.record (outcome.toss e.text method)) := Run.leads_record.2 rfl
  have whole := Run.leads_append.2 ⟨mid, before, recorded⟩
  rw [List.append_nil] at whole
  exact ⟨draws, _, whole, ⟨List.rel_append tossed (.cons self .nil), asked⟩, by simp⟩

/-- Members that are each evaluated in order are so together, from left to
right. -/
theorem inOrder_of_evaluateMembers (each : ∀ m ∈ members, m.Ordered source patience method) :
    -- the tosses of members before these are handed on in reverse
    ∀ {earlier tosses : List Toss} {run final : Run σ},
      evaluateMembers source patience method members earlier run = some (tosses, final) →
      ∃ draws trace, run.Leads source draws trace final ∧
        InOrder method (members.flatMap nodes) draws trace := by
  induction members with
  | nil =>
    intro earlier tosses run final ended
    simp only [evaluateMembers_nil, Option.some.injEq, Prod.mk.injEq] at ended
    obtain ⟨-, rfl⟩ := ended
    exact ⟨[], [], Run.leads_nil.2 rfl, .nil⟩
  | cons m rest ih =>
    intro earlier tosses run final ended
    rw [evaluateMembers_cons, Option.bind_eq_some_iff] at ended
    obtain ⟨⟨toss, mid⟩, first, later⟩ := ended
    obtain ⟨draws, trace, leads, order, -⟩ := each m (by simp) _ _ _ first
    obtain ⟨draws', trace', leads', order'⟩ := ih (fun x hx => each x (by simp [hx])) later
    exact ⟨_, _, Run.leads_append.2 ⟨mid, leads, leads'⟩, order.append order'⟩

/-- Without explosions every evaluation is in order. Each kind of node takes the
order of what is inside of it, if anything is, and adds itself. -/
theorem ordered_of_still (still : e.Every fun node => node.Accepted ∧ node.isExplosion = false)
    (source : Source σ) (patience : Nat) (method : Method) : e.Ordered source patience method := by
  induction still with
  | die d self =>
    have fits : d.Fits := self.1
    intro run toss final evaluated
    have concluded := evaluated
    cases method with
    | roll =>
      simp only [evaluate] at concluded
      split at concluded
      next => cases concluded
      next answer mid asked =>
        -- the places of a list that is not too long are scores, so they are asked for as they are
        have range : [(Draw.mk d.asked.1 d.asked.2 answer).range] = [d.range] := by
          rw [Die.range_asked fits]
        exact ordered_conclude evaluated concluded (Run.leads_draw.2 asked) .nil range
    | minimum =>
      simp only [evaluate] at concluded
      exact ordered_conclude evaluated concluded (Run.leads_nil.2 rfl) .nil rfl
    | maximum =>
      simp only [evaluate] at concluded
      exact ordered_conclude evaluated concluded (Run.leads_nil.2 rfl) .nil rfl
  | pool members self each ih =>
    intro run toss final evaluated
    have concluded := evaluated
    rw [evaluate] at concluded
    split at concluded
    next => cases concluded
    next tosses mid inside =>
      obtain ⟨draws, trace, leads, order⟩ := inOrder_of_evaluateMembers ih inside
      rw [nodes, memberNodes_eq]
      exact ordered_conclude evaluated concluded leads order.tossed (order.asked_concat rfl)
  | arithmetic inner op operand self inside ih =>
    intro run toss final evaluated
    have concluded := evaluated
    rw [evaluate] at concluded
    split at concluded
    next => cases concluded
    next _ mid inside =>
      obtain ⟨draws, trace, leads, order, -⟩ := ih _ _ _ inside
      exact ordered_conclude evaluated concluded leads order.tossed (order.asked_concat rfl)
  | selection members rule threshold self each ih =>
    intro run toss final evaluated
    have concluded := evaluated
    rw [evaluate] at concluded
    split at concluded
    next => cases concluded
    next tosses mid inside =>
      obtain ⟨draws, trace, leads, order⟩ := inOrder_of_evaluateMembers ih inside
      rw [nodes, memberNodes_eq]
      exact ordered_conclude evaluated concluded leads order.tossed (order.asked_concat rfl)
  -- there is no such node
  | explosion members c threshold self => cases self.2

/-! ## Results -/

/-- Whether evaluating an expression gives a result, from every run. What was
recorded before makes no difference to that. -/
def Ends (source : Source σ) (patience : Nat) (method : Method) (e : Expr) : Prop :=
  ∀ run, ∃ toss final, e.evaluate source patience method run = some (toss, final)

theorem evaluateMembers_of_ends (each : ∀ m ∈ members, m.Ends source patience method) :
    ∀ earlier run, ∃ tosses final,
      evaluateMembers source patience method members earlier run = some (tosses, final) := by
  induction members with
  | nil => exact fun earlier run => ⟨_, run, evaluateMembers_nil _ _ _ _ _⟩
  | cons m rest ih =>
    intro earlier run
    obtain ⟨toss, mid, first⟩ := each m (by simp) run
    rw [evaluateMembers_cons, first, Option.bind_some]
    exact ih (fun x hx => each x (by simp [hx])) _ _

/-- A roll ends if no explosion and no source keeps it from that. No patience is
needed for it. -/
theorem ends_of_unfailing (still : e.Every fun node => node.isExplosion = false)
    (unfailing : source.Unfailing) (patience : Nat) : e.Ends source patience .roll := by
  induction still with
  | die d =>
    intro run
    obtain ⟨given, asked⟩ := unfailing d.asked.1 d.asked.2 run.state
    simp only [evaluate, Run.draw, asked]
    exact ⟨_, _, rfl⟩
  -- a node with members ends where these have ended
  | pool members self each ih =>
    intro run
    obtain ⟨tosses, mid, inside⟩ := evaluateMembers_of_ends ih [] run
    rw [evaluate, inside]
    exact ⟨_, _, rfl⟩
  | arithmetic inner op operand self inside ih =>
    intro run
    obtain ⟨toss, mid, inside⟩ := ih run
    rw [evaluate, inside]
    exact ⟨_, _, rfl⟩
  | selection members rule threshold self each ih =>
    intro run
    obtain ⟨tosses, mid, inside⟩ := evaluateMembers_of_ends ih [] run
    rw [evaluate, inside]
    exact ⟨_, _, rfl⟩
  | explosion members c threshold self => cases self

/-- **An evaluation follows the shape of the expression.** If there is no
explosion, it gives a result, by any source that does not run dry in a roll, and
every result comes with one toss for each node, those inside a node before it,
and with one draw for each die of a roll and none for a bound. -/
theorem evaluate_postorder (built : Built e) (still : ∀ node ∈ e.nodes, node.isExplosion = false)
    (source : Source σ) (patience : Nat) (method : Method) (run : Run σ) :
    ((method = .roll → source.Unfailing) →
      ∃ toss final, e.evaluate source patience method run = some (toss, final)) ∧
    ∀ toss final, e.evaluate source patience method run = some (toss, final) →
      ∃ draws trace, run.Leads source draws trace final ∧
        InOrder method e.nodes draws trace ∧ trace.getLast? = some toss := by
  have still := every_iff_forall_nodes.2 still
  refine ⟨fun unfailing => ?_, ordered_of_still (Every.and_iff.2 ⟨built.accepted, still⟩)
    source patience method run⟩
  by_cases roll : method = .roll
  · obtain rfl := roll
    exact ends_of_unfailing still (unfailing rfl) patience run
  · obtain ⟨toss, trace, evaluated⟩ := unasked roll e
    exact ⟨toss, _, evaluated source patience run⟩

/-- A die that lists its faces, one of them twice. -/
def unevenDie : Expr := .die (.custom [4, 0, 4] (by decide))

/-- Twice the higher one of two dice, and another die. -/
def mixed : Expr :=
  .pool [.arithmetic (.selection [unevenDie, .die .fudge] .keepHighest 1) .multiply 2,
    .die .percentile]

theorem built_mixed : mixed.Built := by
  have fits : (Die.custom [4, 0, 4] (by decide)).Fits := by simp [Die.Fits, Score.highest]
  have pair : (sum [unevenDie, .die .fudge]).Built :=
    .sum _ (by simpa using ⟨.die _ fits, .die _ trivial⟩)
  have higher : (sum [unevenDie, .die .fudge]).select .keepHighest 1 =
      .ok (.selection [unevenDie, .die .fudge] .keepHighest 1) := by decide +kernel
  have twice : (Expr.selection [unevenDie, .die .fudge] .keepHighest 1).apply .multiply 2 =
      .ok (.arithmetic (.selection [unevenDie, .die .fudge] .keepHighest 1) .multiply 2) := by
    decide +kernel
  have whole : mixed = sum [.arithmetic (.selection [unevenDie, .die .fudge] .keepHighest 1)
      .multiply 2, .die .percentile] := by decide +kernel
  rw [whole]
  exact .sum _ (by simpa using ⟨.apply (.select pair higher) twice, .die _ trivial⟩)

/-- The third die is asked after the two of the selection, though one of them
does not count. -/
theorem evaluate_postorder_mixed : mixed.Built ∧
    (∀ node ∈ mixed.nodes, node.isExplosion = false) ∧
    ∃ toss final draws trace,
      mixed.evaluate .script 0 .roll (.start ⟨[1], .low⟩) = some (toss, final) ∧
      (Run.start ⟨[1], .low⟩).Leads .script draws trace final ∧
      InOrder .roll mixed.nodes draws trace ∧ trace.length = 6 ∧
      draws.map Draw.range = [(0, 2), (-1, 1), (1, 100)] := by
  have still : ∀ node ∈ mixed.nodes, node.isExplosion = false := by decide +kernel
  obtain ⟨ends, ordered⟩ := evaluate_postorder built_mixed still .script 0 .roll
    (.start ⟨[1], .low⟩)
  obtain ⟨toss, final, evaluated⟩ := ends fun _ low high script => ⟨script.next low high, rfl⟩
  obtain ⟨draws, trace, leads, order, -⟩ := ordered toss final evaluated
  exact ⟨built_mixed, still, toss, final, draws, trace, evaluated, leads, order,
    order.tossed.length_eq.symm, order.asked⟩

end Expr

end Dice
