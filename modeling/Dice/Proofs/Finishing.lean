import Dice.Proofs.Attained

/-!
# Rolls that can always be finished

Whatever a source has answered so far, a roll should be able to end. What
stands in the way are explosions with a member that always asks for another
roll: where there is none, any answers given so far can be gone on with until
the roll ends, and with answers within the ranges asked.

The draws of an expression are composed of those of its members, one after the
other, so the argument is about sets of lists of draws: `Completable` ones are
closed under appending (`completable_append`), and an exploding member stays
completable (`completable_chain`) since it can stop at once after the answers
that were given are used up.

That a member can stop (`CanStop`) is more than what the constructor checks.
The check is made of the bounds, and those of an explosion need not be
attained: one whose members can explode may be accepted for a value that is
never rolled, and then no roll ends. Without explosions inside of explosions
the bounds are attained, and the check is enough.

Main statements: `alwaysFinishes_iff`, and an explosion that is accepted and
never ends, `not_alwaysFinishes_unreachable`.
-/

namespace Dice

/-! ## Completing answers -/

/-- Any given answers either begin with those of some draws of the set, or go on
to them with answers within the ranges asked. -/
def Completable (draws : List Draw → Prop) : Prop :=
  ∀ given : List Score, ∃ ds, draws ds ∧
    (ds.map (·.answer) <+: given ∨ given <+: ds.map (·.answer)) ∧
    ∀ d ∈ ds.drop given.length, d.InRange

variable {first second : List Draw → Prop}

/-- A larger set of draws is completable if a smaller one is. The draws that
complete it are the same. -/
theorem Completable.imp (completable : Completable first) (h : ∀ ds, first ds → second ds) :
    Completable second := by
  intro given
  obtain ⟨ds, inFirst, found⟩ := completable given
  exact ⟨ds, h ds inFirst, found⟩

/-- The answers given may run out in the middle of the first draws, or after
them. -/
theorem completable_append (head : Completable first) (tail : Completable second) :
    Completable fun ds => ∃ front back, first front ∧ second back ∧ front ++ back = ds := by
  intro given
  obtain ⟨front, inFirst, before | after, inRange⟩ := head given
  -- the answers left after the first draws are given for the second ones
  · obtain ⟨later, rfl⟩ := before
    obtain ⟨back, inSecond, comparable, inRange'⟩ := tail later
    refine ⟨front ++ back, ⟨front, back, inFirst, inSecond, rfl⟩, ?_, ?_⟩
    · simpa [List.prefix_append_right_inj] using comparable
    · simpa using inRange'
  -- none are left, and the second draws can be chosen as a whole
  · obtain ⟨back, inSecond, -, inRange'⟩ := tail []
    have short : given.length ≤ front.length := by simpa using after.length_le
    refine ⟨front ++ back, ⟨front, back, inFirst, inSecond, rfl⟩,
      .inr (after.trans (by simp)), ?_⟩
    rw [List.drop_append_of_le_length short]
    intro d hd
    rcases List.mem_append.1 hd with hd | hd
    · exact inRange d hd
    · exact inRange' d hd

/-- Members that can each be completed can be completed one after the other. The
draws that are given may end in the middle of a member. -/
theorem completable_parts {β : Type} {P : Expr → β → Prop} (draws : β → List Draw)
    {members : List Expr}
    (each : ∀ m ∈ members, Completable fun ds => ∃ b, P m b ∧ draws b = ds) :
    Completable fun ds => ∃ parts : List (Expr × β), parts.map (·.1) = members ∧
      (∀ part ∈ parts, P part.1 part.2) ∧ parts.flatMap (fun part => draws part.2) = ds := by
  induction members with
  | nil =>
    intro given
    exact ⟨[], ⟨[], rfl, by simp, rfl⟩, .inl (by simp), by simp⟩
  | cons m rest ih =>
    intro given
    obtain ⟨ds, ⟨front, back, ⟨b, holds, rfl⟩, ⟨parts, rfl, held, rfl⟩, rfl⟩, found⟩ :=
      completable_append (each m (by simp)) (ih fun x hx => each x (by simp [hx])) given
    exact ⟨_, ⟨(m, b) :: parts, rfl, List.forall_mem_cons.2 ⟨holds, held⟩, rfl⟩, found⟩

/-- A condition that is not refused as endless fails at one of the two bounds. A
member that reaches both can therefore stop. -/
theorem Comparator.fails_of_not_endless {c : Comparator} {low high limit : Score}
    (ends : c.endless low high limit = false) :
    c.holds low limit = false ∨ c.holds high limit = false := by
  cases c with
  | equals =>
    simp only [endless, Bool.and_eq_false_iff, decide_eq_false_iff_not, holds] at ends ⊢
    by_contra both
    simp only [not_or, not_not] at both
    obtain ⟨rfl, rfl⟩ := both
    simp at ends
  | greaterThan =>
    simp only [endless, decide_eq_false_iff_not, not_le, holds] at ends ⊢
    exact .inl (le_of_lt ends).not_gt
  | lessThan =>
    simp only [endless, decide_eq_false_iff_not, not_le, holds] at ends ⊢
    exact .inr (le_of_lt ends).not_gt

namespace Expr

/-- The draws that a roll can make. Ranges are those of the dice, and any
answers are allowed. -/
def Asks (e : Expr) (ds : List Draw) : Prop := ∃ report, e.Rolls report ∧ report.draws = ds

/-- Answers decide on a roll: a report whose answers another one begins with is
that one. -/
theorem Rolls.eq_of_prefix {e : Expr} {report other : Report} (rolls : e.Rolls report)
    (rolls' : e.Rolls other)
    (begins : report.draws.map (·.answer) <+: other.draws.map (·.answer)) : report = other := by
  obtain ⟨rest, whole⟩ := begins
  obtain ⟨least, rolled⟩ := rolls.roll_answers
  obtain ⟨least', rolled'⟩ := rolls'.roll_answers
  have one := rolled (max least least') (Nat.le_max_left _ _) rest
  have two := rolled' (max least least') (Nat.le_max_right _ _) []
  rw [whole] at one
  rw [List.append_nil, one] at two
  cases report
  cases other
  simp_all

/-- The chain of reports of a member that explodes: rolls of the member, with
the last one as the only one that stops. -/
def Chain (again : Score → Bool) (m : Expr) (reports : List Report) : Prop :=
  (∀ report ∈ reports, m.Rolls report) ∧ Settles again (reports.map (·.toss.value))

/-- Whether some answers within the ranges asked make an expression stop. For an
expression without explosions its bounds are enough to tell. -/
def CanStop (again : Score → Bool) (m : Expr) : Prop :=
  ∃ value, m.Attains value ∧ again value = false

/-- One more roll in front of a chain must ask for another one. -/
theorem Chain.cons {again : Score → Bool} {m : Expr} {report : Report} {reports : List Report}
    (rolls : m.Rolls report) (more : again report.toss.value = true)
    (chain : m.Chain again reports) : m.Chain again (report :: reports) := by
  refine ⟨List.forall_mem_cons.2 ⟨rolls, chain.1⟩, ?_⟩
  cases reports with
  | nil => exact absurd chain.2 id
  | cons next rest => exact ⟨more, chain.2⟩

theorem Chain.single {again : Score → Bool} {m : Expr} {report : Report} (rolls : m.Rolls report)
    (last : again report.toss.value = false) : m.Chain again [report] :=
  ⟨by simpa using rolls, last⟩

/-- A member that can stop stays completable when it explodes. The given answers
are used up by rolls of the member, and a roll that stops ends the chain. -/
theorem completable_chain {again : Score → Bool} {m : Expr} (member : Completable m.Asks)
    (stops : m.CanStop again) :
    Completable fun ds => ∃ reports, m.Chain again reports ∧ reports.flatMap (·.draws) = ds := by
  obtain ⟨_, ⟨final, ends, inRange, rfl⟩, last⟩ := stops
  intro given
  -- each roll uses up answers that were given: one that asks for nothing is `final`, which stops
  induction h : given.length using Nat.strongRecOn generalizing given with
  | ind n ih =>
    subst h
    obtain ⟨ds, ⟨report, rolls, rfl⟩, comparable, inRange'⟩ := member given
    cases more : again report.toss.value with
    | false => exact ⟨_, ⟨[report], .single rolls more, rfl⟩, by simpa using ⟨comparable, inRange'⟩⟩
    | true =>
      rcases comparable with ⟨later, rfl⟩ | after
      · cases drawn : report.draws with
        | nil =>
          have same : report = final := rolls.eq_of_prefix ends (by simp [drawn])
          rw [same, last] at more
          exact absurd more (by simp)
        | cons d rest =>
          obtain ⟨ds, ⟨reports, chain, rfl⟩, comparable, inRange''⟩ :=
            ih later.length (by rw [List.length_append, drawn]; simp) later rfl
          refine ⟨_, ⟨report :: reports, .cons rolls more chain, rfl⟩, ?_, ?_⟩
          · simpa [List.prefix_append_right_inj, drawn] using comparable
          · simpa [drawn] using inRange''
      · have short : given.length ≤ report.draws.length := by simpa using after.length_le
        refine ⟨_, ⟨[report, final], .cons rolls more (.single ends last), rfl⟩,
          .inr (after.trans (by simp)), ?_⟩
        rw [List.flatMap_cons, List.drop_append_of_le_length short]
        intro d hd
        rcases List.mem_append.1 hd with hd | hd
        · exact inRange' d hd
        · exact inRange d (by simpa using hd)

/-- Whether every member can stop, if the expression is an explosion. Nothing
else rolls more than its members do. -/
def Stops : Expr → Prop
  | .explosion members c threshold =>
    ∀ m ∈ members, m.CanStop (c.holds · (c.limit threshold m.bounds))
  | _ => True

/-- **If every member of every explosion can stop, any answers can be
completed.** -/
theorem completable_of_stops {e : Expr} (stops : e.Every Stops) : Completable e.Asks := by
  induction e using ind with
  | die d =>
    intro given
    -- if no answers are left, any answer within the range does
    cases given with
    | nil =>
      refine ⟨_, ⟨_, .die d d.asked.1, rfl⟩, .inr (by simp), fun draw hd => ?_⟩
      obtain rfl : draw = ⟨d.asked.1, d.asked.2, d.asked.1⟩ := by simpa [Report.ofOutcome] using hd
      exact ⟨le_refl _, le_of_lt d.asked_ordered⟩
    | cons answer rest =>
      exact ⟨_, ⟨_, .die d answer, rfl⟩, .inl (by simp [Report.ofOutcome]),
        by simp [Report.ofOutcome]⟩
  | pool members ih =>
    have inside := (Every.pool_iff.1 stops).2
    refine (completable_parts Report.draws fun m hm => ih m hm (inside m hm)).imp ?_
    rintro ds ⟨parts, rfl, rolls, rfl⟩
    exact ⟨_, .pool parts rolls, rfl⟩
  | arithmetic inner op operand ih =>
    refine (ih (Every.arithmetic_iff.1 stops).2).imp ?_
    rintro ds ⟨report, rolls, rfl⟩
    exact ⟨_, .arithmetic inner op operand report rolls, rfl⟩
  | selection members rule threshold ih =>
    have inside := (Every.selection_iff.1 stops).2
    refine (completable_parts Report.draws fun m hm => ih m hm (inside m hm)).imp ?_
    rintro ds ⟨parts, rfl, rolls, rfl⟩
    exact ⟨_, .selection parts rule threshold rolls, rfl⟩
  -- each member is rolled until its chain ends, which the condition allows
  | explosion members c threshold ih =>
    obtain ⟨ends, inside⟩ := Every.explosion_iff.1 stops
    refine (completable_parts (P := fun m => m.Chain (c.holds · (c.limit threshold m.bounds)))
      (fun reports => reports.flatMap (·.draws)) fun m hm =>
        completable_chain (ih m hm (inside m hm)) (ends m hm)).imp ?_
    rintro ds ⟨parts, rfl, chains, rfl⟩
    exact ⟨_, .explosion parts c threshold (fun part hp => (chains part hp).1)
      fun part hp => (chains part hp).2, rfl⟩

/-- A roll by answers within the ranges asked shows that every explosion on its
way can stop, by the last toss of each member. -/
theorem Rolls.stops {e : Expr} {report : Report} (rolls : e.Rolls report) :
    (∀ d ∈ report.draws, d.InRange) → e.Every Stops := by
  induction rolls with
  | die d answer => exact fun _ => .die d trivial
  | pool parts each ih =>
    intro inRange
    refine Every.pool_iff.2 ⟨trivial, List.forall_mem_map.2 fun part hp =>
      ih part hp fun d hd => ?_⟩
    exact inRange d (List.mem_flatMap.2 ⟨part, hp, hd⟩)
  | arithmetic inner op operand report inside ih =>
    exact fun inRange => .arithmetic _ _ _ trivial (ih inRange)
  | selection parts rule threshold each ih =>
    intro inRange
    refine Every.selection_iff.2
      ⟨trivial, List.forall_mem_map.2 fun part hp => ih part hp fun d hd => ?_⟩
    exact inRange d (List.mem_flatMap.2 ⟨part, hp, hd⟩)
  | explosion parts c threshold each settles ih =>
    intro inRange
    have own : ∀ part ∈ parts, ∀ report ∈ part.2, ∀ d ∈ report.draws, d.InRange :=
      fun part hp report hr d hd =>
        inRange d (List.mem_flatMap.2 ⟨part, hp, List.mem_flatMap.2 ⟨report, hr, hd⟩⟩)
    -- the last roll of a chain is one that stops the member, and its answers are within their
    -- ranges
    have last : ∀ part ∈ parts, ∃ report ∈ part.2,
        c.holds report.toss.value (c.limit threshold part.1.bounds) = false := fun part hp => by
      obtain ⟨front, final, whole, -, stop⟩ := exists_last_of_settles (settles part hp)
      obtain ⟨report, hr, rfl⟩ := List.mem_map.1 (by rw [whole]; simp : final ∈ _)
      exact ⟨report, hr, stop⟩
    refine Every.explosion_iff.2 ⟨List.forall_mem_map.2 fun part hp => ?_,
      List.forall_mem_map.2 fun part hp => ?_⟩
    · obtain ⟨report, hr, stop⟩ := last part hp
      exact ⟨_, ⟨report, each part hp report hr, own part hp report hr, rfl⟩, stop⟩
    · obtain ⟨report, hr, -⟩ := last part hp
      exact ih part hp report hr (own part hp report hr)

/-- Answers that have not yet ended a roll can be gone on with until it ends, by
answers within the ranges asked. -/
def AlwaysFinishes (e : Expr) : Prop :=
  ∀ given : List Score, (∀ patience, e.roll .answers patience given = none) →
    ∃ more patience toss run, e.roll .answers patience (given ++ more) = some (toss, run) ∧
      run.state = [] ∧ ∀ d ∈ run.draws.toList.drop given.length, d.InRange

/-- If any answers can be completed, those that have not ended a roll go on to
one that ends. -/
theorem alwaysFinishes_of_completable {e : Expr} (completable : Completable e.Asks) :
    e.AlwaysFinishes := by
  intro given unfinished
  obtain ⟨ds, ⟨report, rolls, rfl⟩, ⟨rest, whole⟩ | ⟨more, whole⟩, inRange⟩ := completable given
  · obtain ⟨patience, rolled⟩ := rolls.roll_answers
    have ended := rolled patience (Nat.le_refl _) rest
    rw [whole, unfinished patience] at ended
    cases ended
  · obtain ⟨patience, rolled⟩ := rolls.roll_answers
    have ended := rolled patience (Nat.le_refl _) []
    rw [List.append_nil, ← whole] at ended
    exact ⟨more, patience, _, _, ended, rfl, by simpa using inRange⟩

/-- If rolls can be finished there is one that ends, and its answers show that
everything can stop. -/
theorem stops_of_alwaysFinishes {e : Expr} (finishes : e.AlwaysFinishes) : e.Every Stops := by
  -- an expression without dice ends its roll before any answer
  by_cases unfinished : ∀ patience, e.roll .answers patience [] = none
  · obtain ⟨more, patience, toss, run, rolled, -, inRange⟩ := finishes [] unfinished
    obtain ⟨report, rolls, -, draws, -⟩ := rolls_of_roll_answers rolled
    exact rolls.stops (by simpa [draws] using inRange)
  · obtain ⟨patience, ended⟩ := Classical.not_forall.1 unfinished
    obtain ⟨⟨toss, run⟩, rolled⟩ := Option.ne_none_iff_exists'.1 ended
    obtain ⟨report, rolls, -, -, whole⟩ := rolls_of_roll_answers rolled
    have nothing : report.draws = [] := by
      simpa using (List.append_eq_nil_iff.1 whole.symm).1
    exact rolls.stops (by simp [nothing])

theorem alwaysFinishes_iff_stops {e : Expr} : e.AlwaysFinishes ↔ e.Every Stops :=
  ⟨stops_of_alwaysFinishes, fun stops => alwaysFinishes_of_completable (completable_of_stops stops)⟩

/-! ## What the constructor sees -/

/-- A member without explosions that is accepted can stop: it attains both of
its bounds, and one of them stops it. -/
theorem canStop_of_accepted {m : Expr} {c : Comparator} {threshold : Option Score}
    (accepted : m.Every Accepted) (still : m.Every fun node => node.isExplosion = false)
    (ends : endless c threshold m = false) :
    m.CanStop (c.holds · (c.limit threshold m.bounds)) := by
  obtain ⟨low, high⟩ := attains_bounds accepted still
  rcases Comparator.fails_of_not_endless ends with stop | stop
  · exact ⟨_, low, stop⟩
  · exact ⟨_, high, stop⟩

/-- Whether an explosion is of members without explosions. Of any other node
nothing is asked. -/
def Flat : Expr → Prop
  | .explosion members _ _ => ∀ m ∈ members, m.Every fun node => node.isExplosion = false
  | _ => True

/-- Without explosions inside of explosions, everything that was accepted can
stop. -/
theorem stops_of_flat {e : Expr} (accepted : e.Every Accepted) (flat : e.Every Flat) :
    e.Every Stops := by
  refine accepted.deep.imp₂ flat fun node accepted still => ?_
  cases node with
  | explosion members c threshold =>
    obtain ⟨ends, inside⟩ := Every.explosion_iff.1 accepted
    exact fun m hm => canStop_of_accepted (inside m hm) (still m hm) (ends m hm)
  | _ => trivial

/-- **When rolls can always be finished.** Every member of every explosion must
have a value that stops it. For an expression that can be built it is enough
that no explosion is inside of a member of another. -/
theorem alwaysFinishes_iff (e : Expr) :
    (e.AlwaysFinishes ↔ e.Every Stops) ∧ (e.Built → e.Every Flat → e.AlwaysFinishes) :=
  have iff := alwaysFinishes_iff_stops
  ⟨iff, fun built flat => iff.2 (stops_of_flat built.accepted flat)⟩

/-- An explosion that never happens leaves the value of its member. So its true
maximum is less than the one that it reports. -/
theorem value_of_quiet {m : Expr} {c : Comparator} {threshold : Option Score} {report : Report}
    (quiet : ∀ own, m.Rolls own → c.holds own.toss.value (c.limit threshold m.bounds) = false)
    (rolls : (explosion [m] c threshold).Rolls report) :
    ∃ own, m.Rolls own ∧ own.toss.value = report.toss.value := by
  generalize same : [m] = members at rolls
  cases rolls with
  | explosion parts c threshold each settles =>
    obtain ⟨⟨m, reports⟩, rfl, rfl⟩ := List.map_eq_singleton_iff.1 same.symm
    have mem : (m, reports) ∈ [(m, reports)] := List.mem_singleton.2 rfl
    obtain ⟨front, last, whole, again, -⟩ := exists_last_of_settles (settles _ mem)
    -- whatever stands before the last value of a chain has asked for another roll
    have nothing : front = [] := by
      refine List.eq_nil_iff_forall_not_mem.2 fun v hv => ?_
      obtain ⟨own, ho, rfl⟩ := List.mem_map.1 (by rw [whole]; simp [hv] : v ∈ _)
      have stop := quiet own (each _ mem own ho)
      rw [again _ hv] at stop
      cases stop
    rw [nothing, List.nil_append] at whole
    obtain ⟨own, ho, rfl⟩ := List.mem_map.1 (by rw [whole]; simp : last ∈ _)
    refine ⟨own, each _ mem own ho, ?_⟩
    simp only [Report.ofOutcome, Outcome.toss, Outcome.ofChains, List.map_cons, List.map_nil,
      List.map_map, Function.comp_def, whole, Score.sum_singleton]

/-- An explosion that never happens, rolled again below a score that it never
reaches. Its greatest value is reported as the greatest score, so it is
accepted. -/
def unreachable : Expr :=
  explosion [explosion [die .sixSided] .equals (some 100)] .lessThan (some 50)

/-- A roll of an explosion has a last value of each member, which stops it.
Without such a value there is no roll. -/
theorem Rolls.exists_stop {members : List Expr} {c : Comparator} {threshold : Option Score}
    {report : Report} (rolls : (Expr.explosion members c threshold).Rolls report) :
    ∀ m ∈ members, ∃ own, m.Rolls own ∧
      c.holds own.toss.value (c.limit threshold m.bounds) = false := by
  cases rolls with
  | explosion parts c threshold each settles =>
    refine List.forall_mem_map.2 fun part hp => ?_
    obtain ⟨front, last, whole, -, stop⟩ := exists_last_of_settles (settles part hp)
    obtain ⟨own, ho, rfl⟩ := List.mem_map.1 (by rw [whole]; simp : last ∈ _)
    exact ⟨own, each part hp own ho, stop⟩

/-- No report is one of a roll of it: the last toss of its member would have to
be at least 50, and a die shows at most 6. -/
theorem not_rolls_unreachable (report : Report) : ¬ unreachable.Rolls report := by
  intro rolls
  obtain ⟨outer, rolled, stop⟩ := rolls.exists_stop _ (List.mem_singleton.2 rfl)
  have below : ∀ own, (die .sixSided).Rolls own → own.toss.value.val ≤ 6 := by
    intro own rolled
    cases rolled with
    | die d answer => exact (Die.low_le_face_and_face_le_high _ answer).2
  have quiet : ∀ own, (die .sixSided).Rolls own →
      Comparator.holds .equals own.toss.value 100 = false := by
    intro own rolled
    have low := below own rolled
    simp only [Comparator.holds, decide_eq_false_iff_not]
    intro high
    rw [high] at low
    exact absurd low (by decide)
  obtain ⟨own, rolled, same⟩ := value_of_quiet quiet rolled
  have low := below own rolled
  simp only [Comparator.holds, Comparator.limit, Option.getD_some, decide_eq_false_iff_not,
    Score.lt_def, same] at stop low
  exact stop (Int.lt_of_le_of_lt low (by decide))

/-- It can be built, and no answers whatever end a roll of it. The explosion
inside reports a maximum that it never reaches. -/
theorem not_alwaysFinishes_unreachable : unreachable.Built ∧
    (∀ patience given, unreachable.roll .answers patience given = none) ∧
      ¬ unreachable.AlwaysFinishes := by
  have accepted : (die .sixSided).explode .equals (some 100) =
      .ok (explosion [die .sixSided] .equals (some 100)) := by decide +kernel
  have accepted' : (explosion [die .sixSided] .equals (some 100)).explode .lessThan
      (some 50) = .ok unreachable := by decide +kernel
  have built : unreachable.Built :=
    .explode (.explode (.die .sixSided trivial) accepted) accepted'
  have endless : ∀ patience given, unreachable.roll .answers patience given = none := by
    intro patience given
    refine Option.eq_none_iff_forall_not_mem.2 fun ⟨toss, run⟩ rolled => ?_
    obtain ⟨report, rolls, -⟩ := rolls_of_roll_answers rolled
    exact not_rolls_unreachable report rolls
  refine ⟨built, endless, fun finishes => ?_⟩
  obtain ⟨more, patience, toss, run, ended, -⟩ := finishes [] fun patience => endless patience []
  rw [endless] at ended
  cases ended

end Expr

end Dice
