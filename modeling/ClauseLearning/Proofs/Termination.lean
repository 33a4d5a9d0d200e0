import ClauseLearning.Proofs.Solving

/-! Every search ends. The choices of a heuristic are a sequence, of which the k-th
choice is the one for step k; as long as they decide on open literals, a bound on
the number of steps is known from the number of variables alone. -/
namespace ClauseLearning

namespace State

/-- The phase and the state that a search comes to in so many steps with these choices. -/
def after (choices : Nat → Option Literal) : Nat → Phase × State → Except Fault (Phase × State)
  | 0, reached => .ok reached
  | k + 1, (phase, s) =>
    match s.advance (choices 0) phase with
    | .error fault => .error fault
    | .ok reached => after (fun i => choices (i + 1)) k reached

/-- The choices are ones that a branching heuristic may make along the search. -/
def AllowsAll (s : State) (phase : Phase) (choices : Nat → Option Literal) : Prop :=
  ∀ k next t, after choices k (phase, s) = .ok (next, t) → t.Allows next (choices k)

variable {s t : State} {phase next : Phase} {choices : Nat → Option Literal}

theorem after_succ (advanced : s.advance (choices 0) phase = .ok (next, t)) (k : Nat) :
    after choices (k + 1) (phase, s) = after (fun i => choices (i + 1)) k (next, t) := by
  rw [after, advanced]

theorem AllowsAll.tail (allowed : s.AllowsAll phase choices)
    (advanced : s.advance (choices 0) phase = .ok (next, t)) :
    t.AllowsAll next fun i => choices (i + 1) := by
  intro k last u reached
  apply allowed (k + 1) last u
  rw [after_succ advanced, reached]

theorem AllowsAll.cons (first : s.Allows phase choice)
    (advanced : s.advance choice phase = .ok (next, t)) (rest : t.AllowsAll next choices) :
    s.AllowsAll phase fun | 0 => choice | i + 1 => choices i := by
  intro k last u reached
  cases k with
  | zero =>
    cases reached
    exact first
  | succ k =>
    rw [after_succ advanced] at reached
    exact rest k last u reached

/-- A search that has ended stays where it is. -/
theorem after_of_ended (ended : ∀ choice, s.advance choice phase = .ok (phase, s))
    (choices : Nat → Option Literal) (k : Nat) :
    after choices k (phase, s) = .ok (phase, s) := by
  induction k generalizing choices with
  | zero => rfl
  | succ k ih =>
    rw [after_succ (ended (choices 0))]
    exact ih _

/-- Then no choice is asked for. -/
theorem allowsAll_of_ended (ended : ∀ choice, s.advance choice phase = .ok (phase, s))
    (decided : phase ≠ .deciding) (choices : Nat → Option Literal) : s.AllowsAll phase choices := by
  intro k next t reached
  cases (after_of_ended ended choices k).symm.trans reached
  exact fun deciding => absurd deciding decided

theorem Poised.exists_allowed (poised : s.Poised phase) : ∃ choice, s.Allows phase choice := by
  by_cases deciding : phase = .deciding
  · subst deciding
    obtain ⟨coherent, -, -, -, incomplete⟩ := poised
    obtain ⟨l, free⟩ := coherent.exists_open incomplete
    exact ⟨some l, fun _ => ⟨l, rfl, free⟩⟩
  · exact ⟨none, fun same => absurd same deciding⟩

end State

variable {f : Formula} {o : Options} {assumed : List Literal} {s : State} {phase : Phase}
  {choices : Nat → Option Literal}

/-- A search that has come to some state ends in at most as many steps as the rank
of the state. -/
theorem Reachable.exists_end (reachable : Reachable f o assumed phase s)
    (declared : ∀ l ∈ assumed, l.var < f.numVariables) (allowed : s.AllowsAll phase choices) :
    ∃ k t, k ≤ s.rank phase ∧ (State.after choices k (phase, s) = .ok (.satisfied, t) ∨
      State.after choices k (phase, s) = .ok (.unsatisfiable, t)) := by
  -- on the rank, which every step lowers until an end is reached
  induction size : s.rank phase using Nat.strong_induction_on generalizing phase s choices with
  | _ n ih =>
    by_cases solved : phase = .satisfied
    · subst solved
      exact ⟨0, s, Nat.zero_le _, .inl rfl⟩
    · by_cases refuted : phase = .unsatisfiable
      · subst refuted
        exact ⟨0, s, Nat.zero_le _, .inr rfl⟩
      · have first : s.Allows phase (choices 0) := allowed 0 phase s rfl
        obtain ⟨next, t, ran, reachable', lower⟩ := reachable.exists_step declared first
        have less : t.rank next < n := size ▸ lower solved refuted
        obtain ⟨k, u, within, ended⟩ := ih _ less reachable' (allowed.tail ran) rfl
        refine ⟨k + 1, u, by omega, ?_⟩
        rw [State.after_succ ran]
        exact ended

/-- A step that restarts raises the limit on conflicts and counts from 0 again. -/
theorem Reachable.restart_raises (reachable : Reachable f o assumed (.restarting l) s)
    (declared : ∀ l ∈ assumed, l.var < f.numVariables)
    (advanced : s.advance choice (.restarting l) = .ok (next, t)) :
    s.schedule.conflictsLimit < t.schedule.conflictsLimit ∧ t.schedule.conflicts = 0 := by
  obtain ⟨poised, -, -⟩ := reachable.invariant declared
  have allowed : s.Allows (.restarting l) choice := nofun
  obtain ⟨schedule, -⟩ := (poised.advanced allowed advanced).moves
  rw [schedule]
  exact ⟨State.conflictsLimit_lt_relax s.schedule, rfl⟩

/-- There are choices to make, however a search has come to where it is. -/
theorem Reachable.exists_choices (reachable : Reachable f o assumed phase s)
    (declared : ∀ l ∈ assumed, l.var < f.numVariables) :
    ∃ choices, s.AllowsAll phase choices := by
  induction size : s.rank phase using Nat.strong_induction_on generalizing phase s with
  | _ n ih =>
    by_cases solved : phase = .satisfied
    · subst solved
      have decided : Phase.satisfied ≠ .deciding := nofun
      exact ⟨fun _ => none, State.allowsAll_of_ended (fun _ => rfl) decided _⟩
    · by_cases refuted : phase = .unsatisfiable
      · subst refuted
        have decided : Phase.unsatisfiable ≠ .deciding := nofun
        exact ⟨fun _ => none, State.allowsAll_of_ended (fun _ => rfl) decided _⟩
      · obtain ⟨poised, -, -⟩ := reachable.invariant declared
        obtain ⟨choice, allowed⟩ := poised.exists_allowed
        obtain ⟨next, t, ran, reachable', lower⟩ := reachable.exists_step declared allowed
        have less : t.rank next < n := size ▸ lower solved refuted
        obtain ⟨choices, allowed'⟩ := ih _ less reachable' rfl
        exact ⟨fun | 0 => choice | i + 1 => choices i, State.AllowsAll.cons allowed ran allowed'⟩

/-- Searches end, with a bound that does not depend on the clauses; conflicts between
restarts are bounded, a restart raises the limit on them whatever it is scaled to, and
solving reports how a search ended unless the options are refused. -/
theorem search_ends {numbers : List Int}
    (accepted : numbers.mapM (Solver.assumption f.numVariables) = .ok assumed) :
    (∀ s t choices, State.ofFormula f o = .ok s → s.hasEmptyClause = false →
      { s with assumptions := assumed }.assume = .ok (.held, t) →
      t.AllowsAll .propagating choices →
      ∃ k u, k < State.stepBound f.numVariables ∧
        (State.after choices k (.propagating, t) = .ok (.satisfied, u) ∨
          State.after choices k (.propagating, t) = .ok (.unsatisfiable, u))) ∧
    (∀ phase s, Reachable f o assumed phase s →
      s.schedule.conflicts ≤ State.ceiling f.numVariables + 1) ∧
    (∀ schedule : Schedule, schedule.conflictsLimit < schedule.relax.conflictsLimit) ∧
    (∀ l s choice next t, Reachable f o assumed (.restarting l) s →
      s.advance choice (.restarting l) = .ok (next, t) →
      s.schedule.conflictsLimit < t.schedule.conflictsLimit ∧ t.schedule.conflicts = 0) ∧
    (o.Valid → ∃ outcome, solve f o numbers = .ok outcome ∧ outcome.Reports f o assumed) := by
  have declared := Solver.declared_of_accepted accepted
  refine ⟨?_, ?_, State.conflictsLimit_lt_relax, ?_, ?_⟩
  · intro s t choices loaded nonempty held allowed
    have reachable : Reachable f o assumed .propagating t := .start loaded nonempty held
    obtain ⟨-, -, founded⟩ := reachable.invariant declared
    obtain ⟨k, u, within, ended⟩ := reachable.exists_end declared allowed
    have bound := State.rank_lt_stepBound t .propagating
    rw [founded.numVariables] at bound
    exact ⟨k, u, by omega, ended⟩
  · intro phase s reachable
    obtain ⟨poised, paced, founded⟩ := reachable.invariant declared
    have few := paced.conflicts_le poised.coherent
    rwa [founded.numVariables] at few
  · intro l s choice next t reachable advanced
    exact reachable.restart_raises declared advanced
  · intro valid
    rcases solve_spec (o := o) accepted with ⟨problem, broken, -⟩ | ⟨outcome, solved, reports⟩
    · rw [valid] at broken
      cases broken
    · exact ⟨outcome, solved, reports⟩

/-- Four variables of which no two neighbours are both true, the first one assumed:
the search makes decisions, and a restart may come after the first conflict. -/
def neighbours : Formula :=
  .ofClauses 4 [[⟨0, false⟩, ⟨1, false⟩], [⟨1, false⟩, ⟨2, false⟩], [⟨2, false⟩, ⟨3, false⟩],
    [⟨1, true⟩, ⟨2, true⟩, ⟨3, true⟩]]

/-- The search for this formula starts, has choices to make and ends. -/
theorem search_ends_neighbours :
    [1].mapM (Solver.assumption neighbours.numVariables) = .ok [⟨0, true⟩] ∧
    ∃ s t choices, State.ofFormula neighbours { conflictsLimit := 1 } = .ok s ∧
      s.hasEmptyClause = false ∧
      { s with assumptions := [⟨0, true⟩] }.assume = .ok (.held, t) ∧
      t.AllowsAll .propagating choices ∧
      ∃ k u, k < State.stepBound 4 ∧
        (State.after choices k (.propagating, t) = .ok (.satisfied, u) ∨
          State.after choices k (.propagating, t) = .ok (.unsatisfiable, u)) := by
  have accepted : [1].mapM (Solver.assumption neighbours.numVariables) = .ok [⟨0, true⟩] := rfl
  have declared := Solver.declared_of_accepted accepted
  have satisfiable : neighbours.SatisfiableWith [⟨0, true⟩] :=
    ⟨fun var => var % 3 == 0, by decide, by decide⟩
  obtain ⟨s, t, loaded, nonempty, held⟩ :=
    exists_start { conflictsLimit := 1 } declared satisfiable
  have reachable : Reachable neighbours { conflictsLimit := 1 } [⟨0, true⟩] .propagating t :=
    .start loaded nonempty held
  obtain ⟨choices, allowed⟩ := reachable.exists_choices declared
  refine ⟨accepted, s, t, choices, loaded, nonempty, held, allowed, ?_⟩
  exact (search_ends accepted).1 s t choices loaded nonempty held allowed

end ClauseLearning
