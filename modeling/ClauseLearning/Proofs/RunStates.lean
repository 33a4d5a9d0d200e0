import ClauseLearning.Proofs.Solving

/-! All states that a run comes through: those between two steps, and besides those
between two assignments of one propagation and between two assumptions. In each of
them the trail and the clauses agree and every model of the formula is admitted, and
nothing is overlooked while no conflict is pending. A run with given choices can also
be followed by computation. -/
namespace ClauseLearning

/-- No conflict is pending in this phase. -/
def Phase.isCalm : Phase → Bool
  | .propagating | .deciding | .satisfied => true
  | .analyzing _ | .backjumping _ | .restarting _ | .unsatisfiable => false

namespace State

/-- Propagation comes from the one state to the other by assigning waiting literals. -/
inductive Propagates : State → State → Prop where
  | refl (s : State) : Propagates s s
  | step (passed : Propagates s t) (asked : nextUnit t.trail.value? t.queue = .assign i l rest)
      (assigned : { t with queue := rest }.assignUnit i l = .ok (.consistent, u)) :
      Propagates s u

/-- Propagating from a state on the way comes to the same result. -/
theorem Propagates.propagate_eq (passed : Propagates s t) : s.propagate = t.propagate := by
  induction passed with
  | refl => rfl
  | step _ asked assigned ih =>
    rw [ih, propagate]
    split
    all_goals rename_i asked'; rw [asked] at asked'; cases asked'
    split
    all_goals rename_i assigned'; rw [assigned] at assigned'; cases assigned'
    rfl

end State

/-- A run for this formula, options and assumed literals comes through this state in
this phase: between two steps, between two assignments of a propagation, while the
assumptions are assigned in turn, or when it ends before the search can start. -/
inductive Occurs (f : Formula) (o : Options) (assumed : List Literal) : Phase → State → Prop where
  | emptyClause (loaded : State.ofFormula f o = .ok s) (empty : s.hasEmptyClause = true) :
      Occurs f o assumed .unsatisfiable { s with assumptions := assumed }
  | assuming (loaded : State.ofFormula f o = .ok s) (nonempty : s.hasEmptyClause = false)
      (first : before <+: assumed)
      (held : { s with assumptions := before }.assume = .ok (.held, t)) :
      Occurs f o assumed .propagating t
  | refused (loaded : State.ofFormula f o = .ok s) (nonempty : s.hasEmptyClause = false)
      (ran : { s with assumptions := assumed }.assume = .ok (answer, t)) (failed : answer ≠ .held) :
      Occurs f o assumed .unsatisfiable t
  | turn (reached : Reachable f o assumed phase s) : Occurs f o assumed phase s
  | between (reached : Reachable f o assumed .propagating s) (passed : s.Propagates t) :
      Occurs f o assumed .propagating t

/-- The invariant of all states of a run. -/
structure RunInvariant (f : Formula) (assumed : List Literal) (phase : Phase) (s : State) :
    Prop where
  numVariables : s.numVariables = f.numVariables
  coherent : s.Coherent
  layered : s.trail.Layered
  quiet : phase.isCalm = true → s.Quiet
  models : ∀ w, f.Holds w → (∀ l ∈ assumed, l.Holds w) → s.Admits w

variable {f : Formula} {o : Options} {assumed : List Literal} {s t : State} {phase : Phase}

theorem State.Poised.run_invariant (poised : s.Poised phase) (founded : Founded f assumed s) :
    RunInvariant f assumed phase s where
  numVariables := founded.numVariables
  coherent := poised.coherent
  layered := poised.layered
  quiet := by
    have suits := poised.suits
    intro calm
    cases phase with
    | propagating => exact suits
    | deciding => exact suits.1
    | satisfied => exact suits.1
    | analyzing | backjumping | restarting | unsatisfiable => cases calm
  models := founded.models

/-- Assigning one waiting literal keeps the invariant, if no clause is falsified. -/
theorem RunInvariant.assignUnit (invariant : RunInvariant f assumed .propagating s)
    (asked : State.nextUnit s.trail.value? s.queue = .assign i l rest)
    (assigned : { s with queue := rest }.assignUnit i l = .ok (.consistent, t)) :
    RunInvariant f assumed .propagating t := by
  obtain ⟨status, t', ran, extended, settled, admits, -⟩ :=
    State.assignUnit_spec invariant.coherent (invariant.quiet rfl) invariant.layered asked
  cases assigned.symm.trans ran
  exact ⟨extended.numVariables.trans invariant.numVariables, settled.coherent, settled.layered,
    fun _ => settled.quiet rfl, fun w holds all => admits w (invariant.models w holds all)⟩

/-- Assigning waiting literals only reorders clauses, and goes on with the trail. -/
theorem RunInvariant.extends (invariant : RunInvariant f assumed .propagating s)
    (passed : s.Propagates t) : RunInvariant f assumed .propagating t ∧ s.Extends t := by
  induction passed with
  | refl => exact ⟨invariant, .refl s⟩
  | step _ asked assigned ih =>
    obtain ⟨before, extended⟩ := ih
    obtain ⟨status, t', ran, extended', -⟩ :=
      State.assignUnit_spec before.coherent (before.quiet rfl) before.layered asked
    cases assigned.symm.trans ran
    exact ⟨before.assignUnit asked assigned, extended.trans extended'⟩

/-- Every state of a run satisfies the invariant. -/
theorem Occurs.invariant (occurs : Occurs f o assumed phase s)
    (declared : ∀ l ∈ assumed, l.var < f.numVariables) : RunInvariant f assumed phase s := by
  cases occurs with
  | emptyClause loaded empty =>
    have loading := State.loaded_of_ofFormula loaded
    exact {
      numVariables := loading.numVariables
      coherent := loading.coherent.congr rfl rfl rfl
      layered := Trail.layered_of_level_eq_zero loading.level_eq_zero
      quiet := nofun
      models := fun w holds _ => loading.admits holds }
  | assuming loaded nonempty first held =>
    have begun := begun_of_assume loaded (fun l member => declared l (first.subset member)) held
    obtain ⟨poised, founded⟩ := begun.ready rfl nonempty
    have invariant := poised.run_invariant founded
    exact ⟨invariant.numVariables, invariant.coherent, invariant.layered, invariant.quiet,
      fun w holds all => invariant.models w holds fun l member => all l (first.subset member)⟩
  | refused loaded nonempty ran failed =>
    have begun := begun_of_assume loaded declared ran
    exact ⟨begun.numVariables, begun.coherent, Trail.layered_of_level_eq_zero begun.ground, nofun,
      fun w holds all => absurd ⟨w, holds, all⟩ (begun.refuted failed)⟩
  | turn reached =>
    obtain ⟨poised, -, founded⟩ := reached.invariant declared
    exact poised.run_invariant founded
  | between reached passed =>
    obtain ⟨poised, -, founded⟩ := reached.invariant declared
    exact ((poised.run_invariant founded).extends passed).1

/-! ## Following a run -/

instance (s : State) (l : Literal) : Decidable (s.Open l) :=
  inferInstanceAs (Decidable (_ ∧ _))

instance (s : State) (phase : Phase) (choice : Option Literal) :
    Decidable (s.Allows phase choice) :=
  decidable_of_iff (phase = .deciding → ∃ l ∈ choice, s.Open l) (by simp [State.Allows])

/-- One step with this choice, if it is allowed. -/
def State.step? (here : Phase × State) (choice : Option Literal) : Option (Phase × State) :=
  if here.2.Allows here.1 choice then (here.2.advance choice here.1).toOption else none

/-- Where the search starts, unless the formula has an empty clause or the
assumptions fail. -/
def State.start? (f : Formula) (o : Options) (assumed : List Literal) : Option (Phase × State) :=
  match State.ofFormula f o with
  | .error _ => none
  | .ok s =>
    if s.hasEmptyClause then none
    else match { s with assumptions := assumed }.assume with
      | .ok (.held, t) => some (.propagating, t)
      | _ => none

/-- Where the search comes to with these choices, if all of them are allowed. -/
def State.along (f : Formula) (o : Options) (assumed : List Literal)
    (choices : List (Option Literal)) : Option (Phase × State) :=
  (State.start? f o assumed).bind (choices.foldlM State.step?)

theorem State.start?_eq_some_iff :
    State.start? f o assumed = some (phase, t) ↔ phase = .propagating ∧
      ∃ s, State.ofFormula f o = .ok s ∧ s.hasEmptyClause = false ∧
        { s with assumptions := assumed }.assume = .ok (.held, t) := by
  unfold State.start?
  split
  · rename_i broken
    simp [broken]
  · rename_i s loaded
    simp only [loaded, Except.ok.injEq, exists_eq_left']
    cases s.hasEmptyClause with
    | true => simp
    | false =>
      simp only [Bool.false_eq_true, if_false, true_and]
      split
      · rename_i held
        simp [held, eq_comm]
      · rename_i other
        simpa using fun _ held => other t held

theorem State.step?_eq_some_iff {choice : Option Literal} :
    State.step? (phase, s) choice = some (next, t) ↔
      s.Allows phase choice ∧ s.advance choice phase = .ok (next, t) := by
  unfold State.step?
  split
  · rename_i allowed
    cases s.advance choice phase <;> simp_all [Except.toOption]
  · rename_i refused
    simp [refused]

/-- Allowed steps lead from reachable states to reachable states. -/
theorem Reachable.follow {choices : List (Option Literal)} (reached : Reachable f o assumed phase s)
    (followed : choices.foldlM State.step? (phase, s) = some (next, t)) :
    Reachable f o assumed next t := by
  induction choices generalizing phase s with
  | nil =>
    cases followed
    exact reached
  | cons choice rest ih =>
    rw [List.foldlM_cons] at followed
    obtain ⟨⟨middle, u⟩, stepped, followed⟩ := Option.bind_eq_some_iff.mp followed
    obtain ⟨allowed, advanced⟩ := State.step?_eq_some_iff.mp stepped
    exact ih (.step reached allowed advanced) followed

/-- The reachable states are those that some choices lead to. -/
theorem reachable_iff_along :
    Reachable f o assumed phase s ↔
      ∃ choices, State.along f o assumed choices = some (phase, s) := by
  constructor
  · intro reached
    induction reached with
    | start loaded nonempty held =>
      have started := State.start?_eq_some_iff.mpr ⟨rfl, _, loaded, nonempty, held⟩
      exact ⟨[], by rw [State.along, started]; rfl⟩
    | @step _ _ choice _ _ _ allowed advanced ih =>
      obtain ⟨choices, along⟩ := ih
      obtain ⟨start, started, followed⟩ := Option.bind_eq_some_iff.mp along
      refine ⟨choices ++ [choice], ?_⟩
      rw [State.along, started, Option.bind_some, List.foldlM_append, followed]
      simpa using State.step?_eq_some_iff.mpr ⟨allowed, advanced⟩
  · rintro ⟨choices, along⟩
    obtain ⟨⟨first, start⟩, started, followed⟩ := Option.bind_eq_some_iff.mp along
    obtain ⟨rfl, u, loaded, nonempty, held⟩ := State.start?_eq_some_iff.mp started
    have reached : Reachable f o assumed .propagating start := .start loaded nonempty held
    exact reached.follow followed

/-- A reachable state with a property that following a run shows. -/
theorem exists_reachable {p : Phase → State → Bool} (choices : List (Option Literal))
    (shown : (State.along f o assumed choices).any (fun here => p here.1 here.2) = true) :
    ∃ phase s, Reachable f o assumed phase s ∧ p phase s = true := by
  cases along : State.along f o assumed choices with
  | none =>
    rw [along] at shown
    cases shown
  | some here =>
    rw [along] at shown
    exact ⟨here.1, here.2, reachable_iff_along.mpr ⟨choices, along⟩, shown⟩

/-- With the last variable assumed, the first two exclude each other. -/
def exclusive : Formula :=
  .ofClauses 4 [[⟨0, false⟩, ⟨1, false⟩, ⟨2, true⟩],
    [⟨0, false⟩, ⟨1, false⟩, ⟨2, false⟩, ⟨3, false⟩]]

theorem exclusive_accepted :
    [4].mapM (Solver.assumption exclusive.numVariables) = .ok [⟨3, true⟩] := rfl

/-- The states of a search that decides on both of the first two variables, meets the
conflict, analyzes it and goes back. -/
theorem exists_exclusive {p : Phase → State → Bool} (steps : Nat)
    (shown : (State.along exclusive {} [⟨3, true⟩] ([none, some ⟨0, true⟩, none, some ⟨1, true⟩,
      none, none, none, none].take steps)).any (fun here => p here.1 here.2) = true) :
    ∃ phase s, Reachable exclusive {} [⟨3, true⟩] phase s ∧ p phase s = true :=
  exists_reachable _ shown

end ClauseLearning
