import ClauseLearning.Proofs.FormulaLoading
import ClauseLearning.Proofs.SearchPace

/-! Runs of the search for a formula under assumptions, with every decision that a
branching heuristic may make. Every state that a run reaches satisfies the
invariant of its phase, stores the clauses of the formula, and admits every model
of the formula in which the assumptions hold. -/
namespace ClauseLearning

/-- A search for this formula, options and assumed literals can come to this phase
and state. The first propagation starts once the assumptions are assigned; from
then on any open literal may be decided on. -/
inductive Reachable (f : Formula) (o : Options) (assumed : List Literal) :
    Phase → State → Prop where
  | start (loaded : State.ofFormula f o = .ok s) (nonempty : s.hasEmptyClause = false)
      (held : { s with assumptions := assumed }.assume = .ok (.held, t)) :
      Reachable f o assumed .propagating t
  | step (reached : Reachable f o assumed phase s) (allowed : s.Allows phase choice)
      (advanced : s.advance choice phase = .ok (next, t)) : Reachable f o assumed next t

/-- What ties a state to the formula and the assumed literals it was reached for. -/
structure Founded (f : Formula) (assumed : List Literal) (s : State) : Prop where
  numVariables : s.numVariables = f.numVariables
  clauses : ∀ clause ∈ f.clauses, isTautology (normalForm clause) = true ∨
    ∃ i c, s.store.clause? i = some c ∧ c.isLearned = false ∧ ∀ l, l ∈ c.literals ↔ l ∈ clause
  facts : ∀ l ∈ assumed, s.trail.TrueAt l 0
  models : ∀ w, f.Holds w → (∀ l ∈ assumed, l.Holds w) → s.Admits w

variable {f : Formula} {o : Options} {assumed : List Literal} {s t : State} {phase next : Phase}
  {choice : Option Literal}

theorem Founded.keep (founded : Founded f assumed s) (keeps : s.Keeps t)
    (admits : ∀ w, s.Admits w → t.Admits w) : Founded f assumed t where
  numVariables := keeps.numVariables.trans founded.numVariables
  clauses := by
    intro clause member
    apply (founded.clauses clause member).imp_right
    rintro ⟨i, c, living, input, same⟩
    obtain ⟨c', living', rearranged⟩ := keeps.inputs i c living input
    exact ⟨i, c', living', rearranged.isLearned_eq ▸ input,
      fun l => rearranged.mem_iff.symm.trans (same l)⟩
  facts := fun l member => keeps.facts l (founded.facts l member)
  models := fun w holds all => admits w (founded.models w holds all)

/-- What assuming literals right after loading leaves. It stays at level 0. If the literals
hold, the search can start; if not, no model of the formula makes all of them hold. -/
structure Begun (f : Formula) (assumed : List Literal) (s : State) (answer : State.Assumed)
    (t : State) : Prop where
  schedule : t.schedule = s.schedule
  ready : answer = .held → s.hasEmptyClause = false → t.Poised .propagating ∧ Founded f assumed t
  refuted : answer ≠ .held → ¬ f.SatisfiableWith assumed
  coherent : t.Coherent
  ground : t.level = 0
  numVariables : t.numVariables = f.numVariables
  rearranged : ClauseStore.Rearranged s.store t.store

/-- Assuming declared literals right after loading succeeds. -/
theorem assume_spec (loaded : s.Loaded f.numVariables f.clauses)
    (declared : ∀ l ∈ assumed, l.var < f.numVariables) :
    ∃ answer t, { s with assumptions := assumed }.assume = .ok (answer, t) ∧
      Begun f assumed s answer t := by
  let u : State := { s with assumptions := [] }
  have coherent : u.Coherent := loaded.coherent.congr rfl rfl rfl
  have quiet : u.Quiet := loaded.quiet.congr rfl rfl rfl
  have ground : u.level = 0 := loaded.level_eq_zero
  have declared' : ∀ l ∈ assumed, l.var < u.numVariables := by
    intro l member
    exact loaded.numVariables.symm ▸ declared l member
  have admits : ∀ w, f.Holds w → u.Admits w := fun w holds => loaded.admits holds
  obtain ⟨answer, t, ran, extended, coherent', means⟩ :=
    State.assumeAll_spec assumed coherent quiet ground declared'
  have refuted : answer ≠ .held → ¬ f.SatisfiableWith assumed := by
    rintro failed ⟨w, holds, all⟩
    cases answer with
    | held => exact failed rfl
    | contradicts l => exact means w (admits w holds) all
    | falsifies l index => exact means w (admits w holds) all
  have level : t.trail.level = 0 := extended.level.trans ground
  have sized : t.numVariables = f.numVariables := extended.numVariables.trans loaded.numVariables
  refine ⟨answer, t, ran, extended.schedule, ?_, refuted, coherent', level, sized,
    extended.rearranged⟩
  rintro rfl nonempty
  obtain ⟨quiet', facts, admits'⟩ := means
  refine ⟨⟨coherent', Trail.layered_of_level_eq_zero level, quiet'⟩, ?_⟩
  exact {
    numVariables := sized
    clauses := by
      intro clause member
      have notEmpty : clause ≠ [] := by
        rintro rfl
        have noted := loaded.hasEmptyClause.mpr member
        rw [nonempty] at noted
        cases noted
      apply ((loaded.stored clause member).resolve_left notEmpty).imp_right
      rintro ⟨i, c, living, input, same⟩
      obtain ⟨c', living', rearranged⟩ := extended.rearranged.forward living
      exact ⟨i, c', living', rearranged.isLearned_eq ▸ input,
        fun l => rearranged.mem_iff.symm.trans (same l)⟩
    facts := facts
    models := fun w holds all => admits' w (admits w holds) all }

/-- Whatever assuming the literals came to, this is what it leaves. -/
theorem begun_of_assume (loaded : State.ofFormula f o = .ok s)
    (declared : ∀ l ∈ assumed, l.var < f.numVariables)
    (ran : { s with assumptions := assumed }.assume = .ok (answer, t)) :
    Begun f assumed s answer t := by
  obtain ⟨answer', t', ran', begun⟩ := assume_spec (State.loaded_of_ofFormula loaded) declared
  cases ran.symm.trans ran'
  exact begun

/-- The invariant of runs: it holds at the start and every step keeps it. -/
theorem Reachable.invariant (reachable : Reachable f o assumed phase s)
    (declared : ∀ l ∈ assumed, l.var < f.numVariables) :
    s.Poised phase ∧ s.Paced phase ∧ Founded f assumed s := by
  induction reachable with
  | start loaded nonempty held =>
    have begun := begun_of_assume loaded declared held
    obtain ⟨poised, founded⟩ := begun.ready rfl nonempty
    have fresh := (congrArg (·.conflicts) begun.schedule).trans
      (State.loaded_of_ofFormula loaded).schedule
    exact ⟨poised, fresh.trans_le (Nat.zero_le _), founded⟩
  | step _ allowed ran ih =>
    obtain ⟨poised, paced, founded⟩ := ih
    have advanced := poised.advanced allowed ran
    exact ⟨advanced.poised, advanced.paced poised paced,
      founded.keep advanced.keeps advanced.admits⟩

/-- What holds when the search starts, and is kept by every step from a state that is ready
for it, holds in all states that are reached. -/
theorem Reachable.kept {P : State → Prop} (reachable : Reachable f o assumed phase s)
    (declared : ∀ l ∈ assumed, l.var < f.numVariables)
    (start : ∀ s t, State.ofFormula f o = .ok s → Begun f assumed s .held t → P t)
    (step : ∀ phase s next t, s.Poised phase → s.Advanced phase t next → P s → P t) : P s := by
  induction reachable with
  | start loaded nonempty held => exact start _ _ loaded (begun_of_assume loaded declared held)
  | step reached allowed ran ih =>
    obtain ⟨poised, -⟩ := reached.invariant declared
    exact step _ _ _ _ poised (poised.advanced allowed ran) ih

/-- No reachable state is stuck: with any choice that is allowed the search goes on. -/
theorem Reachable.exists_step (reachable : Reachable f o assumed phase s)
    (declared : ∀ l ∈ assumed, l.var < f.numVariables) (allowed : s.Allows phase choice) :
    ∃ next t, s.advance choice phase = .ok (next, t) ∧ Reachable f o assumed next t ∧
      (phase ≠ .satisfied → phase ≠ .unsatisfiable → t.rank next < s.rank phase) := by
  obtain ⟨poised, paced, -⟩ := reachable.invariant declared
  obtain ⟨next, t, ran, advanced⟩ := State.advance_spec poised allowed
  exact ⟨next, t, ran, .step reachable allowed ran, advanced.rank_lt poised paced⟩

/-- The search for a satisfiable formula starts, because its assumptions hold. -/
theorem exists_start (o : Options) (declared : ∀ l ∈ assumed, l.var < f.numVariables)
    (satisfiable : f.SatisfiableWith assumed) :
    ∃ s t, State.ofFormula f o = .ok s ∧ s.hasEmptyClause = false ∧
      { s with assumptions := assumed }.assume = .ok (.held, t) := by
  obtain ⟨s, loaded, loading⟩ := State.ofFormula_spec f o
  obtain ⟨answer, t, ran, begun⟩ := assume_spec loading declared
  have held : answer = .held := by
    by_contra failed
    exact begun.refuted failed satisfiable
  subst held
  refine ⟨s, t, loaded, ?_, ran⟩
  cases empty : s.hasEmptyClause with
  | false => rfl
  | true =>
    obtain ⟨w, holds, -⟩ := satisfiable
    obtain ⟨l, member, -⟩ := holds [] (loading.hasEmptyClause.mp empty)
    cases member

end ClauseLearning
