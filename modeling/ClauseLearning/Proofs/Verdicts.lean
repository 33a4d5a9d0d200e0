import ClauseLearning.Proofs.SearchRuns

/-! What the answers of a search mean. A state in which all variables are assigned
and nothing is overlooked makes every clause hold, and its literals are a model.
A clause falsified at level 0 leaves no valuation that the state admits. -/
namespace ClauseLearning

/-- The model has one literal for each variable, in order, has all assumed literals
and a literal of every clause of the formula as it was given. -/
structure Model.Solves (m : Model) (f : Formula) (assumed : List Literal) : Prop where
  length : m.literals.length = f.numVariables
  ordered : ∀ (i : Nat) (bound : i < m.literals.length), m.literals[i].var = i
  assumed : ∀ l ∈ assumed, l ∈ m.literals
  clauses : ∀ clause ∈ f.clauses, ∃ l ∈ clause, l ∈ m.literals

/-- A search for the formula under the assumed literals may give this answer in this state. -/
inductive Ends (f : Formula) (o : Options) (assumed : List Literal) : Verdict → State → Prop where
  | emptyClause (loaded : State.ofFormula f o = .ok s) (empty : s.hasEmptyClause = true) :
      Ends f o assumed .unsat { s with assumptions := assumed }
  | assumptionsFail (loaded : State.ofFormula f o = .ok s) (nonempty : s.hasEmptyClause = false)
      (failed : { s with assumptions := assumed }.assume = .ok (answer, t))
      (notHeld : answer ≠ .held) : Ends f o assumed .unsat t
  | satisfied (reached : Reachable f o assumed .satisfied s) (model : s.model = .ok m) :
      Ends f o assumed (.sat m) s
  | refuted (reached : Reachable f o assumed .unsatisfiable s) : Ends f o assumed .unsat s

/-- The answers that searches for the formula under the assumed literals may give,
whatever open literals are decided on. -/
def Answers (f : Formula) (o : Options) (assumed : List Literal) (verdict : Verdict) : Prop :=
  ∃ s, Ends f o assumed verdict s

/-- An outcome that reports how a search for the formula under the assumed literals ended:
its verdict, and the statistics of the state it ended in. -/
def Outcome.Reports (f : Formula) (o : Options) (assumed : List Literal) (outcome : Outcome) :
    Prop :=
  ∃ s, Ends f o assumed outcome.verdict s ∧ outcome.statistics = s.statistics

/-- What is reported is one of the answers. -/
theorem Outcome.Reports.answers {outcome : Outcome} (reports : outcome.Reports f o assumed) :
    Answers f o assumed outcome.verdict := by
  obtain ⟨s, ends, -⟩ := reports
  exact ⟨s, ends⟩

namespace State

variable {s : State} {l : Literal}

/-- Nothing waits and every variable is assigned: then each clause has a true literal,
because a false watch would be made up for by a true one. -/
theorem Quiet.exists_true (quiet : s.Quiet) (coherent : s.Coherent) (empty : s.queue = [])
    (assigned : ∀ var < s.numVariables, s.trail.assignment.find? var ≠ none)
    (living : s.store.clause? i = some c) :
    ∃ m ∈ c.literals, s.trail.value? m = some true := by
  have proper := coherent.store.proper i c living
  obtain ⟨w, rest, shape⟩ := List.exists_cons_of_ne_nil proper.ne_nil
  have watched : w ∈ c.watched := by simp [Clause.watched, shape]
  have member := Clause.mem_of_mem_watched watched
  cases known : s.trail.value? w with
  | none =>
    exact absurd (Trail.value?_eq_none_iff.mp known) (assigned w.var (proper.declared w member))
  | some b =>
    cases b with
    | true => exact ⟨w, member, known⟩
    | false =>
      obtain ⟨k, fails⟩ := Trail.value?_eq_false_iff.mp known
      obtain ⟨o, other, j, -, holds⟩ :=
        quiet.exists_true_watch coherent empty living watched fails
      exact ⟨o, Clause.mem_of_mem_watched other, Trail.value?_of_true_at holds⟩

theorem Coherent.assigned_of_complete (coherent : s.Coherent) (complete : s.complete = true) :
    ∀ var < s.numVariables, s.trail.assignment.find? var ≠ none := by
  intro var declared
  have full : s.trail.size = s.numVariables := by simpa [State.complete] using complete
  exact coherent.trail.assigned_of_full (full.trans coherent.declared.symm)
    (coherent.declared.symm ▸ declared)

theorem mem_trueLiterals_iff :
    l ∈ s.trueLiterals ↔ l.var < s.numVariables ∧ s.trail.value? l = some true := by
  unfold trueLiterals
  rw [List.mem_filterMap]
  constructor
  · rintro ⟨var, inRange, found⟩
    obtain ⟨e, known, rfl⟩ := Option.map_eq_some_iff.mp found
    exact ⟨List.mem_range.mp inRange,
      Trail.value?_of_true_at (k := e.level) ⟨e, known, rfl, rfl⟩⟩
  · rintro ⟨declared, known⟩
    obtain ⟨k, e, found, signs, -⟩ := Trail.value?_eq_true_iff.mp known
    refine ⟨l.var, List.mem_range.mpr declared, ?_⟩
    rw [found, Option.map_some, signs]

/-- With all variables assigned, the true literals are one for each variable. -/
theorem vars_trueLiterals
    (assigned : ∀ var < s.numVariables, s.trail.assignment.find? var ≠ none) :
    s.trueLiterals.map Literal.var = List.range s.numVariables := by
  unfold trueLiterals
  rw [List.map_filterMap]
  have same : ∀ var ∈ List.range s.numVariables,
      ((s.trail.assignment.find? var).map fun e => (⟨var, e.positive⟩ : Literal)).map Literal.var
        = some var := by
    intro var inRange
    obtain ⟨e, found⟩ :=
      Option.ne_none_iff_exists'.mp (assigned var (List.mem_range.mp inRange))
    rw [found]
    rfl
  rw [List.filterMap_congr same, List.filterMap_some]

end State

variable {f : Formula} {o : Options} {assumed : List Literal} {s : State} {m : Model}

/-- The literals of a model hold under the valuation that it writes down. -/
theorem Model.Solves.holds (solves : m.Solves f assumed) (member : l ∈ m.literals) :
    l.Holds fun var => (m.value? var).getD false := by
  obtain ⟨i, bound, rfl⟩ := List.mem_iff_getElem.mp member
  have var := solves.ordered i bound
  unfold Literal.Holds
  simp only [Model.value?, var, List.getElem?_eq_getElem bound, Option.map_some, Option.getD_some]

theorem Model.Solves.satisfiable (solves : m.Solves f assumed) : f.SatisfiableWith assumed := by
  refine ⟨fun var => (m.value? var).getD false, ?_, fun l member => ?_⟩
  · intro clause member
    obtain ⟨l, inside, among⟩ := solves.clauses clause member
    exact ⟨l, inside, solves.holds among⟩
  · exact solves.holds (solves.assumed l member)

/-- A search that ends satisfied has a model to give, and it solves the formula. -/
theorem Founded.exists_model (founded : Founded f assumed s) (poised : s.Poised .satisfied) :
    ∃ m, s.model = .ok m ∧ m.Solves f assumed := by
  obtain ⟨coherent, -, quiet, empty, complete⟩ := poised
  have assigned := coherent.assigned_of_complete complete
  have vars := State.vars_trueLiterals assigned
  have length : s.trueLiterals.length = s.numVariables := by
    simpa using congrArg List.length vars
  refine ⟨⟨s.trueLiterals⟩, by unfold State.model; exact if_pos length, ?_⟩
  exact {
    length := length.trans founded.numVariables
    ordered := by
      intro i bound
      have entry := List.getElem_of_eq vars (i := i) (by simpa using bound)
      simpa using entry
    assumed := by
      intro l member
      have fact := founded.facts l member
      obtain ⟨e, found, -⟩ := fact
      have declared := Assignment.lt_of_find? found
      rw [coherent.declared] at declared
      exact State.mem_trueLiterals_iff.mpr
        ⟨declared, Trail.value?_of_true_at (founded.facts l member)⟩
    clauses := by
      intro clause member
      have declared : ∀ l ∈ clause, l.var < s.numVariables := by
        rw [founded.numVariables]
        exact f.declared clause member
      rcases founded.clauses clause member with tautology | ⟨i, c, living, -, same⟩
      · -- one of two complementary literals is true
        obtain ⟨l, inside, opposite⟩ := isTautology_iff.mp tautology
        rw [mem_normalForm] at inside opposite
        cases known : s.trail.value? l with
        | none =>
          exact absurd (Trail.value?_eq_none_iff.mp known) (assigned l.var (declared l inside))
        | some b =>
          cases b with
          | true =>
            exact ⟨l, inside, State.mem_trueLiterals_iff.mpr ⟨declared l inside, known⟩⟩
          | false =>
            refine ⟨l.negate, opposite,
              State.mem_trueLiterals_iff.mpr ⟨declared l.negate opposite, ?_⟩⟩
            rw [Trail.value?_negate, known]
            rfl
      · obtain ⟨l, inside, known⟩ := quiet.exists_true coherent empty assigned living
        have inside' := (same l).mp inside
        exact ⟨l, inside', State.mem_trueLiterals_iff.mpr ⟨declared l inside', known⟩⟩ }

/-- A search that ends without a model shows that there is none. -/
theorem Founded.not_satisfiable (founded : Founded f assumed s)
    (poised : s.Poised .unsatisfiable) : ¬ f.SatisfiableWith assumed := by
  rintro ⟨w, holds, all⟩
  obtain ⟨coherent, -, ground, index, falsified⟩ := poised
  exact falsified.not_admits coherent.trail ground (founded.models w holds all)

/-- A model that is answered solves the formula. -/
theorem Answers.solves (answers : Answers f o assumed (.sat m))
    (declared : ∀ l ∈ assumed, l.var < f.numVariables) : m.Solves f assumed := by
  obtain ⟨s, ends⟩ := answers
  cases ends with
  | satisfied reached model =>
    obtain ⟨poised, -, founded⟩ := reached.invariant declared
    obtain ⟨m', model', solves⟩ := founded.exists_model poised
    cases model.symm.trans model'
    exact solves

/-- Without a model as the answer there is none: not with an empty clause, not
when the assumptions fail, and not after a conflict at level 0. -/
theorem Answers.not_satisfiable (answers : Answers f o assumed .unsat)
    (declared : ∀ l ∈ assumed, l.var < f.numVariables) : ¬ f.SatisfiableWith assumed := by
  obtain ⟨s, ends⟩ := answers
  cases ends with
  | emptyClause loaded empty =>
    have loading := State.loaded_of_ofFormula loaded
    rintro ⟨w, holds, -⟩
    obtain ⟨l, member, -⟩ := holds [] (loading.hasEmptyClause.mp empty)
    cases member
  | assumptionsFail loaded nonempty failed notHeld =>
    exact (begun_of_assume loaded declared failed).refuted notHeld
  | refuted reached =>
    obtain ⟨poised, -, founded⟩ := reached.invariant declared
    exact founded.not_satisfiable poised

end ClauseLearning
