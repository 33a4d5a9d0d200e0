import ClauseLearning.Proofs.Solving

/-! Both answers are right. A model makes every clause of the formula hold as it was
given, together with the assumptions; and where no model is found there is none.
This holds whatever open literals are decided on, and so for the solver. -/
namespace ClauseLearning

variable {f : Formula} {o : Options} {numbers : List Int} {assumed : List Literal}

/-- A model that a search comes to, or that solving gives, has a literal for each
variable, all assumed literals, and a literal of every clause. -/
theorem sat_answer_solves
    (accepted : numbers.mapM (Solver.assumption f.numVariables) = .ok assumed) :
    (∀ m, Answers f o assumed (.sat m) → m.Solves f assumed) ∧
    ∀ outcome m, solve f o numbers = .ok outcome → outcome.verdict = .sat m →
      m.Solves f assumed := by
  have declared := Solver.declared_of_accepted accepted
  refine ⟨fun m answers => answers.solves declared, ?_⟩
  intro outcome m solved verdict
  have answers := (reports_of_solve accepted solved).answers
  rw [verdict] at answers
  exact answers.solves declared

/-- A clause with a repeated literal, one that always holds, and two that leave a
choice, with the second variable assumed. -/
def repetitive : Formula :=
  .ofClauses 3 [[⟨0, true⟩, ⟨0, true⟩, ⟨1, false⟩], [⟨1, true⟩, ⟨2, true⟩, ⟨2, false⟩],
    [⟨0, false⟩, ⟨1, true⟩, ⟨2, true⟩], [⟨1, false⟩, ⟨2, false⟩]]

/-- Searches for this formula have a model to give. -/
theorem sat_answer_solves_repetitive :
    [2].mapM (Solver.assumption repetitive.numVariables) = .ok [⟨1, true⟩] ∧
    ∃ m, Answers repetitive {} [⟨1, true⟩] (.sat m) ∧ m.Solves repetitive [⟨1, true⟩] := by
  have accepted : [2].mapM (Solver.assumption repetitive.numVariables) = .ok [⟨1, true⟩] := rfl
  have declared := Solver.declared_of_accepted accepted
  obtain ⟨verdict, answers⟩ := exists_answer repetitive {} declared
  refine ⟨accepted, ?_⟩
  cases verdict with
  | sat m => exact ⟨m, answers, (sat_answer_solves accepted).1 m answers⟩
  | unsat =>
    have satisfiable : repetitive.SatisfiableWith [⟨1, true⟩] :=
      ⟨fun var => var != 2, by decide, by decide⟩
    exact absurd satisfiable (answers.not_satisfiable declared)

/-- Where a search or solving finds no model, no valuation makes the formula and the
assumed literals hold. -/
theorem unsat_answer_refutes
    (accepted : numbers.mapM (Solver.assumption f.numVariables) = .ok assumed) :
    (Answers f o assumed .unsat → ¬ f.SatisfiableWith assumed) ∧
    ∀ outcome, solve f o numbers = .ok outcome → outcome.verdict = .unsat →
      ¬ f.SatisfiableWith assumed := by
  have declared := Solver.declared_of_accepted accepted
  refine ⟨fun answers => answers.not_satisfiable declared, ?_⟩
  intro outcome solved verdict
  have answers := (reports_of_solve accepted solved).answers
  rw [verdict] at answers
  exact answers.not_satisfiable declared

/-- Satisfiable as it is, but not without the third variable. -/
def constrained : Formula :=
  .ofClauses 3 [[⟨0, true⟩, ⟨1, true⟩], [⟨0, true⟩, ⟨1, false⟩],
    [⟨0, false⟩, ⟨1, true⟩, ⟨2, true⟩], [⟨0, false⟩, ⟨1, false⟩]]

/-- Searches for this formula come to a conflict at level 0. -/
theorem unsat_answer_refutes_constrained :
    [-3].mapM (Solver.assumption constrained.numVariables) = .ok [⟨2, false⟩] ∧
    Answers constrained {} [⟨2, false⟩] .unsat ∧
    ¬ constrained.SatisfiableWith [⟨2, false⟩] := by
  have accepted : [-3].mapM (Solver.assumption constrained.numVariables) = .ok [⟨2, false⟩] := rfl
  have declared := Solver.declared_of_accepted accepted
  have unsatisfiable : ¬ constrained.SatisfiableWith [⟨2, false⟩] := by
    rintro ⟨w, holds, all⟩
    have third := all ⟨2, false⟩ (by simp)
    simp [Formula.Holds, constrained, Formula.ofClauses, ClauseHolds, Literal.Holds] at holds third
    cases first : w 0 <;> cases second : w 1 <;> simp_all
  obtain ⟨verdict, answers⟩ := exists_answer constrained {} declared
  refine ⟨accepted, ?_⟩
  cases verdict with
  | sat m => exact absurd (answers.solves declared).satisfiable unsatisfiable
  | unsat => exact ⟨answers, (unsat_answer_refutes accepted).1 answers⟩

end ClauseLearning
