import ClauseLearning.Branching.Brancher
import ClauseLearning.Error
import ClauseLearning.Search.Doubling
import ClauseLearning.Search.Journal

/-!
Solving formulas. A solver is a search with a brancher that makes its choices; it runs until the
search is satisfied or finds that it cannot be. `solve` is the whole procedure: it checks options
and assumptions, runs the search and gives the answer with its statistics and its journal.
-/

namespace ClauseLearning

/-- The answer of a search. -/
inductive Verdict where
  /-- A model. -/
  | sat (model : Model)
  /-- There is no model. -/
  | unsat
  deriving DecidableEq

/-- Whether the answer is a model. -/
def Verdict.isSat : Verdict → Bool
  | sat _ => true
  | unsat => false

/-- A search and what makes its choices. -/
structure Solver where
  /-- The search. -/
  state : State
  /-- The brancher. -/
  brancher : Brancher

/-- What the brancher does in a phase: it picks a decision, or takes note of a learned clause. -/
def Brancher.follow (b : Brancher) (phase : Phase) (s : State) : Option Literal × Brancher :=
  match phase with
  | .deciding => b.pick s.trail.assignment s.store
  | .backjumping l => (none, b.noteLearned l.literals)
  | .restarting l => (none, b.noteLearned l.literals)
  | _ => (none, b)

namespace Solver

/-- A run of a solver, up to some step. -/
structure Progress where
  /-- The solver. -/
  solver : Solver
  /-- What comes next. -/
  phase : Phase
  /-- What happened, the newest event first. -/
  journal : List Event

/-- A run of a solver that has ended. -/
structure Finished where
  /-- The solver. -/
  solver : Solver
  /-- The answer. -/
  verdict : Verdict
  /-- What happened, in order. -/
  journal : List Event

/-- A run that could not go on: the solver is as it was before the step that met the fault. -/
structure Breakdown where
  /-- What was wrong. -/
  fault : Fault
  /-- The solver. -/
  solver : Solver

/-- The solver of a formula, before anything is assumed. -/
def ofFormula (f : Formula) (o : Options) : Except Fault Solver :=
  (State.ofFormula f o).map fun state =>
    ⟨state, .start o f.numVariables state.store⟩

/-- The literal of a number that names a variable of the formula. -/
def assumption (numVariables : Nat) (x : Int) : Except Error Literal :=
  if x = 0 ∨ numVariables < x.natAbs then .error (.invalidAssumption x)
  else .ok ⟨x.natAbs - 1, 0 < x⟩

/-- The solver with literals that are to hold, given as signed numbers. -/
def withAssumptions (s : Solver) (numbers : List Int) : Except Error Solver :=
  (numbers.mapM (assumption s.state.numVariables)).map fun literals =>
    { s with state := { s.state with assumptions := s.state.assumptions ++ literals } }

/-- One step of the search with the choice of the brancher. -/
def step (s : Solver) (phase : Phase) : Except Fault (Option Literal × Phase × Solver) :=
  let (choice, brancher) := s.brancher.follow phase s.state
  (s.state.advance choice phase).map fun (next, state) => (choice, next, ⟨state, brancher⟩)

/-- A finished run, from the newest event to the oldest. -/
def Progress.finish (p : Progress) (verdict : Verdict) : Finished :=
  ⟨p.solver, verdict, p.journal.reverse⟩

/-- One turn of a run: the next step, or the answer. -/
def Progress.turn (p : Progress) : Progress ⊕ Except Breakdown Finished :=
  match p.phase with
  | .satisfied =>
    match p.solver.state.model with
    | .error fault => .inr (.error ⟨fault, p.solver⟩)
    | .ok model => .inr (.ok (p.finish (.sat model)))
  | .unsatisfiable => .inr (.ok (p.finish .unsat))
  | phase =>
    let deletedBefore := p.solver.state.statistics.deletedClauses
    match p.solver.step phase with
    | .error fault => .inr (.error ⟨fault, p.solver⟩)
    | .ok (choice, next, solver) =>
      let events := Event.ofStep choice phase deletedBefore next solver.state
      .inl ⟨solver, next, events.reverse ++ p.journal⟩

/-- Enough rounds for any search over so many variables: with `n` variables there are fewer than
`(n + 2) ^ (n + 1)` conflicts between two restarts and fewer restarts than that. -/
def roundsFor (numVariables : Nat) : Nat :=
  4 * ((numVariables + 3) * (numVariables + 3))

/-- Goes on with a run to its end. -/
def Progress.complete (p : Progress) : Except Breakdown Finished :=
  match Doubling.rounds Progress.turn (roundsFor p.solver.state.numVariables) 0 p with
  | .inl last => .error ⟨.exhausted, last.solver⟩
  | .inr result => result

/-- Runs the search from the current level: nothing is done for a formula with an empty clause,
and nothing more once the assumptions fail. -/
def run (s : Solver) : Except Breakdown Finished :=
  if s.state.hasEmptyClause then .ok ⟨s, .unsat, [.emptyClause]⟩
  else match s.state.assume with
    | .error fault => .error ⟨fault, s⟩
    | .ok (.held, state) => Progress.complete ⟨{ s with state := state }, .propagating, []⟩
    | .ok (assumed, state) => .ok ⟨{ s with state := state }, .unsat, Event.ofAssumed assumed⟩

/-- Stores a learned clause and lets the brancher take note of it. -/
def learn (s : Solver) (l : Learned) : Except Fault (Nat × Solver) :=
  (s.state.learn l).map fun (index, state) =>
    (index, ⟨state, s.brancher.noteLearned l.literals⟩)

end Solver

/-- The result of solving a formula. -/
structure Outcome where
  /-- The answer. -/
  verdict : Verdict
  /-- What the search counted. -/
  statistics : Statistics
  /-- What the search reported. -/
  journal : List Event

/-- Runs a solver and reports its start and its end. -/
def Solver.outcome (s : Solver) : Except Solver.Breakdown Outcome :=
  let start := Event.started s.state.numVariables s.state.store.size s.brancher.heuristic
  s.run.map fun finished =>
    let statistics := finished.solver.state.statistics
    let finish := Event.ended finished.verdict.isSat statistics
    ⟨finished.verdict, statistics, start :: finished.journal ++ [finish]⟩

/-- Solves a formula under assumptions, given as signed numbers. -/
def solve (f : Formula) (o : Options) (assumptions : List Int) : Except Error Outcome :=
  match o.problem? with
  | some problem => .error (.invalidOptions problem)
  | none => do
    let solver ← (Solver.ofFormula f o).mapError .broken
    let solver ← solver.withAssumptions assumptions
    solver.outcome.mapError fun breakdown => .broken breakdown.fault

end ClauseLearning
