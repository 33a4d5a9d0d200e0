import ClauseLearning.Experiment.RandomFormula
import ClauseLearning.Experiment.Rounding
import ClauseLearning.Search.Solver

/-!
How satisfiable random formulas are, depending on their density: the number of clauses for each
variable. Sparse formulas nearly always have a model and dense ones nearly never. A survey draws
and solves a number of formulas at a density.
-/

namespace ClauseLearning.Experiment

open Randomness

/-- What formulas to draw, how many, and how to solve them. -/
structure Survey where
  /-- Literals in a clause. -/
  clauseLength : Nat
  /-- Variables in a formula. -/
  numVariables : Nat
  /-- Formulas at each density. -/
  samples : Nat
  /-- How to solve them. -/
  options : Options

/-- What a survey found at a density. -/
structure Measurement where
  /-- Clauses for each variable. -/
  density : Float
  /-- The share of satisfiable formulas. -/
  satisfiable : Float
  /-- Decisions for each formula on average. -/
  decisions : Float

/-- What has been counted over some samples. -/
structure Tally where
  /-- Satisfiable formulas. -/
  satisfiable : Nat := 0
  /-- Decisions made. -/
  decisions : Nat := 0

/-- The tally with one more formula. -/
def Tally.add (t : Tally) (o : Outcome) : Tally :=
  ⟨t.satisfiable + (if o.verdict.isSat then 1 else 0), t.decisions + o.statistics.decisions⟩

namespace Survey

/-- Draws and solves formulas of the given size one after the other. -/
def collect (s : Survey) (numClauses : Nat) :
    Nat → Tally → Keystream → Except Error (Tally × Keystream)
  | 0, tally, source => .ok (tally, source)
  | count + 1, tally, source => do
    let (f, source) ← randomFormula s.clauseLength s.numVariables numClauses source
    let outcome ← solve f s.options []
    collect s numClauses count (tally.add outcome) source

/-- The first condition that a survey at a density breaks. -/
def problem? (s : Survey) (density : Float) : Option OptionProblem :=
  if s.samples = 0 then some .noSamples
  else if ¬ 0.0 ≤ density then some (.negativeRatio density)
  else s.options.problem?

/-- Solves the samples of one density, with the number of clauses rounded up. -/
def measure (s : Survey) (density : Float) (source : Keystream) :
    Except Error (Measurement × Keystream) :=
  match s.problem? density with
  | some problem => .error (.invalidOptions problem)
  | none => do
    let numClauses := roundUp (density * Float.ofNat s.numVariables)
    let (tally, source) ← s.collect numClauses s.samples {} source
    let share (count : Nat) := Float.ofNat count / Float.ofNat s.samples
    return (⟨density, share tally.satisfiable, share tally.decisions⟩, source)

end Survey

end ClauseLearning.Experiment
