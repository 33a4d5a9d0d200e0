import ClauseLearning.Error
import ClauseLearning.Logic.Formula
import ClauseLearning.Randomness.Draw

/-!
Uniform random formulas whose clauses have a fixed number of literals over distinct variables.
-/

namespace ClauseLearning.Experiment

open Randomness

/-- Gives each variable a random polarity, in order. -/
def drawPolarities : List Nat → Keystream → List Literal × Keystream
  | [], s => ([], s)
  | var :: rest, s =>
    let (positive, s) := coin s
    let (literals, s) := drawPolarities rest s
    (⟨var, positive⟩ :: literals, s)

/-- A clause of `k` literals over distinct variables below `numVariables`. -/
def drawClause (k numVariables : Nat) (s : Keystream) : List Literal × Keystream :=
  let (vars, s) := sample numVariables k s
  drawPolarities vars s

/-- Clauses drawn one after the other. -/
def drawClauses (k numVariables : Nat) : Nat → Keystream → List (List Literal) × Keystream
  | 0, s => ([], s)
  | count + 1, s =>
    let (clause, s) := drawClause k numVariables s
    let (clauses, s) := drawClauses k numVariables count s
    (clause :: clauses, s)

/-- A formula of random clauses, and the stream after it. Nothing is drawn if there are no such
clauses. -/
def randomFormula (k numVariables numClauses : Nat) (s : Keystream) :
    Except Error (Formula × Keystream) :=
  if k = 0 ∨ numVariables < k then .error (.invalidGenerator k numVariables)
  else
    let (clauses, s) := drawClauses k numVariables numClauses s
    .ok (.ofClauses numVariables clauses, s)

end ClauseLearning.Experiment
