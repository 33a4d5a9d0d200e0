import ClauseLearning.Logic.Formula
import ClauseLearning.Logic.Model
import ClauseLearning.Logic.NormalForm
import ClauseLearning.Search.ClauseStore
import ClauseLearning.Search.Options
import ClauseLearning.Search.Schedule
import ClauseLearning.Search.Statistics
import ClauseLearning.Search.Trail

/-!
The state of a search, how it starts from a formula, and the model that a complete assignment is.
The clauses of the formula are stored in normal form, without those that hold under every
valuation; a clause of one literal puts that literal into the queue of implied literals.
-/

namespace ClauseLearning

/-- All that a search knows, apart from how it picks decisions. -/
structure State where
  /-- How many variables the formula has. -/
  numVariables : Nat
  /-- Whether the formula has a clause without literals. -/
  hasEmptyClause : Bool
  /-- Literals that are to hold at level 0 and are not assigned yet. -/
  assumptions : List Literal
  /-- The assigned literals. -/
  trail : Trail
  /-- The clauses. -/
  store : ClauseStore
  /-- Implied literals that wait to be assigned, each with the clause that implied it. -/
  queue : List (Nat × Literal)
  /-- The restart schedule. -/
  schedule : Schedule
  /-- The counters. -/
  statistics : Statistics

namespace State

/-- The state without clauses. -/
def blank (numVariables : Nat) (o : Options) : State where
  numVariables := numVariables
  hasEmptyClause := false
  assumptions := []
  trail := .start numVariables
  store := .empty numVariables
  queue := []
  schedule := .start o.conflictsLimit o.lbdLimit o.growth
  statistics := {}

/-- The state with one more clause of the formula, given in normal form, where a tautology shows
at neighbors. -/
def addNormal (s : State) (clause : List Literal) : Except Fault State :=
  if hasOpposedNeighbors clause then .ok s
  else if clause = [] then .ok { s with hasEmptyClause := true }
  else match s.store.insert ⟨clause, .input⟩ with
    | .error fault => .error fault
    | .ok (index, store) =>
      let queue := match clause with
        | [only] => s.queue ++ [(index, only)]
        | _ => s.queue
      .ok { s with store := store, queue := queue }

/-- The state in which the search for a model of a formula starts. -/
def ofFormula (f : Formula) (o : Options) : Except Fault State :=
  f.clauses.foldlM (fun s clause => s.addNormal (normalForm clause)) (blank f.numVariables o)

/-- The current decision level. -/
def level (s : State) : Nat :=
  s.trail.level

/-- Whether every variable is assigned. -/
def complete (s : State) : Bool :=
  s.trail.size == s.numVariables

/-- The literals that the assignment makes true, by variable. -/
def trueLiterals (s : State) : List Literal :=
  (List.range s.numVariables).filterMap fun var =>
    (s.trail.assignment.find? var).map fun e => ⟨var, e.positive⟩

/-- The model that a complete assignment is. -/
def model (s : State) : Except Fault Model :=
  let literals := s.trueLiterals
  if literals.length = s.numVariables then .ok ⟨literals⟩ else .error .partialModel

end State

end ClauseLearning
