import ClauseLearning.Search.Backtracking
import ClauseLearning.Search.Propagation

/-!
The search as a machine: a phase says what is to be done next, and `State.advance` does it. The
only choice left open is the literal to decide on, so that what holds for every choice holds for
every branching heuristic.
-/

namespace ClauseLearning

/-- What a search does next. -/
inductive Phase where
  /-- Assign the waiting literals. -/
  | propagating
  /-- Make a decision. -/
  | deciding
  /-- Learn from a falsified clause. -/
  | analyzing (index : Nat)
  /-- Go back to the level of a learned clause. -/
  | backjumping (l : Learned)
  /-- Keep a learned clause and start over. -/
  | restarting (l : Learned)
  /-- Stop: the assignment is a model. -/
  | satisfied
  /-- Stop: there is no model. -/
  | unsatisfiable
  deriving DecidableEq

namespace State

/-- The state with one more conflict in the statistics. -/
def countConflict (s : State) : State :=
  { s with statistics := { s.statistics with conflicts := s.statistics.conflicts + 1 } }

/-- The phase after literals were assigned; a falsified clause is a conflict. -/
def afterAssigning (next : State → Phase) : Status × State → Phase × State
  | (.conflict index, s) => (.analyzing index, s.countConflict)
  | (.consistent, s) => (next s, s)

/-- Learns from the falsified clause at an index; at level 0 there is nothing left to try. -/
def analyzeConflict (s : State) (index : Nat) : Except Fault (Phase × State) :=
  match analyze s.store s.trail index with
  | .error fault => .error fault
  | .ok none => .ok (.unsatisfiable, s)
  | .ok (some l) =>
    let (due, schedule) := s.schedule.countConflict
    .ok (if due then .restarting l else .backjumping l, { s with schedule := schedule })

/-- Goes back, stores the learned clause and queues its asserting literal. -/
def backjump (s : State) (l : Learned) : Except Fault (Phase × State) :=
  let count := s.statistics.backjumps + 1
  let s := { s with statistics := { s.statistics with backjumps := count } }
  match (s.backtrack l.returnLevel).learn l with
  | .error fault => .error fault
  | .ok (index, s) => .ok (.propagating, s.enqueue index l.asserting)

/-- Stores the learned clause and restarts. A fact among the learned clauses is queued again. -/
def startOver (s : State) (l : Learned) : Except Fault (Phase × State) :=
  match s.learn l with
  | .error fault => .error fault
  | .ok (index, s) =>
    let s := s.restart
    if l.returnLevel = 0 ∧ (s.store.clause? index).isSome then
      .ok (.propagating, s.enqueue index l.asserting)
    else .ok (.propagating, s)

/-- One step of the search; `choice` is the decision if one is to be made. -/
def advance (choice : Option Literal) : Phase → State → Except Fault (Phase × State)
  | .propagating, s =>
    s.propagate.map (afterAssigning fun s => if s.complete then .satisfied else .deciding)
  | .deciding, s =>
    match choice with
    | none => .ok (.satisfied, s)
    | some l => (s.decide l).map (afterAssigning fun _ => .propagating)
  | .analyzing index, s => s.analyzeConflict index
  | .backjumping l, s => s.backjump l
  | .restarting l, s => s.startOver l
  | .satisfied, s => .ok (.satisfied, s)
  | .unsatisfiable, s => .ok (.unsatisfiable, s)

end State

end ClauseLearning
