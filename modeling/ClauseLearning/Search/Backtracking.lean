import ClauseLearning.Search.Learning
import ClauseLearning.Search.State

/-!
Answering a conflict: the learned clause is stored, and the search goes back to an earlier level
or, when a restart is due, to level 0. A restart deletes learned clauses that span many levels; a
fact whose clause is deleted stays a fact and loses its antecedent.
-/

namespace ClauseLearning.State

/-- Stores a learned clause and gives its index. -/
def learn (s : State) (l : Learned) : Except Fault (Nat × State) :=
  match s.store.insert l.clause with
  | .error fault => .error fault
  | .ok (index, store) =>
    let statistics := { s.statistics with learnedClauses := s.statistics.learnedClauses + 1 }
    .ok (index, { s with store := store, statistics := statistics })

/-- Goes back to a level and forgets what waited. -/
def backtrack (s : State) (level : Nat) : State :=
  { s with trail := s.trail.backTo level, queue := [] }

/-- Puts an implied literal at the end of the queue. -/
def enqueue (s : State) (index : Nat) (l : Literal) : State :=
  { s with queue := s.queue ++ [(index, l)] }

/-- Goes back to level 0, deletes the learned clauses beyond the limit and relaxes the schedule. -/
def restart (s : State) : State :=
  let s := s.backtrack 0
  let (deleted, store) := s.store.prune fun c => s.schedule.keeps c.blockDistance
  { s with
    trail := s.trail.forget deleted
    store := store
    schedule := s.schedule.relax
    statistics := { s.statistics with
      restarts := s.statistics.restarts + 1
      deletedClauses := s.statistics.deletedClauses + deleted.length } }

end ClauseLearning.State
