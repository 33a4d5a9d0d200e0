import ClauseLearning.Branching.Heuristic
import ClauseLearning.Search.Phase
import ClauseLearning.Text.Decimal

/-!
What a search reports about itself. An event is a value, found by looking at a step from outside:
the phase and the choice that it started with and the state that it ended in. Its text is made
only when somebody asks for the log.
-/

namespace ClauseLearning

/-- How much detail an event is. -/
inductive Severity where
  /-- The frame of a search. -/
  | info
  /-- Its turning points. -/
  | debug
  /-- Its single steps. -/
  | trace
  deriving DecidableEq

namespace Severity

/-- The rank of a severity, higher for more detail. -/
def rank : Severity → Nat
  | info => 0
  | debug => 1
  | trace => 2

/-- The name of a severity in a log. -/
def name : Severity → String
  | info => "INFO"
  | debug => "DEBUG"
  | trace => "TRACE"

end Severity

/-- Something that happened in a search. -/
inductive Event where
  /-- The search began. -/
  | started (numVariables numClauses : Nat) (heuristic : Heuristic)
  /-- The formula has a clause without literals. -/
  | emptyClause
  /-- An assumption is the negation of an earlier one. -/
  | contradicted (assumption : Literal)
  /-- An assumption falsifies a clause. -/
  | refuted (assumption : Literal) (index : Nat)
  /-- A decision was made. -/
  | decided (l : Literal) (level : Nat)
  /-- A clause was learned. -/
  | learned (l : Learned)
  /-- The search started over. -/
  | restarted (count deleted remaining conflictsLimit : Nat) (lbdLimit : Float)
  /-- A clause was falsified without any decision. -/
  | rootConflict
  /-- The search ended. -/
  | ended (satisfiable : Bool) (statistics : Statistics)

namespace Event

/-- The detail of an event. -/
def severity : Event → Severity
  | started .. | ended .. => .info
  | emptyClause | contradicted .. | refuted .. | restarted .. | rootConflict => .debug
  | decided .. | learned .. => .trace

/-- The texts of literals in brackets. -/
def bracketed (literals : List Literal) : String :=
  "[" ++ ", ".intercalate (literals.map Literal.text) ++ "]"

/-- The text of an event. -/
def message : Event → String
  | started numVariables numClauses heuristic =>
    let name := heuristic.name
    s!"solving {numVariables} variables, {numClauses} clauses with {name}"
  | emptyClause => "the formula contains an empty clause"
  | contradicted assumption =>
    let literal := assumption.text
    s!"assumption {literal} contradicts an earlier one"
  | refuted assumption index =>
    let literal := assumption.text
    s!"assumption {literal} falsifies clause {index}"
  | decided l level =>
    let literal := l.text
    s!"decide {literal} at level {level}"
  | learned l =>
    let literals := bracketed l.literals
    let lbd := l.blockDistance
    let level := l.returnLevel
    s!"learned {literals} with lbd {lbd}, asserting at level {level}"
  | restarted count deleted remaining conflictsLimit lbdLimit =>
    let limit := Text.fixed 2 lbdLimit
    s!"restart {count}: deleted {deleted} learned clauses, {remaining} remain, " ++
      s!"next after {conflictsLimit} conflicts with lbd limit {limit}"
  | rootConflict => "conflict at level 0"
  | ended satisfiable statistics =>
    let answer := if satisfiable then "SAT" else "UNSAT"
    let decisions := statistics.decisions
    let conflicts := statistics.conflicts
    let restarts := statistics.restarts
    s!"{answer} after {decisions} decisions, {conflicts} conflicts, {restarts} restarts"

/-- The line of an event in a log. -/
def line (e : Event) : String :=
  e.severity.name ++ " " ++ e.message

/-- The lines of a log that shows events up to a given detail. -/
def log (detail : Severity) (events : List Event) : List String :=
  (events.filter fun e => e.severity.rank ≤ detail.rank).map line

/-- The restart that led to a state, given how many clauses had been deleted before it. -/
def ofRestart (deletedBefore : Nat) (s : State) : Event :=
  .restarted s.statistics.restarts (s.statistics.deletedClauses - deletedBefore)
    s.store.learned.length s.schedule.conflictsLimit s.schedule.lbdLimit

/-- The events of a step from one phase to the next that ended in a state. -/
def ofStep (choice : Option Literal) (phase : Phase) (deletedBefore : Nat) (next : Phase)
    (s : State) : List Event :=
  match phase, choice, next with
  | .deciding, some l, _ => [.decided l s.level]
  | .analyzing _, _, .unsatisfiable => [.rootConflict]
  | .backjumping l, _, _ => [.learned l]
  | .restarting l, _, _ => [.learned l, ofRestart deletedBefore s]
  | _, _, _ => []

/-- The events of assigning the assumptions. -/
def ofAssumed : State.Assumed → List Event
  | .held => []
  | .contradicts l => [.contradicted l]
  | .falsifies l index => [.refuted l index]

end Event

end ClauseLearning
