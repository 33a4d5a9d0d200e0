import ClauseLearning.Command.Report
import ClauseLearning.Dimacs.Reader
import ClauseLearning.Search.Solver

/-!
The command `sat`: decides the formula in a file and prints a model or that there is none,
followed by the statistics. The exit code is 10 for a model and 20 for none.
-/

namespace ClauseLearning.Command.Decide

/-- What the command is to do. -/
structure Request where
  /-- The file with the formula. -/
  input : String
  /-- The code of the heuristic. -/
  heuristic : Nat := 1
  /-- Conflicts before the first restart. -/
  conflictsLimit : Nat := 100
  /-- The first limit on the block distance of the clauses to keep. -/
  lbdLimit : Float := 3.0
  /-- Literals that are to hold. -/
  assumptions : List Int := []
  /-- The seed, if not the usual one. -/
  seed : Option Nat := none

/-- The command line of the command. -/
def grammar : Grammar where
  options := standardOptions ++
    [named "heuristic" byte?, named "conflicts_limit" word?, named "lbd_limit" real?,
      ⟨some "assumption", none, .many, fun value => (signedWord? value).isSome⟩,
      named "seed" word?]
  operands := 1

/-- The request that read arguments make. -/
def Request.ofArguments (a : Arguments) : Request where
  input := a.operands.headD ""
  heuristic := (a.named? "heuristic" byte?).getD 1
  conflictsLimit := (a.named? "conflicts_limit" word?).getD 100
  lbdLimit := (a.named? "lbd_limit" real?).getD 3.0
  assumptions := (a.values (·.long == some "assumption")).filterMap signedWord?
  seed := a.named? "seed" word?

/-- A line of the statistics. -/
def statisticsLine (label : String) (count : Nat) : String :=
  "c " ++ label ++ "".pushn ' ' (20 - label.length) ++ count.repr

/-- The lines that say what the search counted. -/
def statisticsLines (s : Statistics) : List String :=
  [statisticsLine "decisions:" s.decisions, statisticsLine "unit propagations:" s.unitPropagations,
    statisticsLine "conflicts:" s.conflicts, statisticsLine "restarts:" s.restarts,
    statisticsLine "learned clauses:" s.learnedClauses,
    statisticsLine "deleted clauses:" s.deletedClauses]

/-- The lines that say what the answer is. -/
def verdictLines : Verdict → List String
  | .unsat => ["s UNSATISFIABLE"]
  | .sat model =>
    ["s SATISFIABLE", "v" ++ String.join (model.literals.map fun l => " " ++ l.text) ++ " 0"]

/-- The report on an answer. -/
def answered (o : Outcome) : Report :=
  let lines := verdictLines o.verdict ++ statisticsLines o.statistics
  ⟨if o.verdict.isSat then 10 else 20, lines, none⟩

/-- Solves the formula in the file, given the bytes of the file if there is one. -/
def Request.solve (r : Request) (bytes : Option (List UInt8)) : Except Error Outcome :=
  match Heuristic.ofCode? r.heuristic with
  | none => .error (.unknownHeuristic r.heuristic)
  | some heuristic => do
    let defaults : Options := {}
    let options := { defaults with
      heuristic := heuristic
      conflictsLimit := r.conflictsLimit
      lbdLimit := r.lbdLimit
      seed := (r.seed.map Nat.toUInt64).getD defaults.seed }
    let document ← (Dimacs.ofFile bytes).mapError .unreadable
    ClauseLearning.solve document.formula options r.assumptions

/-- What the command reports, given the bytes of the file if there is one. -/
def Request.report (r : Request) (bytes : Option (List UInt8)) : Report :=
  match r.solve bytes with
  | .ok outcome => answered outcome
  | .error e => failed [] r.input e

/-- The request on a command line, or the report on one without a request. -/
def request (arguments : List String) : Except Report Request :=
  match grammar.read arguments with
  | .ok a => .ok (.ofArguments a)
  | .error refusal => .error (refusal.report "sat" "sat [OPTIONS] <INPUT>")

end ClauseLearning.Command.Decide
