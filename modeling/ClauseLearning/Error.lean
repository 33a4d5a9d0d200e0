import ClauseLearning.Dimacs.Error
import ClauseLearning.Search.Fault
import ClauseLearning.Search.Options
import ClauseLearning.Text.Decimal

/-!
The errors that solving and generating formulas can end with, and their messages.
-/

namespace ClauseLearning

/-- Why a request was refused. -/
inductive Error where
  /-- The formula could not be read. -/
  | unreadable (cause : Dimacs.ReadError)
  /-- No heuristic has this code. -/
  | unknownHeuristic (code : Nat)
  /-- The options break a condition. -/
  | invalidOptions (problem : OptionProblem)
  /-- An assumption is no literal over the variables of the formula. -/
  | invalidAssumption (number : Int)
  /-- There are no clauses with so many distinct variables. -/
  | invalidGenerator (k numVariables : Nat)
  /-- The search found its own state to be inconsistent. -/
  | broken (fault : Fault)

/-- What a broken condition asks for. -/
def OptionProblem.message : OptionProblem → String
  | conflictsLimit => "conflicts_limit must be at least 1"
  | lbdLimit => "lbd_limit must be at least 1"
  | growth => "growth must be greater than 1"
  | decay => "vsids_decay must be in (0, 1]"
  | noSamples => "at least one sample is needed"
  | negativeRatio ratio => "ratio " ++ Text.shortest ratio ++ " is negative"
  | interval => "rinterval must be positive"

/-- The message of an error; the one of a file that cannot be read names the file. -/
def Error.message (file : String) : Error → String
  | unreadable (.malformed cause) => cause.message
  | unreadable _ => s!"failed to read {file}"
  | unknownHeuristic code => s!"unknown heuristic {code}, expected a code from 0 to 4"
  | invalidOptions problem =>
    let condition := problem.message
    s!"invalid solver options: {condition}"
  | invalidAssumption number =>
    let literal := Text.integer number
    s!"assumption {literal} does not name a variable of the formula"
  | invalidGenerator k numVariables =>
    s!"cannot draw clauses of {k} distinct literals over {numVariables} variables"
  | broken fault => fault.message

end ClauseLearning
