import ClauseLearning.Logic.Formula

/-!
Writing formulas in DIMACS form: the header with both counts, then one clause a line, its literals
followed by a zero.
-/

namespace ClauseLearning.Dimacs

/-- The line of a clause, with its line feed. -/
def clauseLine (clause : List Literal) : String :=
  String.join (clause.map fun l => l.text ++ " ") ++ "0\n"

/-- The text of a formula. -/
def write (f : Formula) : String :=
  "p cnf " ++ f.numVariables.repr ++ " " ++ f.clauses.length.repr ++ "\n"
    ++ String.join (f.clauses.map clauseLine)

end ClauseLearning.Dimacs
