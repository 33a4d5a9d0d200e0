import ClauseLearning.Text.Integer

/-!
What can be wrong with a formula in DIMACS form, and how it is said. Lines are counted from 1.
-/

namespace ClauseLearning.Dimacs

/-- Why a text is not a formula. -/
inductive ParseError where
  /-- A clause comes before the header. -/
  | missingHeader (line : Nat)
  /-- A line that starts like a header is not one. -/
  | malformedHeader (line : Nat)
  /-- A second header follows the first. -/
  | duplicateHeader (line : Nat)
  /-- A word in a clause is not a number. -/
  | invalidLiteral (line : Nat) (token : String)
  /-- A number in a clause is beyond the declared variables. -/
  | variableOutOfRange (line : Nat) (literal : Int) (declared : Nat)
  /-- A line ends inside a clause. -/
  | unterminatedClause (line : Nat)
  /-- The text has no header. -/
  | noHeader
  deriving DecidableEq

/-- The message that names the fault and where it is. -/
def ParseError.message : ParseError → String
  | missingHeader line => s!"line {line}: clause appears before the `p cnf` header"
  | malformedHeader line => s!"line {line}: expected `p cnf <variables> <clauses>`"
  | duplicateHeader line => s!"line {line}: second `p cnf` header"
  | invalidLiteral line token => s!"line {line}: `{token}` is not a literal"
  | variableOutOfRange line literal declared =>
    let number := Text.integer literal
    s!"line {line}: literal {number} is outside the {declared} declared variables"
  | unterminatedClause line => s!"line {line}: clause is not terminated by 0"
  | noHeader => "no `p cnf` header found"

/-- Why a file gives no formula. -/
inductive ReadError where
  /-- There is no such file. -/
  | notFound
  /-- The file is not UTF-8 text. -/
  | invalidEncoding
  /-- The text of the file is not a formula. -/
  | malformed (cause : ParseError)
  deriving DecidableEq

end ClauseLearning.Dimacs
