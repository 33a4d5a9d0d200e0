import ClauseLearning.Dimacs.Error
import ClauseLearning.Logic.Formula
import ClauseLearning.Text.Blank
import ClauseLearning.Text.Lines

/-!
Reading formulas in DIMACS form. A line is classified by its first character after white space is
cut off; the first line that is neither empty nor a comment is the header, and the lines after it
hold clauses, each ended by a zero and none running over its line. A line starting with a percent
sign ends the formula. The number of clauses in the header binds nobody: a different number of
clauses only earns a warning.
-/

namespace ClauseLearning.Dimacs

/-- A line of a formula, by its role. -/
inductive Line where
  /-- An empty line or a comment. -/
  | skipped
  /-- The mark after which nothing is read. -/
  | finish
  /-- A line that starts like a header, as its words. -/
  | header (words : List (List Char))
  /-- Any other line, as its words. -/
  | clauses (words : List (List Char))

/-- The role of a line. -/
def Line.ofText (text : List Char) : Line :=
  match Text.trim text with
  | [] => .skipped
  | 'c' :: _ => .skipped
  | '%' :: _ => .finish
  | 'p' :: rest => .header (Text.words ('p' :: rest))
  | other => .clauses (Text.words other)

/-- What a header declares. -/
structure Header where
  /-- The number of variables. -/
  numVariables : Nat
  /-- The number of clauses. -/
  numClauses : Nat
  deriving DecidableEq

/-- The header written as these words, if it is one. -/
def Header.ofWords? : List (List Char) → Option Header
  | [p, cnf, vars, clauses] =>
    if p = ['p'] ∧ cnf = ['c', 'n', 'f'] then do
      let numVariables ← (Text.unsigned? vars).filter (· < Literal.variableLimit)
      let numClauses ← Text.unsigned? clauses
      return ⟨numVariables, numClauses⟩
    else none
  | _ => none

/-- The number that a word of a clause line stands for; its magnitude is a declared variable or
zero. -/
def number (line declared : Nat) (word : List Char) : Except ParseError Int :=
  match Text.signed? word with
  | none => .error (.invalidLiteral line (String.ofList word))
  | some x =>
    if declared < x.natAbs then .error (.variableOutOfRange line x declared) else .ok x

/-- The clauses that zeros cut a list of numbers into, and the numbers after the last zero. -/
def cutAtZeros : List Int → List (List Int) × List Int
  | [] => ([], [])
  | x :: rest =>
    match cutAtZeros rest with
    | (clauses, unfinished) =>
      if x = 0 then ([] :: clauses, unfinished)
      else match clauses with
        | [] => ([], x :: unfinished)
        | clause :: more => ((x :: clause) :: more, unfinished)

/-- The literal that a non-zero number stands for. -/
def literalOf (x : Int) : Literal :=
  ⟨x.natAbs - 1, 0 < x⟩

/-- The clauses on one line. -/
def clausesOnLine (line declared : Nat) (words : List (List Char)) :
    Except ParseError (List (List Literal)) := do
  let numbers ← words.mapM (number line declared)
  match cutAtZeros numbers with
  | (clauses, []) => return clauses.map (·.map literalOf)
  | (_, _ :: _) => throw (.unterminatedClause line)

/-- The clauses on the lines after the header; `line` is the number of the first of them. -/
def clausesFrom (declared : Nat) (line : Nat) :
    List (List Char) → Except ParseError (List (List Literal))
  | [] => .ok []
  | text :: rest =>
    match Line.ofText text with
    | .skipped => clausesFrom declared (line + 1) rest
    | .finish => .ok []
    | .header _ => .error (.duplicateHeader line)
    | .clauses words => do
      let here ← clausesOnLine line declared words
      let later ← clausesFrom declared (line + 1) rest
      return here ++ later

/-- A formula as it was read, with what its header promised. -/
structure Document where
  /-- The formula. -/
  formula : Formula
  /-- The number of clauses in the header. -/
  declaredClauses : Nat
  deriving DecidableEq

/-- Reads lines up to the header, then the clauses; `line` is the number of the first line. -/
def documentFrom (line : Nat) : List (List Char) → Except ParseError Document
  | [] => .error .noHeader
  | text :: rest =>
    match Line.ofText text with
    | .skipped => documentFrom (line + 1) rest
    | .finish => .error .noHeader
    | .header words =>
      match Header.ofWords? words with
      | none => .error (.malformedHeader line)
      | some header => do
        let clauses ← clausesFrom header.numVariables (line + 1) rest
        return ⟨.ofClauses header.numVariables clauses, header.numClauses⟩
    | .clauses _ => .error (.missingHeader line)

/-- Reads a formula from its lines. -/
def ofLines (lines : List String) : Except ParseError Document :=
  documentFrom 1 (lines.map String.toList)

/-- Reads a formula from a text. -/
def ofText (text : String) : Except ParseError Document :=
  ofLines (Text.lines text)

/-- Reads a formula from the bytes of a file. All of it has to be UTF-8, also what no formula
needs. -/
def ofBytes (bytes : List UInt8) : Except ReadError Document :=
  match Text.decodedLines? bytes with
  | none => .error .invalidEncoding
  | some lines => (ofLines lines).mapError .malformed

/-- Reads a formula from a file, given its bytes if there is such a file. -/
def ofFile : Option (List UInt8) → Except ReadError Document
  | none => .error .notFound
  | some bytes => ofBytes bytes

/-- The remark on a header that declares another number of clauses than there are. -/
def Document.warning? (d : Document) : Option String :=
  let declared := d.declaredClauses
  let read := d.formula.clauses.length
  if declared = read then none
  else some s!"header declares {declared} clauses but {read} were read"

end ClauseLearning.Dimacs
