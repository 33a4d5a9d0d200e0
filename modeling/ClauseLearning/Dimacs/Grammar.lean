import ClauseLearning.Dimacs.Error
import ClauseLearning.Logic.Literal
import ClauseLearning.Text.Forms
import Mathlib.Data.List.Forall2

/-!
The grammar of formulas in DIMACS form, with no regard to how a formula is read: which lines
count, the numbers that a header and clause lines after it have, and what is wrong with lines
that are not of this form.
-/

namespace ClauseLearning.Dimacs

/-- The lines that count, trimmed and with their numbers, if the first line has the given number:
neither empty lines nor comments, and none from the first line on that starts with a percent
sign. -/
def significantFrom (line : Nat) (lines : List (List Char)) : List (List Char × Nat) :=
  (((lines.map Text.trim).zipIdx line).takeWhile (·.1.head? ≠ some '%')).filter fun (text, _) =>
    text ≠ [] ∧ text.head? ≠ some 'c'

/-- The lines that count, trimmed and with their numbers. -/
def significant (lines : List String) : List (List Char × Nat) :=
  significantFrom 1 (lines.map String.toList)

/-- A header that declares so many variables and so many clauses: four words, the last two of
them numbers. Only the number of variables has a limit of its own. -/
inductive HeaderLine : List Char → Nat → Nat → Prop where
  | mk (spaced : Text.Spaced text [['p'], ['c', 'n', 'f'], vars, clauses])
      (declared : Text.UnsignedText vars n) (limited : n < Literal.variableLimit)
      (promised : Text.UnsignedText clauses m) : HeaderLine text n m

/-- A word of a clause line with its number; the magnitude is a declared variable or zero. -/
def Entry (declared : Nat) (word : List Char) (x : Int) : Prop :=
  Text.SignedText word x ∧ x.natAbs ≤ declared

/-- A line of clauses with its numbers, the last of which is zero. -/
inductive ClauseLine (declared : Nat) : List Char → List Int → Prop where
  | mk (unlike : text.head? ≠ some 'p') (spaced : Text.Spaced text ws)
      (entries : List.Forall₂ (Entry declared) ws numbers) (ended : numbers.getLast? = some 0) :
      ClauseLine declared text numbers

/-- A formula in DIMACS form, with what its header declares and the numbers of each clause
line. -/
inductive Grammatical (lines : List String) : Nat → Nat → List (List Int) → Prop where
  | mk (first : significant lines = header :: later) (heads : HeaderLine header.1 n m)
      (rest : List.Forall₂ (fun line => ClauseLine n line.1) later numbers) :
      Grammatical lines n m numbers

/-- The numbers of a clause line split at the zeros. Nothing follows the last zero. -/
def clauseNumbers (numbers : List Int) : List (List Int) :=
  (numbers.splitOn 0).dropLast

/-- What is wrong with a line after the header. A header is refused in any shape. In a clause
line the leftmost word that is no entry is at fault, or the end if all words are entries. -/
inductive LineFault (declared : Nat) : List Char × Nat → ParseError → Prop where
  | header (like : text.head? = some 'p') : LineFault declared (text, line) (.duplicateHeader line)
  | word (unlike : text.head? ≠ some 'p') (spaced : Text.Spaced text (before ++ word :: after))
      (entries : ∀ w ∈ before, ∃ x, Entry declared w x) (noNumber : ∀ x, ¬ Text.SignedText word x) :
      LineFault declared (text, line) (.invalidLiteral line (String.ofList word))
  | range (unlike : text.head? ≠ some 'p') (spaced : Text.Spaced text (before ++ word :: after))
      (entries : ∀ w ∈ before, ∃ x, Entry declared w x) (number : Text.SignedText word x)
      (undeclared : declared < x.natAbs) :
      LineFault declared (text, line) (.variableOutOfRange line x declared)
  | unended (unlike : text.head? ≠ some 'p') (spaced : Text.Spaced text ws)
      (entries : List.Forall₂ (Entry declared) ws numbers) (unended : numbers.getLast? ≠ some 0) :
      LineFault declared (text, line) (.unterminatedClause line)

/-- What is wrong with the first line that breaks the grammar. -/
inductive FirstFault (lines : List String) : ParseError → Prop where
  | noHeader (none : significant lines = []) : FirstFault lines .noHeader
  | missingHeader (first : significant lines = (text, line) :: later)
      (unlike : text.head? ≠ some 'p') : FirstFault lines (.missingHeader line)
  | malformedHeader (first : significant lines = (text, line) :: later)
      (like : text.head? = some 'p') (headless : ∀ n m, ¬ HeaderLine text n m) :
      FirstFault lines (.malformedHeader line)
  | later (first : significant lines = header :: before ++ line :: after)
      (heads : HeaderLine header.1 n m)
      (rest : ∀ earlier ∈ before, ∃ numbers, ClauseLine n earlier.1 numbers)
      (fault : LineFault n line e) : FirstFault lines e

end ClauseLearning.Dimacs
