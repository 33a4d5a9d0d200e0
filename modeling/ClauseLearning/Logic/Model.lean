import ClauseLearning.Logic.Formula

/-!
Models as a search gives them: one literal for each variable, in the order of the variables.
-/

namespace ClauseLearning

/-- A total assignment, written as the literals that it makes true. -/
structure Model where
  /-- The literal of each variable, in order. -/
  literals : List Literal
  deriving DecidableEq

namespace Model

/-- The value of a variable, if the model has it. -/
def value? (m : Model) (var : Nat) : Option Bool :=
  m.literals[var]?.map Literal.positive

/-- Whether a literal is one of the model's. -/
def contains (m : Model) (l : Literal) : Bool :=
  m.literals[l.var]? == some l

/-- Whether every clause of a formula has a literal in the model. -/
def satisfies (m : Model) (f : Formula) : Bool :=
  f.clauses.all fun clause => clause.any m.contains

/-- The literals with blanks between them. -/
def text (m : Model) : String :=
  " ".intercalate (m.literals.map Literal.text)

end Model

end ClauseLearning
