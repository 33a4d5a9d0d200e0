import ClauseLearning.Logic.Literal

/-!
What could go wrong inside a search if its data structures disagreed with each other. A search
that meets such a disagreement stops with the fault instead of going on with wrong data.
-/

namespace ClauseLearning

/-- A broken expectation of the search on its own state. -/
inductive Fault where
  /-- The clause at this index was deleted. -/
  | deletedClause (index : Nat)
  /-- No clause was ever stored at this index. -/
  | unknownClause (index : Nat)
  /-- A clause without literals was to be stored. -/
  | emptyClause
  /-- A clause was to watch a literal that it watches already. -/
  | watchedTwice (index : Nat) (literal : Literal)
  /-- A clause is listed under a literal that it does not watch. -/
  | notWatched (index : Nat) (literal : Literal)
  /-- A literal over no variable of the formula was to be assigned. -/
  | undeclared (literal : Literal)
  /-- An assigned variable was to be assigned again. -/
  | reassigned (literal : Literal)
  /-- A clause that conflict analysis works with has a literal that is not false. -/
  | notFalsified (literal : Literal)
  /-- No literal of the conflict clause was assigned at the conflict level. -/
  | staleConflict (index : Nat)
  /-- Conflict analysis reached a literal that no clause implied. -/
  | unexplained (literal : Literal)
  /-- The clause recorded as implying a literal does not contain it. -/
  | notImplied (index : Nat) (literal : Literal)
  /-- Conflict analysis ended without a unique literal of the conflict level. -/
  | notAsserting
  /-- A model does not assign every variable. -/
  | partialModel
  /-- The search took more steps than any search can. -/
  | exhausted
  deriving DecidableEq

/-- What is wrong, for a report. -/
def Fault.message : Fault → String
  | deletedClause index => s!"clause {index} was deleted"
  | unknownClause index => s!"clause {index} was never stored"
  | emptyClause => "a clause without literals cannot be stored"
  | watchedTwice index literal =>
    let name := literal.text
    s!"clause {index} watches {name} already"
  | notWatched index literal =>
    let name := literal.text
    s!"clause {index} does not watch {name}"
  | undeclared literal =>
    let name := literal.text
    s!"literal {name} is over no variable of the formula"
  | reassigned literal =>
    let name := literal.text
    s!"the variable of {name} is assigned already"
  | notFalsified literal =>
    let name := literal.text
    s!"literal {name} of a conflict is not false"
  | staleConflict index => s!"clause {index} has no literal of the conflict level"
  | unexplained literal =>
    let name := literal.text
    s!"no clause implied {name}"
  | notImplied index literal =>
    let name := literal.text
    s!"clause {index} does not imply {name}"
  | notAsserting => "a conflict has no unique implication point"
  | partialModel => "a model leaves a variable open"
  | exhausted => "the search does not end"

end ClauseLearning
