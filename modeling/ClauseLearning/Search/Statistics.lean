/-!
What a search counts.
-/

namespace ClauseLearning

/-- The events of a search by number. -/
structure Statistics where
  /-- Decisions made. -/
  decisions : Nat := 0
  /-- Literals assigned because a clause implied them. -/
  unitPropagations : Nat := 0
  /-- Conflicts met. -/
  conflicts : Nat := 0
  /-- Conflicts answered by going back to an earlier level. -/
  backjumps : Nat := 0
  /-- Conflicts answered by a restart. -/
  restarts : Nat := 0
  /-- Clauses learned. -/
  learnedClauses : Nat := 0
  /-- Learned clauses deleted. -/
  deletedClauses : Nat := 0
  deriving DecidableEq

end ClauseLearning
