/-!
The answer of assigning literals: everything is in order, or a clause is falsified.
-/

namespace ClauseLearning

/-- Whether assigning literals ran into a falsified clause. -/
inductive Status where
  /-- No falsified clause was met. -/
  | consistent
  /-- All literals of the clause at this index are false. -/
  | conflict (index : Nat)
  deriving DecidableEq

end ClauseLearning
