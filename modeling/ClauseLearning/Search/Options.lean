import ClauseLearning.Branching.Heuristic

/-!
The options of a search and the conditions on them.
-/

namespace ClauseLearning

/-- How a formula is to be solved. -/
structure Options where
  /-- The branching heuristic. -/
  heuristic : Heuristic := .vsids
  /-- Conflicts before the first restart. -/
  conflictsLimit : Nat := 100
  /-- The largest block distance with which a learned clause outlives a restart. -/
  lbdLimit : Float := 3.0
  /-- The factor on both limits after every restart. -/
  growth : Float := 1.1
  /-- The factor that a conflict puts on older activity. -/
  decay : Float := 0.9
  /-- The seed of the random choices. -/
  seed : UInt64 := 91648253

/-- A condition on the parameters of a run that does not hold. -/
inductive OptionProblem where
  /-- No conflict is allowed before a restart. -/
  | conflictsLimit
  /-- Learned clauses of one block would not outlive a restart. -/
  | lbdLimit
  /-- The limits would not grow. -/
  | growth
  /-- The decay is no factor in (0, 1]. -/
  | decay
  /-- An experiment without samples. -/
  | noSamples
  /-- An experiment at a ratio below zero, or at none. -/
  | negativeRatio (ratio : Float)
  /-- A sweep that does not advance. -/
  | interval

/-- The first condition that the options break. -/
def Options.problem? (o : Options) : Option OptionProblem :=
  if o.conflictsLimit = 0 then some .conflictsLimit
  else if ¬ 1.0 ≤ o.lbdLimit then some .lbdLimit
  else if ¬ 1.0 < o.growth then some .growth
  else if ¬ (0.0 < o.decay ∧ o.decay ≤ 1.0) then some .decay
  else none

/-- Options that break no condition. -/
def Options.Valid (o : Options) : Prop :=
  o.problem? = none

instance (o : Options) : Decidable o.Valid :=
  decidable_of_iff (o.problem?.isNone) (by simp [Options.Valid])

end ClauseLearning
