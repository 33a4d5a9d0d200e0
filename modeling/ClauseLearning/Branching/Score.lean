/-!
The arithmetic of activity scores. Activity only adds, divides and compares, so it is defined for
any scores that can do this; searches use floating-point numbers, ordered as a whole by putting
what is not a number above everything else.
-/

namespace ClauseLearning

/-- What activity needs of its scores. -/
class Score (S : Type) where
  /-- The score of a literal that was never rewarded. -/
  zero : S
  /-- The first reward. -/
  one : S
  /-- Adds a reward. -/
  add : S → S → S
  /-- Divides a score. -/
  div : S → S → S
  /-- Whether a score is no larger than another. -/
  atMost : S → S → Bool
  /-- Rewards beyond this are scaled down, and all scores with them. -/
  rescaling : S
  /-- Whether a reward is beyond the bound. -/
  needsRescaling : S → Bool

/-- Floating-point scores. Whether a reward is beyond the bound is the plain comparison, which is
false of what is not a number. -/
instance : Score Float where
  zero := 0.0
  one := 1.0
  add := (· + ·)
  div := (· / ·)
  atMost a b := b.isNaN || a ≤ b
  rescaling := 1e100
  needsRescaling x := 1e100 < x

end ClauseLearning
