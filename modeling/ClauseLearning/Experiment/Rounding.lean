/-!
Floating-point numbers rounded to natural numbers. Negative numbers and what is not a number give
0, and numbers beyond a machine word its largest value.
-/

namespace ClauseLearning.Experiment

/-- The number rounded up. -/
def roundUp (x : Float) : Nat :=
  let floor := x.toUInt64.toNat
  if Float.ofNat floor < x then floor + 1 else floor

/-- The number rounded to the nearest integer, a half rounded up. -/
def roundNearest (x : Float) : Nat :=
  let floor := x.toUInt64.toNat
  if 0.5 ≤ x - Float.ofNat floor then floor + 1 else floor

end ClauseLearning.Experiment
