import ClauseLearning.Logic.Formula

/-!
The pigeonhole formula: every pigeon sits in some hole, and no hole holds two pigeons. It is the
standard family of small formulas that are hard to refute.
-/

namespace ClauseLearning.Pigeonhole

/-- The literal saying that a pigeon sits in a hole. -/
def sits (holes pigeon hole : Nat) : Literal :=
  ⟨pigeon * holes + hole, true⟩

/-- One clause for each pigeon: it sits in one of the holes. -/
def placements (pigeons holes : Nat) : List (List Literal) :=
  (List.range pigeons).map fun pigeon => (List.range holes).map (sits holes pigeon)

/-- The pairs of different numbers below a bound, the smaller number first. -/
def pairs (n : Nat) : List (Nat × Nat) :=
  (List.range n).flatMap fun first =>
    (List.range' (first + 1) (n - (first + 1))).map fun second => (first, second)

/-- For each hole and each two pigeons, one clause: not both sit there. -/
def exclusions (pigeons holes : Nat) : List (List Literal) :=
  (List.range holes).flatMap fun hole =>
    (pairs pigeons).map fun (first, second) =>
      [(sits holes first hole).negate, (sits holes second hole).negate]

/-- The formula over one variable for each pigeon and hole. -/
def formula (pigeons holes : Nat) : Formula :=
  .ofClauses (pigeons * holes) (placements pigeons holes ++ exclusions pigeons holes)

end ClauseLearning.Pigeonhole
