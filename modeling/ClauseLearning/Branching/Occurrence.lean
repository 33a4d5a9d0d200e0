import ClauseLearning.Search.Assignment
import ClauseLearning.Search.ClauseStore

/-!
Heuristics that look at how often variables occur in clauses: by counting the occurrences in
unsatisfied clauses, and by summing weights that halve with every literal of a clause. Of equals
the first wins.
-/

namespace ClauseLearning

/-- The first element of a list that no element exceeds in `rank`. -/
def firstMaximum (atMost : β → β → Bool) (rank : α → β) : List α → Option α
  | [] => none
  | x :: rest =>
    match firstMaximum atMost rank rest with
    | none => some x
    | some y => if atMost (rank y) (rank x) then some x else some y

namespace Occurrence

/-- Adds one to the count of every unassigned literal of a clause. -/
def countClause (a : Assignment) (counts : Array Nat) (c : Clause) : Array Nat :=
  c.literals.foldl (fun counts l =>
    if a.assigns l.var then counts else counts.modify l.code (· + 1)) counts

/-- How often each unassigned literal occurs in the clauses, by literal code. -/
def counts (a : Assignment) (clauses : List Clause) : Array Nat :=
  clauses.foldl (countClause a) (Array.replicate (2 * a.numVariables) 0)

/-- The clauses that count: those with the property that are not satisfied. -/
def relevant (a : Assignment) (counted : Clause → Bool) (store : ClauseStore) : List Clause :=
  store.clauses.filter fun c => counted c && c.value? a.value? ≠ some true

/-- The unassigned literal with the most occurrences in unsatisfied clauses that have the
property, the one of smallest code among equals; none if no such clause has an unassigned
literal. -/
def commonest? (a : Assignment) (counted : Clause → Bool) (store : ClauseStore) :
    Option Literal :=
  let counts := counts a (relevant a counted store)
  let codes := (List.range counts.size).filter fun code => 0 < counts.getD code 0
  (firstMaximum (· ≤ ·) (counts.getD · 0) codes).map Literal.ofCode

/-- Two to the minus length, by halving once for each literal. -/
def weight (c : Clause) : Float :=
  c.literals.foldl (fun w _ => w * 0.5) 1.0

/-- Adds the weight of a clause to the score of each of its literals. -/
def weighClause (scores : Array Float) (c : Clause) : Array Float :=
  let w := weight c
  c.literals.foldl (fun scores l => scores.modify l.code (· + w)) scores

/-- The sum of weights of each literal, by literal code. -/
def weights (a : Assignment) (clauses : List Clause) : Array Float :=
  clauses.foldl weighClause (Array.replicate (2 * a.numVariables) 0.0)

/-- The free variable of the largest sum of weights over both polarities, the first among equals,
with the heavier polarity, the positive one among equals. -/
def heaviest? (a : Assignment) (store : ClauseStore) : Option Literal :=
  let weights := weights a store.clauses
  let weightOf (var : Nat) (positive : Bool) := weights.getD (Literal.code ⟨var, positive⟩) 0.0
  let best := firstMaximum (fun x y : Float => y.isNaN || x ≤ y)
    (fun var => weightOf var true + weightOf var false) a.free
  best.map fun var => ⟨var, weightOf var false ≤ weightOf var true⟩

end Occurrence

end ClauseLearning
