import ClauseLearning.Branching.Score
import ClauseLearning.Search.Assignment

/-!
Activity of literals: every literal of a learned clause is rewarded, and older rewards count less.
Instead of shrinking all scores at every conflict, the rewards grow. The literals are kept in
increasing order of score, and a rewarded literal moves up past every literal that it now
outscores or ties. Where each literal stands is kept beside the order.
-/

namespace ClauseLearning

/-- The scores of all literals, and the literals in order of score. -/
structure Activity (S : Type) where
  /-- The score of each literal, by its code. -/
  scores : Array S
  /-- Where each literal stands in the order, by its code. -/
  positions : Array Nat
  /-- All literals, in increasing order of score. -/
  order : Array Literal
  /-- The next reward. -/
  increment : S
  /-- What one conflict does to the worth of older rewards. -/
  decay : S

namespace Activity

variable {S : Type} [Score S]

/-- The score with a given literal code. -/
def scoreAt (scores : Array S) (l : Literal) : S :=
  scores.getD l.code Score.zero

/-- Whether the score of one literal is no larger than that of another. -/
def atMost (scores : Array S) (l other : Literal) : Bool :=
  Score.atMost (scoreAt scores l) (scoreAt scores other)

/-- Notes the places of the listed literals, the first of which has the given one. -/
def notePlaces (order : List Literal) (first : Nat) (positions : Array Nat) : Array Nat :=
  (order.zipIdx first).foldl (fun positions (l, i) => positions.setIfInBounds l.code i) positions

/-- The activity with the given scores. Literals of one score are in the order of their codes. -/
def ofScores (scores : Array S) (decay : S) : Activity S :=
  let order := ((List.range scores.size).map Literal.ofCode).mergeSort (atMost scores)
  { scores := scores
    positions := notePlaces order 0 (Array.replicate scores.size 0)
    order := order.toArray
    increment := Score.one
    decay := decay }

/-- All literals, in increasing order of score. -/
def ordered (a : Activity S) : List Literal :=
  a.order.toList

/-- The score of a literal. -/
def score (a : Activity S) (l : Literal) : S :=
  scoreAt a.scores l

/-- Where a literal stands in the order. -/
def position (a : Activity S) (l : Literal) : Nat :=
  a.positions.getD l.code a.order.size

/-- The unassigned literal of highest score, the last one in the order. -/
def next? (a : Activity S) (assignment : Assignment) : Option Literal :=
  a.ordered.reverse.find? fun l => !assignment.assigns l.var

/-- Moves a literal up from its place past the literals right above it that it passes, and notes
where these and the literal then stand. -/
def climb (passes : Literal → Bool) (l : Literal) (pos : Nat) (order : Array Literal)
    (positions : Array Nat) : Array Literal × Array Nat :=
  if above : pos + 1 < order.size then
    let next := order[pos + 1]
    if passes next then
      climb passes l (pos + 1) (order.swap pos (pos + 1)) (positions.setIfInBounds next.code pos)
    else (order, positions.setIfInBounds l.code pos)
  else (order, positions.setIfInBounds l.code pos)
termination_by order.size - pos

/-- Rewards a literal. -/
def bump (a : Activity S) (l : Literal) : Activity S :=
  let rewarded := Score.add (a.score l) a.increment
  let scores := a.scores.setIfInBounds l.code rewarded
  let (order, positions) := climb (fun other => Score.atMost (scoreAt scores other) rewarded) l
    (a.position l) a.order a.positions
  { a with scores := scores, positions := positions, order := order }

/-- Makes the rewards so far count less against the next ones. -/
def age (a : Activity S) : Activity S :=
  let increment := Score.div a.increment a.decay
  if Score.needsRescaling increment then
    { a with
      scores := a.scores.map (Score.div · Score.rescaling)
      increment := Score.div increment Score.rescaling }
  else { a with increment := increment }

/-- Rewards the literals of a learned clause, after making older rewards count less. -/
def learn (a : Activity S) (literals : List Literal) : Activity S :=
  literals.foldl bump a.age

end Activity

end ClauseLearning
