import ClauseLearning.Branching.Activity
import ClauseLearning.Branching.Occurrence
import ClauseLearning.Randomness.Draw
import ClauseLearning.Search.Options

/-!
Picking decisions. A brancher is a heuristic with the memory it needs: activity for one of them, a
stream of random words for those that may choose at random, and nothing for the others.
-/

namespace ClauseLearning

open Randomness

/-- A branching heuristic in the course of a search. -/
inductive Brancher where
  /-- Occurrences in clauses of two literals, then random. -/
  | binaryOccurrence (source : Keystream)
  /-- Highest activity. -/
  | vsids (activity : Activity Float)
  /-- Occurrences in all clauses, then random. -/
  | occurrence (source : Keystream)
  /-- Random. -/
  | random (source : Keystream)
  /-- Largest sum of weights. -/
  | jeroslowWang

namespace Brancher

/-- The number of occurrences of each literal, by literal code. -/
def occurrences (numVariables : Nat) (clauses : List Clause) : Array Float :=
  clauses.foldl (fun scores c =>
      c.literals.foldl (fun scores l => scores.modify l.code (· + 1.0)) scores)
    (Array.replicate (2 * numVariables) 0.0)

/-- The brancher at the start of a search. Activity starts from the occurrences in the formula. -/
def start (o : Options) (numVariables : Nat) (store : ClauseStore) : Brancher :=
  match o.heuristic with
  | .binaryOccurrence => binaryOccurrence (.ofSeed o.seed)
  | .vsids => vsids (.ofScores (occurrences numVariables store.clauses) o.decay)
  | .occurrence => occurrence (.ofSeed o.seed)
  | .random => random (.ofSeed o.seed)
  | .jeroslowWang => jeroslowWang

/-- The heuristic of a brancher. -/
def heuristic : Brancher → Heuristic
  | binaryOccurrence _ => .binaryOccurrence
  | vsids _ => .vsids
  | occurrence _ => .occurrence
  | random _ => .random
  | jeroslowWang => .jeroslowWang

/-- A random unassigned literal: first the variable is drawn, then the polarity. -/
def drawLiteral (a : Assignment) (source : Keystream) : Option Literal × Keystream :=
  match choose a.free source with
  | (none, source) => (none, source)
  | (some var, source) =>
    let (positive, source) := coin source
    (some ⟨var, positive⟩, source)

/-- The literal at hand, or else a random one. -/
def orDraw (found : Option Literal) (a : Assignment) (source : Keystream) :
    Option Literal × Keystream :=
  match found with
  | some l => (some l, source)
  | none => drawLiteral a source

/-- The next decision, none if every variable is assigned. -/
def pick (b : Brancher) (a : Assignment) (store : ClauseStore) : Option Literal × Brancher :=
  match b with
  | binaryOccurrence source =>
    let (l, source) := orDraw (Occurrence.commonest? a (·.literals.length == 2) store) a source
    (l, binaryOccurrence source)
  | vsids activity => (activity.next? a, b)
  | occurrence source =>
    let (l, source) := orDraw (Occurrence.commonest? a (fun _ => true) store) a source
    (l, occurrence source)
  | random source =>
    let (l, source) := drawLiteral a source
    (l, random source)
  | jeroslowWang => (Occurrence.heaviest? a store, b)

/-- The brancher after a clause was learned. -/
def noteLearned (b : Brancher) (literals : List Literal) : Brancher :=
  match b with
  | vsids activity => vsids (activity.learn literals)
  | other => other

/-- The activity, if the brancher keeps one. -/
def activity? : Brancher → Option (Activity Float)
  | vsids activity => some activity
  | _ => none

end Brancher

end ClauseLearning
