/-!
The branching heuristics, with the names and the numeric codes by which they are asked for.
-/

namespace ClauseLearning

/-- How the next decision literal is chosen. -/
inductive Heuristic where
  /-- Most occurrences in unsatisfied clauses of two literals, random otherwise. -/
  | binaryOccurrence
  /-- The highest decaying activity. -/
  | vsids
  /-- Most occurrences in unsatisfied clauses, random otherwise. -/
  | occurrence
  /-- A random unassigned variable with a random polarity. -/
  | random
  /-- The highest sum of two to the minus length over the clauses of a variable. -/
  | jeroslowWang
  deriving DecidableEq

namespace Heuristic

/-- Every heuristic, in the order of the codes. -/
def all : List Heuristic :=
  [binaryOccurrence, vsids, occurrence, random, jeroslowWang]

/-- The numeric code of a heuristic. -/
def code : Heuristic → Nat
  | binaryOccurrence => 0
  | vsids => 1
  | occurrence => 2
  | random => 3
  | jeroslowWang => 4

/-- The heuristic with the given code. -/
def ofCode? (code : Nat) : Option Heuristic :=
  all[code]?

/-- The name of a heuristic. -/
def name : Heuristic → String
  | binaryOccurrence => "2-clause"
  | vsids => "vsids"
  | occurrence => "unassigned-occurrence"
  | random => "random"
  | jeroslowWang => "jeroslow-wang"

/-- A code belongs to a heuristic exactly when it is that heuristic's code. -/
theorem ofCode?_eq_some_iff {c : Nat} {h : Heuristic} : ofCode? c = some h ↔ c = h.code := by
  constructor
  · intro found
    have bound : c < 5 := by
      have := (List.getElem?_eq_some_iff.1 found).1
      simpa [all] using this
    obtain rfl | rfl | rfl | rfl | rfl :
        c = 0 ∨ c = 1 ∨ c = 2 ∨ c = 3 ∨ c = 4 := by omega
    all_goals simp only [ofCode?, all, List.getElem?_cons_zero, List.getElem?_cons_succ,
      Option.some.injEq] at found; subst found; rfl
  · rintro rfl
    cases h <;> rfl

end Heuristic

end ClauseLearning
