import ClauseLearning.Search.Fault

/-!
For each literal, the clauses that watch it, by index and in a fixed order. A new watcher goes to
the end; the place of a removed one is taken by the last.
-/

namespace ClauseLearning

/-- The watching clauses of every literal, by literal code. -/
structure Watchers where
  /-- The lists. -/
  lists : Array (List Nat)
  deriving DecidableEq

namespace Watchers

/-- No clause watches anything. -/
def empty (numVariables : Nat) : Watchers :=
  ⟨Array.replicate (2 * numVariables) []⟩

/-- The clauses that watch a literal. -/
def of (w : Watchers) (l : Literal) : List Nat :=
  w.lists.getD l.code []

/-- The index with another list for a literal. -/
def put (w : Watchers) (l : Literal) (clauses : List Nat) : Watchers :=
  ⟨w.lists.setIfInBounds l.code clauses⟩

/-- The index with a clause added at the end of a literal's list. -/
def add (w : Watchers) (l : Literal) (clause : Nat) : Watchers :=
  w.put l (w.of l ++ [clause])

/-- The list without the first occurrence of a clause, whose place the last clause takes. -/
def removeFirst (clause : Nat) (clauses : List Nat) : List Nat :=
  match clauses.getLast? with
  | some last =>
    if clause ∈ clauses then (clauses.set (clauses.idxOf clause) last).dropLast else clauses
  | none => clauses

/-- The index with a clause removed from a literal's list, if it is there. -/
def remove (w : Watchers) (l : Literal) (clause : Nat) : Watchers :=
  w.put l (removeFirst clause (w.of l))

/-- The list of a literal, and the index without it. -/
def take (w : Watchers) (l : Literal) : List Nat × Watchers :=
  (w.of l, w.put l [])

/-- Adds a clause to the list of a literal that it does not watch yet. -/
def watch (w : Watchers) (l : Literal) (clause : Nat) : Except Fault Watchers :=
  if clause ∈ w.of l then .error (.watchedTwice clause l) else .ok (w.add l clause)

/-- Whether a literal is over a variable that the index was made for. -/
def Covers (w : Watchers) (l : Literal) : Prop :=
  l.code < w.lists.size

theorem of_put {w : Watchers} {l other : Literal} {clauses : List Nat} (covered : w.Covers l) :
    (w.put l clauses).of other = if other = l then clauses else w.of other := by
  have bound : l.code < w.lists.size := covered
  simp only [of, put, Array.getD_eq_getD_getElem?, Array.getElem?_setIfInBounds]
  by_cases same : other = l
  · subst same; simp [bound]
  · have codes : l.code ≠ other.code := fun h => same (Literal.code_inj.1 h.symm)
    simp [same, codes]

@[simp] theorem covers_put {w : Watchers} {l other : Literal} {clauses : List Nat} :
    (w.put l clauses).Covers other ↔ w.Covers other := by
  simp [Covers, put]

theorem of_add {w : Watchers} {l other : Literal} {clause : Nat} (covered : w.Covers l) :
    (w.add l clause).of other = if other = l then w.of l ++ [clause] else w.of other :=
  of_put covered

end Watchers

end ClauseLearning
