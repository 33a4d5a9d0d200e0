import ClauseLearning.Logic.Literal

/-!
Clauses as the search keeps them. The first two literals are watched, and `reconsider` moves a
watch away from a literal that became false: as long as another literal that is not false can take
the watch, the rest of the clause need not be looked at.
-/

namespace ClauseLearning

/-- Where a clause comes from. -/
inductive Origin where
  /-- The formula. -/
  | input
  /-- A conflict; the block distance is the number of decision levels among the literals. -/
  | learned (blockDistance : Nat)
  deriving DecidableEq

/-- A disjunction of literals, the watched ones first. -/
structure Clause where
  /-- The literals. -/
  literals : List Literal
  /-- Where the clause comes from. -/
  origin : Origin
  deriving DecidableEq

/-- What reconsidering a clause came to. -/
inductive Reconsidered where
  /-- The other watched literal is true, so the watches stay. -/
  | satisfied
  /-- This literal is now watched in place of the false one. -/
  | rewatched (l : Literal)
  /-- This watched literal is unassigned and all others are false. -/
  | implied (l : Literal)
  /-- All literals are false. -/
  | falsified
  deriving DecidableEq

namespace Clause

/-- The watched literals: the first two, or the only one. -/
def watched (c : Clause) : List Literal :=
  c.literals.take 2

/-- Whether the clause was learned. -/
def isLearned (c : Clause) : Bool :=
  match c.origin with
  | .input => false
  | .learned _ => true

/-- The block distance of a learned clause, 0 for a clause of the formula. -/
def blockDistance (c : Clause) : Nat :=
  match c.origin with
  | .input => 0
  | .learned distance => distance

/-- The truth value of the clause: true with a true literal, false with only false ones. -/
def value? (value : Literal → Option Bool) (c : Clause) : Option Bool :=
  if c.literals.any (value · = some true) then some true
  else if c.literals.all (value · = some false) then some false
  else none

/-- Whether a watched literal is true. -/
def isSatisfied (value : Literal → Option Bool) (c : Clause) : Bool :=
  c.watched.any (value · = some true)

/-- The first element with a property, with the elements before and after it. -/
def cutAtFirst (p : α → Bool) : List α → Option (List α × α × List α)
  | [] => none
  | x :: rest =>
    if p x then some ([], x, rest)
    else (cutAtFirst p rest).map fun (before, y, after) => (x :: before, y, after)

theorem eq_of_cutAtFirst {p : α → Bool} {xs before after : List α} {x : α}
    (h : cutAtFirst p xs = some (before, x, after)) :
    xs = before ++ x :: after ∧ p x = true ∧ ∀ y ∈ before, p y = false := by
  induction xs generalizing before with
  | nil => cases h
  | cons first rest ih =>
    unfold cutAtFirst at h
    split at h
    · cases h
      simp_all
    · obtain ⟨⟨before', y, after'⟩, found, same⟩ := Option.map_eq_some_iff.1 h
      cases same
      obtain ⟨rfl, holds, fails⟩ := ih found
      simp_all

theorem cutAtFirst_eq_none_iff {p : α → Bool} {xs : List α} :
    cutAtFirst p xs = none ↔ ∀ x ∈ xs, p x = false := by
  induction xs with
  | nil => simp [cutAtFirst]
  | cons first rest ih =>
    by_cases h : p first = true <;> simp [cutAtFirst, h, ih]

/-- Reconsiders a clause that watches `other` and the false literal `old`, given the rest of its
literals. The false literal stays second, or changes places with the one that takes its watch. -/
def settle (value : Literal → Option Bool) (other old : Literal) (rest : List Literal) :
    Reconsidered × List Literal :=
  if value other = some true then (.satisfied, other :: old :: rest)
  else match cutAtFirst (fun l => value l ≠ some false) rest with
    | some (before, l, after) => (.rewatched l, other :: l :: (before ++ old :: after))
    | none =>
      (if value other = none then .implied other else .falsified, other :: old :: rest)

/-- Reconsiders a clause after the watched literal `old` became false; none if `old` is not
watched. A clause of one literal is falsified with it. -/
def reconsider (value : Literal → Option Bool) (old : Literal) (c : Clause) :
    Option (Reconsidered × Clause) :=
  match c.literals with
  | [] => none
  | [only] => if only = old then some (.falsified, c) else none
  | first :: second :: rest =>
    if first = old then
      let (outcome, literals) := settle value second old rest
      some (outcome, { c with literals := literals })
    else if second = old then
      let (outcome, literals) := settle value first old rest
      some (outcome, { c with literals := literals })
    else none

end Clause

end ClauseLearning
