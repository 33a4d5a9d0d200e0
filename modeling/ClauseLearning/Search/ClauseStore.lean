import ClauseLearning.Search.Clause
import ClauseLearning.Search.Watchers

/-!
The clauses of a search, each at an index that stays the same as long as the clause lives. A
deleted clause leaves its slot free, and the next clause is stored in the slot freed last. The
store keeps the watch lists in step with the clauses it takes in and deletes.
-/

namespace ClauseLearning

/-- Clauses by index, with the lists of their watchers. -/
structure ClauseStore where
  /-- The slots, each with a clause or free. -/
  slots : Array (Option Clause)
  /-- The free slots, the one freed last first. -/
  free : List Nat
  /-- The learned clauses, in the order they were learned. -/
  learned : List Nat
  /-- The watch lists. -/
  watchers : Watchers
  deriving DecidableEq

namespace ClauseStore

/-- The store without clauses. -/
def empty (numVariables : Nat) : ClauseStore :=
  ⟨#[], [], [], .empty numVariables⟩

/-- The clause at an index, if one lives there. -/
def clause? (s : ClauseStore) (index : Nat) : Option Clause :=
  s.slots[index]?.join

/-- The clause at an index, or why there is none. -/
def get (s : ClauseStore) (index : Nat) : Except Fault Clause :=
  match s.slots[index]? with
  | none => .error (.unknownClause index)
  | some none => .error (.deletedClause index)
  | some (some c) => .ok c

theorem get_eq_ok_iff {s : ClauseStore} {index : Nat} {c : Clause} :
    s.get index = .ok c ↔ s.clause? index = some c := by
  unfold get clause?
  split <;> rename_i h <;> simp [h]

/-- The living clauses, by increasing index. -/
def clauses (s : ClauseStore) : List Clause :=
  s.slots.toList.filterMap id

/-- How many slots there are, free or not. -/
def capacity (s : ClauseStore) : Nat :=
  s.slots.size

/-- How many clauses live. -/
def size (s : ClauseStore) : Nat :=
  s.slots.size - s.free.length

/-- The store with the clause at an index changed; its watchers are left as they are. -/
def replace (s : ClauseStore) (index : Nat) (c : Clause) : ClauseStore :=
  { s with slots := s.slots.setIfInBounds index (some c) }

theorem clause?_replace {s : ClauseStore} {index other : Nat} {c : Clause}
    (bound : index < s.slots.size) :
    (s.replace index c).clause? other = if other = index then some c else s.clause? other := by
  simp only [clause?, replace, Array.getElem?_setIfInBounds]
  by_cases same : other = index
  · subst same; simp [bound]
  · simp [same, Ne.symm same]

/-- A slot for one more clause, and the store in which the clause lies there unwatched. -/
def place (s : ClauseStore) (c : Clause) : Nat × ClauseStore :=
  match s.free with
  | index :: rest => (index, { s with slots := s.slots.setIfInBounds index (some c), free := rest })
  | [] => (s.slots.size, { s with slots := s.slots.push (some c) })

/-- Stores a clause, lists it under its watched literals and gives its index. -/
def insert (s : ClauseStore) (c : Clause) : Except Fault (Nat × ClauseStore) :=
  if c.literals = [] then .error .emptyClause
  else
    let (index, s) := s.place c
    let s := if c.isLearned then { s with learned := s.learned ++ [index] } else s
    match c.watched.foldlM (fun w l => w.watch l index) s.watchers with
    | .error fault => .error fault
    | .ok watchers => .ok (index, { s with watchers := watchers })

/-- Frees the slot of a clause and takes the clause off the lists of its watched literals. -/
def delete (s : ClauseStore) (index : Nat) : ClauseStore :=
  match s.clause? index with
  | none => s
  | some c =>
    { s with
      slots := s.slots.setIfInBounds index none
      free := index :: s.free
      watchers := c.watched.foldl (fun w l => w.remove l index) s.watchers }

/-- Whether a clause lives at an index and has a property. -/
def holdsAt (s : ClauseStore) (p : Clause → Bool) (index : Nat) : Bool :=
  (s.clause? index).any p

/-- Deletes the learned clauses that are not to be kept; gives their indices in learned order. -/
def prune (s : ClauseStore) (keep : Clause → Bool) : List Nat × ClauseStore :=
  let doomed := s.learned.filter (s.holdsAt fun c => !keep c)
  let kept := s.learned.filter (s.holdsAt keep)
  (doomed, doomed.foldl delete { s with learned := kept })

end ClauseStore

end ClauseLearning
