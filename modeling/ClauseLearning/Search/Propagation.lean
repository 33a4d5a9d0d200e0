import ClauseLearning.Search.State
import ClauseLearning.Search.Status

/-!
Assigning literals. An assigned literal makes its negation false, and only the clauses that watch
the negation are reconsidered; what they imply waits in the queue of the state. Propagation
empties that queue and ends, because every literal it assigns leaves fewer unassigned variables.
-/

namespace ClauseLearning.State

/-- What visiting the watchers of a false literal changed. -/
structure Visit where
  /-- The clauses with their watches moved. -/
  store : ClauseStore
  /-- The clauses that go on watching the literal. -/
  kept : List Nat
  /-- The literals that became implied, with the clauses that imply them. -/
  implied : List (Nat × Literal)
  /-- Whether a clause was falsified. -/
  status : Status

/-- Reconsiders the watchers of a literal that became false, up to the first falsified one. The
watchers after that one are kept as they are. -/
def visit (value : Literal → Option Bool) (old : Literal) :
    List Nat → ClauseStore → Except Fault Visit
  | [], store => .ok ⟨store, [], [], .consistent⟩
  | index :: rest, store =>
    match store.get index with
    | .error fault => .error fault
    | .ok clause =>
      match clause.reconsider value old with
      | none => .error (.notWatched index old)
      | some (outcome, clause) =>
        let store := store.replace index clause
        match outcome with
        | .falsified => .ok ⟨store, index :: rest, [], .conflict index⟩
        | .rewatched l =>
          visit value old rest { store with watchers := store.watchers.add l index }
        | .satisfied =>
          (visit value old rest store).map fun v => { v with kept := index :: v.kept }
        | .implied l =>
          (visit value old rest store).map fun v =>
            { v with kept := index :: v.kept, implied := (index, l) :: v.implied }

/-- Makes an unassigned literal true at the current level and visits the watchers of its
negation. -/
def assign (s : State) (l : Literal) (antecedent : Option Nat) : Except Fault (Status × State) :=
  if s.trail.assignment.numVariables ≤ l.var then .error (.undeclared l)
  else if s.trail.assignment.assigns l.var then .error (.reassigned l)
  else
    let trail := s.trail.push l antecedent
    let (watchers, rest) := s.store.watchers.take l.negate
    match visit trail.value? l.negate watchers { s.store with watchers := rest } with
    | .error fault => .error fault
    | .ok v =>
      .ok (v.status, { s with
        trail := trail
        store := { v.store with watchers := v.store.watchers.put l.negate v.kept }
        queue := s.queue ++ v.implied })

/-- Opens a decision level and makes the decision. -/
def decide (s : State) (l : Literal) : Except Fault (Status × State) :=
  let statistics := { s.statistics with decisions := s.statistics.decisions + 1 }
  assign { s with trail := s.trail.openLevel, statistics := statistics } l none

/-- Assigns a literal that a clause implied. A clause of one literal is no antecedent, so that the
literal counts as a fact. -/
def assignUnit (s : State) (index : Nat) (l : Literal) : Except Fault (Status × State) :=
  match s.store.get index with
  | .error fault => .error fault
  | .ok clause =>
    let count := s.statistics.unitPropagations + 1
    assign { s with statistics := { s.statistics with unitPropagations := count } } l
      (if 1 < clause.literals.length then some index else none)

/-- What the front of the queue asks for, once true literals are dropped from it. -/
inductive NextUnit where
  /-- Nothing: the queue is empty. -/
  | none
  /-- To report a literal that became false while it waited. -/
  | conflict (index : Nat) (rest : List (Nat × Literal))
  /-- To assign a literal. -/
  | assign (index : Nat) (l : Literal) (rest : List (Nat × Literal))

/-- Drops the true literals at the front of the queue. -/
def nextUnit (value : Literal → Option Bool) : List (Nat × Literal) → NextUnit
  | [] => .none
  | (index, l) :: rest =>
    match value l with
    | some true => nextUnit value rest
    | some false => .conflict index rest
    | none => .assign index l rest

theorem freeCount_assign_lt {s t : State} {l : Literal} {antecedent : Option Nat} {status : Status}
    (h : s.assign l antecedent = .ok (status, t)) :
    t.trail.assignment.freeCount < s.trail.assignment.freeCount := by
  unfold assign at h
  split at h
  · cases h
  · rename_i declared
    split at h
    · cases h
    · rename_i free
      simp only at h
      split at h
      · cases h
      · cases h
        simp only [Trail.assignment_push]
        exact Assignment.freeCount_set_lt _ (by omega) (by simpa using free)

theorem freeCount_assignUnit_lt {s t : State} {index : Nat} {l : Literal} {status : Status}
    (h : s.assignUnit index l = .ok (status, t)) :
    t.trail.assignment.freeCount < s.trail.assignment.freeCount := by
  unfold assignUnit at h
  split at h
  · cases h
  · have less := freeCount_assign_lt h
    exact less

/-- Assigns waiting literals until none waits or a clause is falsified. -/
def propagate (s : State) : Except Fault (Status × State) :=
  match nextUnit s.trail.value? s.queue with
  | .none => .ok (.consistent, { s with queue := [] })
  | .conflict index rest => .ok (.conflict index, { s with queue := rest })
  | .assign index l rest =>
    match _assigned : { s with queue := rest }.assignUnit index l with
    | .error fault => .error fault
    | .ok (.conflict index, s') => .ok (.conflict index, s')
    | .ok (.consistent, s') => s'.propagate
termination_by s.trail.assignment.freeCount
decreasing_by
  have less := freeCount_assignUnit_lt _assigned
  exact less

/-! ## Assumptions -/

/-- Whether the assumptions can all hold. -/
inductive Assumed where
  /-- They are assigned. -/
  | held
  /-- This one is the negation of an earlier one. -/
  | contradicts (l : Literal)
  /-- This one falsifies a clause. -/
  | falsifies (l : Literal) (index : Nat)
  deriving DecidableEq

/-- Assigns literals at the current level up to the first that cannot hold. -/
def assumeAll : List Literal → State → Except Fault (Assumed × State)
  | [], s => .ok (.held, s)
  | l :: rest, s =>
    match s.trail.value? l with
    | some true => assumeAll rest s
    | some false => .ok (.contradicts l, s)
    | none =>
      match s.assign l none with
      | .error fault => .error fault
      | .ok (.conflict index, s) => .ok (.falsifies l index, s)
      | .ok (.consistent, s) => assumeAll rest s

/-- Assigns the assumptions, which are then no longer waiting. -/
def assume (s : State) : Except Fault (Assumed × State) :=
  assumeAll s.assumptions { s with assumptions := [] }

end ClauseLearning.State
