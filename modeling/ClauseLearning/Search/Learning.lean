import ClauseLearning.Logic.SortedSet
import ClauseLearning.Search.ClauseStore
import ClauseLearning.Search.Trail

/-!
Conflict analysis. Starting from a falsified clause, the literals of the conflict level are
replaced, the newest first, by the literals that implied them, until one of them is left: the
first unique implication point. The clause of what remains is learned. Literals that are false at
level 0 are false for good and are left out.
-/

namespace ClauseLearning

/-- A clause learned from a conflict. -/
structure Learned where
  /-- The only literal of the conflict level; it becomes true when the search goes back. -/
  asserting : Literal
  /-- The other literals, those of deeper levels first, those of one level by code. -/
  others : List Literal
  /-- The deepest level of the other literals, 0 without any. -/
  returnLevel : Nat
  /-- How many levels the literals belong to. -/
  blockDistance : Nat
  deriving DecidableEq

/-- The literals of a learned clause, the asserting one first. -/
def Learned.literals (l : Learned) : List Literal :=
  l.asserting :: l.others

/-- The learned clause as it is stored. -/
def Learned.clause (l : Learned) : Clause :=
  ⟨l.literals, .learned l.blockDistance⟩

/-- The working clause of an analysis, all of whose literals are false. -/
structure Resolvent where
  /-- The literals of the conflict level, without repetitions. -/
  current : List Literal
  /-- The literals of the levels between 0 and the conflict level, in the order of
  `Learned.others`. -/
  lower : List Literal

namespace Resolvent

/-- Whether a literal comes before another: the deeper level first, then the smaller code. -/
def before (a : Assignment) (x y : Literal) : Bool :=
  let levelOf (l : Literal) := (a.level? l.var).getD 0
  levelOf y < levelOf x || (levelOf x == levelOf y && x.precedes y)

/-- Adds a false literal, unless it is false at level 0. -/
def add (a : Assignment) (level : Nat) (r : Resolvent) (l : Literal) : Except Fault Resolvent :=
  match a.find? l.var with
  | none => .error (.notFalsified l)
  | some e =>
    if e.level = 0 then .ok r
    else if e.positive = l.positive then .error (.notFalsified l)
    else if e.level = level then
      .ok (if l ∈ r.current then r else { r with current := l :: r.current })
    else .ok { r with lower := SortedSet.insert (before a) l r.lower }

/-- Adds literals in order. -/
def addAll (a : Assignment) (level : Nat) (r : Resolvent) (literals : List Literal) :
    Except Fault Resolvent :=
  literals.foldlM (add a level) r

/-- Replaces the false literal `l.negate` by the other literals of the clause that implied `l`. -/
def resolve (store : ClauseStore) (a : Assignment) (level : Nat) (r : Resolvent) (l : Literal) :
    Except Fault Resolvent := do
  match (a.find? l.var).bind Entry.antecedent with
  | none => throw (.unexplained l)
  | some index =>
    let reason ← store.get index
    if l ∉ reason.literals then throw (.notImplied index l)
    addAll a level { r with current := r.current.erase l.negate }
      (reason.literals.filter (· ≠ l))

/-- Resolves along literals of the conflict level, the newest first, while more than one is left. -/
def resolveAlong (store : ClauseStore) (a : Assignment) (level : Nat) :
    List Literal → Resolvent → Except Fault Resolvent
  | [], r => .ok r
  | l :: older, r =>
    if r.current.length ≤ 1 then .ok r
    else if l.negate ∈ r.current then do
      let r ← resolve store a level r l
      resolveAlong store a level older r
    else resolveAlong store a level older r

/-- The number of different levels among literals. -/
def levelCount (a : Assignment) (literals : List Literal) : Nat :=
  (SortedSet.ofList (fun x y => decide (x < y)) (literals.filterMap fun l => a.level? l.var)).length

/-- The learned clause of a working clause with one literal of the conflict level. -/
def learned (a : Assignment) (r : Resolvent) : Except Fault Learned :=
  match r.current with
  | [asserting] => .ok {
      asserting := asserting
      others := r.lower
      returnLevel := (r.lower.head?.bind fun l => a.level? l.var).getD 0
      blockDistance := levelCount a (asserting :: r.lower) }
  | _ => .error .notAsserting

end Resolvent

/-- The clause to learn from a falsified clause; none at level 0, where nothing can be undone. -/
def analyze (store : ClauseStore) (trail : Trail) (index : Nat) : Except Fault (Option Learned) :=
  if trail.level = 0 then .ok none
  else do
    let conflict ← store.get index
    let start ← Resolvent.addAll trail.assignment trail.level ⟨[], []⟩ conflict.literals
    if start.current = [] then throw (.staleConflict index)
    let last ← Resolvent.resolveAlong store trail.assignment trail.level trail.top start
    return some (← Resolvent.learned trail.assignment last)

end ClauseLearning
