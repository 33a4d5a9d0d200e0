import ClauseLearning.Search.Assignment

/-!
The trail: the assigned literals in the order of their assignment, cut into decision levels,
together with the assignment they make. Level 0 is always open; every other level was opened by a
decision. Going back to a level drops the literals of the levels above it and nothing else.
-/

namespace ClauseLearning

/-- The assigned literals by level, and the assignment they make. -/
structure Trail where
  /-- The assignment. -/
  assignment : Assignment
  /-- The literals of level 0, the newest first. -/
  root : List Literal
  /-- The literals of each level above 0, the deepest level first, its newest literal first. -/
  levels : List (List Literal)
  deriving DecidableEq

namespace Trail

/-- The trail on which nothing is assigned. -/
def start (numVariables : Nat) : Trail :=
  ⟨.unassigned numVariables, [], []⟩

/-- The current decision level. -/
def level (t : Trail) : Nat :=
  t.levels.length

/-- The literals of the current level, the newest first. -/
def top (t : Trail) : List Literal :=
  t.levels.headD t.root

/-- All literals, the newest first. -/
def newestFirst (t : Trail) : List Literal :=
  t.levels.flatten ++ t.root

/-- All literals in the order of their assignment. -/
def literals (t : Trail) : List Literal :=
  t.newestFirst.reverse

/-- How many literals are assigned. -/
def size (t : Trail) : Nat :=
  t.newestFirst.length

/-- For each level above 0, from level 1 on, how many literals were assigned before it was
opened. -/
def offsetsOf (root : List Literal) : List (List Literal) → List Nat
  | [] => []
  | _ :: below => offsetsOf root below ++ [(below.flatten ++ root).length]

/-- Where on the trail each level above 0 starts. -/
def levelOffsets (t : Trail) : List Nat :=
  offsetsOf t.root t.levels

/-- The truth value of a literal. -/
def value? (t : Trail) (l : Literal) : Option Bool :=
  t.assignment.value? l

/-- The trail with a new, empty decision level. -/
def openLevel (t : Trail) : Trail :=
  { t with levels := [] :: t.levels }

/-- The trail with a literal made true at the current level. -/
def push (t : Trail) (l : Literal) (antecedent : Option Nat) : Trail :=
  let assignment := t.assignment.set l.var ⟨l.positive, t.level, antecedent⟩
  match t.levels with
  | [] => { t with assignment := assignment, root := l :: t.root }
  | top :: below => { t with assignment := assignment, levels := (l :: top) :: below }

/-- The trail without the levels above the given one. -/
def backTo (t : Trail) (level : Nat) : Trail :=
  let dropped := t.levels.take (t.level - level)
  { t with
    assignment := dropped.flatten.foldl (fun a l => a.clear l.var) t.assignment
    levels := t.levels.drop (t.level - level) }

/-- Goes back to a level, if it is below the current one, and tells how many literals went. -/
def revert (t : Trail) (level : Nat) : Nat × Trail :=
  match t.levelOffsets[level]? with
  | none => (0, t)
  | some start => (t.size - start, t.backTo level)

/-- The trail without the antecedents among the given clauses. -/
def forget (t : Trail) (clauses : List Nat) : Trail :=
  { t with assignment := t.assignment.forget clauses }

@[simp] theorem assignment_push (t : Trail) (l : Literal) (antecedent : Option Nat) :
    (t.push l antecedent).assignment
      = t.assignment.set l.var ⟨l.positive, t.level, antecedent⟩ := by
  unfold push
  split <;> rfl

@[simp] theorem level_push (t : Trail) (l : Literal) (antecedent : Option Nat) :
    (t.push l antecedent).level = t.level := by
  unfold push level
  split <;> simp_all

@[simp] theorem newestFirst_push (t : Trail) (l : Literal) (antecedent : Option Nat) :
    (t.push l antecedent).newestFirst = l :: t.newestFirst := by
  unfold push newestFirst
  split <;> simp_all

@[simp] theorem level_openLevel (t : Trail) : t.openLevel.level = t.level + 1 := rfl

@[simp] theorem newestFirst_openLevel (t : Trail) : t.openLevel.newestFirst = t.newestFirst := rfl

/-- Going back reaches the level, unless the trail is below it already. -/
@[simp] theorem level_backTo (t : Trail) (level : Nat) :
    (t.backTo level).level = min level t.level := by
  simp only [backTo, Trail.level, List.length_drop]
  omega

/-- Going back drops literals from the new end of the trail only. -/
theorem newestFirst_backTo_suffix (t : Trail) (level : Nat) :
    (t.backTo level).newestFirst <:+ t.newestFirst := by
  refine ⟨(t.levels.take (t.level - level)).flatten, ?_⟩
  simp only [newestFirst, backTo, ← List.append_assoc, ← List.flatten_append,
    List.take_append_drop]

end Trail

end ClauseLearning
