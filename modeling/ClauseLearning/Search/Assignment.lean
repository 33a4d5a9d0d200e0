import ClauseLearning.Logic.Literal

/-!
Partial assignments: for each variable nothing, or a value with the decision level at which it was
set and the clause that implied it. A variable beyond the declared ones reads as unassigned.
-/

namespace ClauseLearning

/-- The value of a variable and where it came from. -/
structure Entry where
  /-- The value. -/
  positive : Bool
  /-- The decision level at which the value was set. -/
  level : Nat
  /-- The index of the clause that implied the value; decisions and given facts have none. -/
  antecedent : Option Nat
  deriving DecidableEq

/-- A value for some of the variables. -/
structure Assignment where
  /-- The entry of each variable. -/
  entries : Array (Option Entry)
  deriving DecidableEq

namespace Assignment

/-- The assignment of no variable. -/
def unassigned (numVariables : Nat) : Assignment :=
  ⟨Array.replicate numVariables none⟩

/-- How many variables there are, assigned or not. -/
def numVariables (a : Assignment) : Nat :=
  a.entries.size

/-- The entry of a variable, if it is assigned. -/
def find? (a : Assignment) (var : Nat) : Option Entry :=
  a.entries[var]?.join

/-- Whether a variable has a value. -/
def assigns (a : Assignment) (var : Nat) : Bool :=
  (a.find? var).isSome

/-- The truth value of a literal. -/
def value? (a : Assignment) (l : Literal) : Option Bool :=
  (a.find? l.var).map fun e => e.positive == l.positive

/-- The level of a variable. -/
def level? (a : Assignment) (var : Nat) : Option Nat :=
  (a.find? var).map Entry.level

/-- The assignment with an entry for a variable. -/
def set (a : Assignment) (var : Nat) (e : Entry) : Assignment :=
  ⟨a.entries.setIfInBounds var (some e)⟩

/-- The assignment without a value for a variable. -/
def clear (a : Assignment) (var : Nat) : Assignment :=
  ⟨a.entries.setIfInBounds var none⟩

/-- The entry without its antecedent if that is one of the given clauses. -/
def Entry.forget (clauses : List Nat) (e : Entry) : Entry :=
  { e with antecedent := e.antecedent.filter (· ∉ clauses) }

/-- The assignment without the antecedents among the given clauses. -/
def forget (a : Assignment) (clauses : List Nat) : Assignment :=
  ⟨a.entries.map (·.map (Entry.forget clauses))⟩

/-- The variables without a value, in order. -/
def free (a : Assignment) : List Nat :=
  (List.range a.numVariables).filter fun var => !a.assigns var

/-- How many variables have no value. -/
def freeCount (a : Assignment) : Nat :=
  a.entries.countP Option.isNone

/-- A negated literal has the opposite value, and none if the literal has none. -/
theorem value?_negate (a : Assignment) (l : Literal) :
    a.value? l.negate = (a.value? l).map not := by
  unfold value?
  rw [Literal.var_negate, Option.map_map]
  congr 1
  funext e
  simp only [Function.comp, Literal.positive_negate]
  cases l.positive <;> cases e.positive <;> rfl

@[simp] theorem numVariables_set (a : Assignment) (var : Nat) (e : Entry) :
    (a.set var e).numVariables = a.numVariables := by
  simp [set, numVariables]

@[simp] theorem numVariables_clear (a : Assignment) (var : Nat) :
    (a.clear var).numVariables = a.numVariables := by
  simp [clear, numVariables]

theorem find?_set (a : Assignment) (var other : Nat) (e : Entry) (h : var < a.numVariables) :
    (a.set var e).find? other = if other = var then some e else a.find? other := by
  have bound : var < a.entries.size := h
  simp only [set, find?, Array.getElem?_setIfInBounds]
  by_cases same : other = var
  · subst same; simp [bound]
  · simp [same, Ne.symm same]

theorem find?_clear (a : Assignment) (var other : Nat) :
    (a.clear var).find? other = if other = var then none else a.find? other := by
  simp only [clear, find?, Array.getElem?_setIfInBounds]
  by_cases same : other = var
  · subst same; by_cases bound : other < a.entries.size <;> simp [bound]
  · simp [same, Ne.symm same]

/-- Giving a value to a free variable leaves fewer free variables. -/
theorem freeCount_set_lt {a : Assignment} {var : Nat} (e : Entry) (bound : var < a.numVariables)
    (free : a.assigns var = false) : (a.set var e).freeCount < a.freeCount := by
  have bound' : var < a.entries.size := bound
  have isNone : a.entries[var].isNone = true := by
    simpa [assigns, find?, bound'] using free
  have positive : 0 < a.entries.countP Option.isNone :=
    Array.countP_pos_iff.2 ⟨_, Array.getElem_mem bound', isNone⟩
  simp only [freeCount, set, Array.setIfInBounds, bound', dif_pos, Array.countP_set, isNone,
    if_true, Option.isNone_some, Bool.false_eq_true, if_false]
  omega

end Assignment

end ClauseLearning
