import ClauseLearning.Logic.Literal

/-!
Formulas in conjunctive normal form. A formula declares a number of variables, and every literal
of its clauses is over one of them. Clauses are kept as they were given: in order, with repeated
and complementary literals, and possibly empty.
-/

namespace ClauseLearning

/-- The least number of variables that covers the literals of a clause. -/
def varBound (clause : List Literal) : Nat :=
  clause.foldr (fun l bound => max (l.var + 1) bound) 0

/-- A conjunction of clauses, each a disjunction of literals. -/
structure Formula where
  /-- How many variables the formula ranges over. -/
  numVariables : Nat
  /-- The clauses, in order. -/
  clauses : List (List Literal)
  /-- Only declared variables occur. -/
  declared : ∀ clause ∈ clauses, ∀ l ∈ clause, l.var < numVariables
  deriving DecidableEq

theorem var_lt_varBound {clause : List Literal} {l : Literal} (h : l ∈ clause) :
    l.var < varBound clause := by
  induction clause with
  | nil => cases h
  | cons first rest ih =>
    simp only [varBound, List.foldr_cons]
    rcases List.mem_cons.1 h with rfl | h
    · omega
    · have := ih h
      simp only [varBound] at this
      omega

theorem varBound_le_iff {clause : List Literal} {n : Nat} :
    varBound clause ≤ n ↔ ∀ l ∈ clause, l.var < n := by
  induction clause with
  | nil => simp [varBound]
  | cons first rest ih =>
    simp only [varBound, List.foldr_cons] at ih ⊢
    rw [Nat.max_le, ih, List.forall_mem_cons]
    exact Iff.rfl

namespace Formula

/-- A formula without clauses. -/
def empty (numVariables : Nat) : Formula where
  numVariables := numVariables
  clauses := []
  declared := by simp

/-- The formula with one more clause at its end, declaring the variables the clause brings. -/
def addClause (f : Formula) (clause : List Literal) : Formula where
  numVariables := max f.numVariables (varBound clause)
  clauses := f.clauses ++ [clause]
  declared := by
    intro c hc l hl
    rcases List.mem_append.1 hc with hc | hc
    · have := f.declared c hc l hl
      omega
    · have := var_lt_varBound (List.mem_singleton.1 hc ▸ hl)
      omega

/-- How many variables a list of clauses needs, and at least the given number. -/
def variablesNeeded (least : Nat) (clauses : List (List Literal)) : Nat :=
  clauses.foldl (fun n clause => max n (varBound clause)) least

theorem le_variablesNeeded (clauses : List (List Literal)) (least : Nat) :
    least ≤ variablesNeeded least clauses := by
  induction clauses generalizing least with
  | nil => exact Nat.le_refl _
  | cons clause rest ih =>
    have := ih (max least (varBound clause))
    simp only [variablesNeeded, List.foldl_cons] at this ⊢
    omega

theorem varBound_le_variablesNeeded {clauses : List (List Literal)} {clause : List Literal}
    (h : clause ∈ clauses) (least : Nat) : varBound clause ≤ variablesNeeded least clauses := by
  induction clauses generalizing least with
  | nil => cases h
  | cons first rest ih =>
    simp only [variablesNeeded, List.foldl_cons]
    rcases List.mem_cons.1 h with rfl | h
    · have := le_variablesNeeded rest (max least (varBound clause))
      simp only [variablesNeeded] at this
      omega
    · exact ih h _

/-- The formula of the given clauses, declaring at least the given number of variables. -/
def ofClauses (least : Nat) (clauses : List (List Literal)) : Formula where
  numVariables := variablesNeeded least clauses
  clauses := clauses
  declared := fun _ hc l hl =>
    varBound_le_iff.1 (varBound_le_variablesNeeded hc least) l hl

@[ext] theorem ext {f g : Formula} (sameVariables : f.numVariables = g.numVariables)
    (sameClauses : f.clauses = g.clauses) : f = g := by
  cases f; cases g; cases sameVariables; cases sameClauses; rfl

/-- Clauses over declared variables need no others. -/
theorem variablesNeeded_eq {clauses : List (List Literal)} {n : Nat}
    (declared : ∀ clause ∈ clauses, ∀ l ∈ clause, l.var < n) : variablesNeeded n clauses = n := by
  induction clauses with
  | nil => rfl
  | cons clause rest ih =>
    obtain ⟨here, declared⟩ := List.forall_mem_cons.mp declared
    rw [variablesNeeded, List.foldl_cons, Nat.max_eq_left (varBound_le_iff.mpr here)]
    exact ih declared

/-- A formula is the formula of its clauses. -/
theorem ofClauses_eq (f : Formula) : ofClauses f.numVariables f.clauses = f :=
  ext (variablesNeeded_eq f.declared) rfl

end Formula

end ClauseLearning
