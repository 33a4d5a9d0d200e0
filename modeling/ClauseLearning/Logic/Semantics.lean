import ClauseLearning.Logic.Formula

/-!
The meaning of literals, clauses and formulas under a total valuation. These predicates do not
mention the search at all: they are what its answers are measured against.
-/

namespace ClauseLearning

/-- A truth value for every variable. -/
abbrev Valuation := Nat → Bool

/-- A literal holds when its variable has the value that its polarity asks for. -/
def Literal.Holds (v : Valuation) (l : Literal) : Prop :=
  v l.var = l.positive

instance (v : Valuation) (l : Literal) : Decidable (l.Holds v) :=
  inferInstanceAs (Decidable (_ = _))

/-- A clause holds when one of its literals does. -/
def ClauseHolds (v : Valuation) (clause : List Literal) : Prop :=
  ∃ l ∈ clause, l.Holds v

instance (v : Valuation) (clause : List Literal) : Decidable (ClauseHolds v clause) :=
  inferInstanceAs (Decidable (∃ l ∈ clause, l.Holds v))

/-- A formula holds when all of its clauses do. -/
def Formula.Holds (v : Valuation) (f : Formula) : Prop :=
  ∀ clause ∈ f.clauses, ClauseHolds v clause

instance (v : Valuation) (f : Formula) : Decidable (f.Holds v) :=
  inferInstanceAs (Decidable (∀ clause ∈ f.clauses, ClauseHolds v clause))

/-- Some valuation makes the formula and all the assumed literals hold. -/
def Formula.SatisfiableWith (f : Formula) (assumed : List Literal) : Prop :=
  ∃ v, f.Holds v ∧ ∀ l ∈ assumed, l.Holds v

theorem Literal.holds_negate {v : Valuation} {l : Literal} : l.negate.Holds v ↔ ¬ l.Holds v := by
  cases l with
  | mk var positive => cases positive <;> simp [Holds, negate]

end ClauseLearning
