import ClauseLearning.Logic.Literal
import ClauseLearning.Logic.SortedSet

/-!
Clauses as sets of literals: sorted by code, without repetitions. In that form a tautology shows
by two complementary literals next to each other.
-/

namespace ClauseLearning

/-- The literals of a clause in increasing order, each once. -/
def normalForm (clause : List Literal) : List Literal :=
  SortedSet.ofList Literal.precedes clause

/-- Whether a clause contains a literal and its negation, and so holds whatever the valuation. -/
def isTautology (clause : List Literal) : Bool :=
  clause.any fun l => clause.contains l.negate

/-- Whether a literal stands right next to its negation. -/
def hasOpposedNeighbors : List Literal → Bool
  | first :: second :: rest =>
    decide (first = second.negate) || hasOpposedNeighbors (second :: rest)
  | [] | [_] => false

theorem Literal.eq_of_not_precedes {a b : Literal} (hab : a.precedes b = false)
    (hba : b.precedes a = false) : a = b := by
  simp only [precedes, decide_eq_false_iff_not, Nat.not_lt] at hab hba
  exact code_inj.1 (Nat.le_antisymm hba hab)

@[simp] theorem mem_normalForm {clause : List Literal} {l : Literal} :
    l ∈ normalForm clause ↔ l ∈ clause := by
  induction clause with
  | nil => rfl
  | cons first rest ih =>
    rw [normalForm, SortedSet.ofList, List.foldr_cons,
      SortedSet.mem_insert fun _ _ => Literal.eq_of_not_precedes, List.mem_cons]
    exact or_congr Iff.rfl ih

end ClauseLearning
