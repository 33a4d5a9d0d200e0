import Mathlib.Data.List.Forall2
import ClauseLearning.Proofs.FormulaLoading

/-! What a formula becomes when the search for its models starts. Its clauses are stored in
their order and without gaps, each as an increasing set of literals, apart from those that
hold anyway and from empty ones, which are only noted; so what is stored means the same as
the formula. A clause of one literal, however often it is repeated, waits to be assigned. -/
namespace ClauseLearning

/-- A clause that is stored: it has a literal, and none along with its negation. -/
def Constrains (clause : List Literal) : Prop :=
  clause ≠ [] ∧ ∀ l ∈ clause, l.negate ∉ clause

instance (clause : List Literal) : Decidable (Constrains clause) :=
  inferInstanceAs (Decidable (_ ∧ _))

/-- A clause of the formula as it is stored: the set of its literals in increasing order. -/
structure Clause.IsSetOf (clause : List Literal) (c : Clause) : Prop where
  input : c.origin = .input
  same : ∀ l, l ∈ c.literals ↔ l ∈ clause
  increasing : c.literals.Pairwise (·.code < ·.code)

theorem isSetOf_normalForm (clause : List Literal) :
    Clause.IsSetOf clause ⟨normalForm clause, .input⟩ where
  input := rfl
  same := fun _ => mem_normalForm
  increasing := (normalForm_pairwise clause).imp of_decide_eq_true

theorem constrains_iff :
    Constrains clause ↔ normalForm clause ≠ [] ∧ isTautology (normalForm clause) = false := by
  rw [← Bool.not_eq_true, isTautology_iff]
  simp [Constrains, State.normalForm_eq_nil_iff]

namespace State

variable {s t : State} {clauses : List (List Literal)} {clause : List Literal} {store : ClauseStore}

/-- What loading these clauses has left in the state so far. -/
structure Represents (s : State) (clauses : List (List Literal)) : Prop where
  emptyClause : s.hasEmptyClause = true ↔ [] ∈ clauses
  stored : (clauses.filter Constrains).Forall₂ Clause.IsSetOf s.store.clauses
  slots : s.store.slots.toList = s.store.clauses.map some
  free : s.store.free = []
  units : ∀ i l, (i, l) ∈ s.queue ↔ s.store.clauses[i]? = some ⟨[l], .input⟩
  unitsInOrder : s.queue.Pairwise (·.1 < ·.1)

theorem blank_represents (n : Nat) (o : Options) : (blank n o).Represents [] where
  emptyClause := by simp [blank]
  stored := .nil
  slots := rfl
  free := rfl
  units := by simp [blank, ClauseStore.empty, ClauseStore.clauses]
  unitsInOrder := .nil

/-- Without gaps the index of a clause is its place in the order. -/
theorem Represents.clause?_eq (represents : s.Represents clauses) (i : Nat) :
    s.store.clause? i = s.store.clauses[i]? := by
  rw [ClauseStore.clause?, ← Array.getElem?_toList, represents.slots, List.getElem?_map]
  cases s.store.clauses[i]? <;> rfl

theorem Represents.skip (represents : s.Represents clauses) (skipped : ¬ Constrains clause) :
    Represents { s with hasEmptyClause := s.hasEmptyClause || clause.isEmpty }
      (clauses ++ [clause]) where
  emptyClause := by
    rw [Bool.or_eq_true, represents.emptyClause, List.isEmpty_iff, List.mem_append,
      List.mem_singleton, eq_comm (a := clause)]
  stored := by
    rw [List.filter_append, List.filter_singleton]
    simpa [skipped] using represents.stored
  slots := represents.slots
  free := represents.free
  units := represents.units
  unitsInOrder := represents.unitsInOrder

/-- A stored clause comes after all others, and what waits for it after all that waited. -/
theorem Represents.insert (represents : s.Represents clauses) (constrains : Constrains clause)
    (stored : s.store.insert ⟨normalForm clause, .input⟩ = .ok (index, store))
    (waits : ∀ i m, (i, m) ∈ waiting ↔ i = index ∧ normalForm clause = [m])
    (inOrder : waiting.Pairwise (·.1 < ·.1)) :
    Represents { s with store := store, queue := s.queue ++ waiting } (clauses ++ [clause]) := by
  obtain ⟨place, slots, free, -⟩ := ClauseStore.placed_of_insert stored
  simp only [ClauseStore.place, represents.free] at place slots free
  have more : store.clauses = s.store.clauses ++ [⟨normalForm clause, .input⟩] := by
    simp [ClauseStore.clauses, slots]
  have last : index = s.store.clauses.length := by
    rw [place, ← Array.length_toList, represents.slots, List.length_map]
  have earlier : ∀ i m, (i, m) ∈ s.queue → i < index := by
    intro i m member
    rw [last]
    exact (List.getElem?_eq_some_iff.mp ((represents.units i m).mp member)).1
  exact {
    emptyClause := by
      rw [List.mem_append, List.mem_singleton]
      exact represents.emptyClause.trans (or_iff_left constrains.1.symm).symm
    stored := by
      rw [List.filter_append, List.filter_singleton, more]
      simp only [constrains, decide_true, cond_true]
      exact List.rel_append represents.stored (.cons (isSetOf_normalForm clause) .nil)
    slots := by
      rw [more, slots, Array.toList_push, represents.slots, List.map_append]
      rfl
    free := free
    units := by
      intro i m
      rw [List.mem_append, more, waits]
      rcases Nat.lt_trichotomy i index with before | rfl | after
      · rw [List.getElem?_append_left (last ▸ before), represents.units]
        exact or_iff_left fun here => Nat.ne_of_lt before here.1
      · have absent : (i, m) ∉ s.queue := fun member => Nat.lt_irrefl i (earlier i m member)
        rw [last, List.getElem?_concat_length]
        simp [← last, absent]
      · have absent : (i, m) ∉ s.queue := fun member => Nat.lt_asymm after (earlier i m member)
        rw [List.getElem?_eq_none (by rw [List.length_append, List.length_singleton]; omega)]
        simp [absent, Nat.ne_of_gt after]
    unitsInOrder := by
      refine List.pairwise_append.mpr ⟨represents.unitsInOrder, inOrder, ?_⟩
      rintro ⟨i, l⟩ before ⟨j, m⟩ new
      exact ((waits j m).mp new).1 ▸ earlier i l before }

theorem Represents.addNormal (represents : s.Represents clauses)
    (added : s.addNormal (normalForm clause) = .ok t) : t.Represents (clauses ++ [clause]) := by
  unfold State.addNormal at added
  rw [hasOpposedNeighbors_normalForm] at added
  split at added
  · rename_i tautology
    cases added
    have skipped : ¬ Constrains clause := by simp [constrains_iff, tautology]
    have nonempty : clause ≠ [] := by
      rintro rfl
      cases tautology
    have represents' := represents.skip skipped
    rwa [List.isEmpty_eq_false_iff.mpr nonempty, Bool.or_false] at represents'
  · rename_i consistent
    split at added
    · rename_i empty
      cases added
      have skipped : ¬ Constrains clause := by simp [constrains_iff, empty]
      have represents' := represents.skip skipped
      rwa [List.isEmpty_iff.mpr (normalForm_eq_nil_iff.mp empty), Bool.or_true] at represents'
    · rename_i nonempty
      have constrains : Constrains clause :=
        constrains_iff.mpr ⟨nonempty, Bool.not_eq_true _ ▸ consistent⟩
      split at added
      · cases added
      · rename_i index store stored
        cases added
        split
        · rename_i only single
          exact represents.insert constrains stored (by simp [single, eq_comm]) (by simp)
        · rename_i several
          have noneWaits : ∀ i m, (i, m) ∈ ([] : List (Nat × Literal)) ↔
              i = index ∧ normalForm clause = [m] := by
            simpa using fun _ m _ single => several m single
          have represents' := represents.insert constrains stored noneWaits .nil
          rwa [List.append_nil] at represents'

/-- What is stored means the same as what was loaded. -/
theorem Loaded.holds_iff (loaded : s.Loaded n clauses) :
    (∀ clause ∈ clauses, ClauseHolds v clause) ↔
      s.hasEmptyClause = false ∧ ∀ i c, s.store.clause? i = some c → ClauseHolds v c.literals := by
  constructor
  · intro holds
    refine ⟨?_, (loaded.admits holds).1⟩
    rw [← Bool.not_eq_true, loaded.hasEmptyClause]
    intro member
    obtain ⟨l, inside, -⟩ := holds [] member
    cases inside
  · rintro ⟨nonempty, holds⟩ clause member
    rcases loaded.stored clause member with rfl | tautology | ⟨i, c, living, -, same⟩
    · rw [loaded.hasEmptyClause.mpr member] at nonempty
      cases nonempty
    · obtain ⟨l, inside, opposite⟩ := isTautology_iff.mp tautology
      by_cases holds : l.Holds v
      · exact ⟨l, mem_normalForm.mp inside, holds⟩
      · exact ⟨l.negate, mem_normalForm.mp opposite, Literal.holds_negate.mpr holds⟩
    · obtain ⟨l, inside, holds⟩ := holds i c living
      exact ⟨l, (same l).mp inside, holds⟩

end State

/-- Every formula can be loaded. What is stored and noted then means the same as the formula,
and it is, in order, the formula's clauses that constrain anything, as sets; the clauses with
only one literal wait, and nothing else does. -/
theorem loading_keeps_meaning (f : Formula) (o : Options) :
    ∃ s, Solver.ofFormula f o = .ok s ∧
      (∀ v, f.Holds v ↔ s.state.hasEmptyClause = false ∧
        ∀ i c, s.state.store.clause? i = some c → ClauseHolds v c.literals) ∧
      (s.state.hasEmptyClause = true ↔ [] ∈ f.clauses) ∧
      (f.clauses.filter Constrains).Forall₂ Clause.IsSetOf s.state.store.clauses ∧
      (∀ i, s.state.store.clause? i = s.state.store.clauses[i]?) ∧
      (∀ i l, (i, l) ∈ s.state.queue ↔ s.state.store.clause? i = some ⟨[l], .input⟩) ∧
      s.state.queue.Pairwise (·.1 < ·.1) := by
  let P (before : List (List Literal)) (s : State) : Prop :=
    s.Loaded f.numVariables before ∧ s.Represents before
  have start : P [] (.blank f.numVariables o) :=
    ⟨State.blank_loaded f.numVariables o, State.blank_represents f.numVariables o⟩
  obtain ⟨s, ran, loaded, represents⟩ := State.ofFormula_induction (P := P) f o start
    fun before clause s declared ⟨loaded, represents⟩ => by
      obtain ⟨t, added, loaded'⟩ := State.addNormal_spec loaded declared
      exact ⟨t, added, loaded', represents.addNormal added⟩
  refine ⟨⟨s, .start o f.numVariables s.store⟩, ?_, fun v => loaded.holds_iff,
    represents.emptyClause, represents.stored, represents.clause?_eq, ?_, represents.unitsInOrder⟩
  · rw [Solver.ofFormula, ran]
    rfl
  · intro i l
    rw [represents.clause?_eq]
    exact represents.units i l

/-- A clause with complementary literals is not stored, and a literal given three times waits. -/
example : (State.ofFormula (.ofClauses 2 [[⟨1, true⟩, ⟨0, true⟩, ⟨1, false⟩], [],
    [⟨1, true⟩, ⟨1, true⟩, ⟨1, true⟩]]) {}).toOption.any fun s =>
      s.hasEmptyClause ∧ s.store.clauses = [⟨[⟨1, true⟩], .input⟩] ∧
        s.queue = [(0, ⟨1, true⟩)] := by
  decide +kernel

end ClauseLearning
