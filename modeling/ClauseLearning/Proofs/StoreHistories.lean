import ClauseLearning.Proofs.WatchIndex

/-! The clause store on its own, through any clauses stored and any prunings. Slots are
reused, but a clause keeps its index as long as it lives, the lists of the store say
exactly what lives where, and no slot is made as long as one is free. -/
namespace ClauseLearning

namespace ClauseStore

/-- A store over so many variables came to be by storing clauses and pruning, through these
stores, the newest first. -/
inductive History (n : Nat) : List ClauseStore → ClauseStore → Prop where
  | empty : History n [] (.empty n)
  | insert (history : History n past s) (storable : c.Storable n)
      (stored : s.insert c = .ok (index, t)) : History n (s :: past) t
  | prune (history : History n past s) (keep : Clause → Bool) :
      History n (s :: past) (s.prune keep).2

variable {s t : ClauseStore} {n : Nat} {past : List ClauseStore}

/-! ## The number of slots -/

/-- Every slot has a living clause or is free. -/
theorem Filed.length_clauses (filed : s.Filed n) :
    s.clauses.length + s.free.length = s.capacity := by
  have living : s.clauses.length
      = (List.range s.slots.size).countP fun i => (s.clause? i).isSome := by
    rw [clauses_eq_filterMap, List.length_filterMap_eq_countP]
    rfl
  have spare : s.free.length
      = (List.range s.slots.size).countP fun i => ¬ (s.clause? i).isSome := by
    rw [List.countP_eq_length_filter]
    refine ((List.perm_ext_iff_of_nodup filed.spareOnce
      (List.nodup_range.filter _)).mpr fun i => ?_).length_eq
    simp [filed.spare i]
  rw [living, spare, ← List.length_eq_countP_add_countP, List.length_range]
  rfl

theorem Filed.size_eq (filed : s.Filed n) : s.size = s.clauses.length := by
  have counted := filed.length_clauses
  unfold size capacity at *
  omega

theorem History.inStep (history : History n past s) : s.InStep n := by
  induction history with
  | empty => exact (empty_consistent n).toInStep
  | insert _ storable stored ih =>
    obtain ⟨_, _, stored', inStep, -⟩ := insert_inStep ih storable
    cases stored.symm.trans stored'
    exact inStep
  | prune _ keep ih => exact prune_inStep ih keep

/-- The largest number of clauses that lived at one of these moments. -/
def Peak (moments : List ClauseStore) (count : Nat) : Prop :=
  (∃ s ∈ moments, s.clauses.length = count) ∧ ∀ s ∈ moments, s.clauses.length ≤ count

/-- The peak stays if no slot is added; a slot is added only if all of them are in use. -/
theorem Peak.step (peak : Peak past s.capacity) (filed : t.Filed n)
    (grown : t.capacity = s.capacity ∨ s.capacity ≤ t.capacity ∧ t.free = []) :
    Peak (t :: past) t.capacity := by
  obtain ⟨⟨u, member, full⟩, bound⟩ := peak
  have counted := filed.length_clauses
  rcases grown with same | ⟨more, used⟩
  · refine ⟨⟨u, List.mem_cons_of_mem t member, full.trans same.symm⟩, ?_⟩
    refine List.forall_mem_cons.mpr ⟨by omega, fun u member => ?_⟩
    exact (bound u member).trans same.ge
  · rw [used, List.length_nil, Nat.add_zero] at counted
    refine ⟨⟨t, List.mem_cons_self, counted⟩, ?_⟩
    exact List.forall_mem_cons.mpr ⟨counted.le, fun u member => (bound u member).trans more⟩

theorem History.peak (history : History n past s) : Peak (s :: past) s.capacity := by
  induction history with
  | empty => exact ⟨⟨_, List.mem_cons_self, rfl⟩, by simp [clauses, capacity, ClauseStore.empty]⟩
  | @insert past s c index t history storable stored ih =>
    have history' := History.insert history storable stored
    refine ih.step history'.inStep.toFiled ?_
    obtain ⟨-, slots, free, -⟩ := placed_of_insert stored
    unfold place at slots free
    unfold capacity
    split at slots
    · exact .inl (by rw [slots, Array.size_setIfInBounds])
    · rename_i used
      refine .inr ⟨by rw [slots, Array.size_push]; omega, ?_⟩
      rw [free, used]
  | prune history keep ih =>
    exact ih.step (prune_inStep history.inStep keep).toFiled (.inl (capacity_prune _ keep))

/-! ## What the lists say -/

/-- The lists and numbers of a store say exactly which clauses live, and the capacity is the
largest number of clauses that ever lived. -/
structure Exact (past : List ClauseStore) (s : ClauseStore) : Prop where
  free : ∀ i, i ∈ s.free ↔ i < s.capacity ∧ s.clause? i = none
  freeOnce : s.free.Nodup
  learned : ∀ i, i ∈ s.learned ↔ ∃ c, s.clause? i = some c ∧ c.isLearned = true
  learnedOnce : s.learned.Nodup
  size : s.size = s.clauses.length
  capacity : Peak (s :: past) s.capacity
  watchers : s.Indexed

/-- One store comes from another by storing a clause at an index: nothing lived there, and
all other clauses are as they were. -/
structure Stores (s : ClauseStore) (c : Clause) (index : Nat) (t : ClauseStore) : Prop where
  fresh : s.clause? index = none
  clauses : ∀ i, t.clause? i = if i = index then some c else s.clause? i
  learned : t.learned = s.learned ++ if c.isLearned then [index] else []

/-- One store comes from another by deleting the learned clauses at these indices, which are
those that are not to be kept. -/
structure Prunes (s : ClauseStore) (keep : Clause → Bool) (deleted : List Nat) (t : ClauseStore) :
    Prop where
  clauses : ∀ i c, t.clause? i = some c ↔
    s.clause? i = some c ∧ (c.isLearned = true → keep c = true)
  rejected : ∀ i, i ∈ deleted ↔ ∃ c, s.clause? i = some c ∧ c.isLearned = true ∧ keep c = false
  inOrder : deleted.Sublist s.learned
  kept : t.learned.Sublist s.learned

theorem History.exact (history : History n past s) : s.Exact past where
  free := history.inStep.spare
  freeOnce := history.inStep.spareOnce
  learned := history.inStep.learned
  learnedOnce := history.inStep.learnedOnce
  size := history.inStep.toFiled.size_eq
  capacity := history.peak
  watchers := history.inStep.toFiled.indexed

theorem InStep.prunes (inStep : s.InStep n) (keep : Clause → Bool) :
    s.Prunes keep (s.prune keep).1 (s.prune keep).2 where
  clauses := by
    intro i c
    rw [clause?_prune inStep, Option.filter_eq_some_iff]
    cases c.isLearned <;> simp
  rejected := fun _ => mem_prune_iff inStep keep
  inOrder := List.filter_sublist
  kept := by
    rw [learned_prune]
    exact List.filter_sublist

/-- Whatever was stored and pruned, the lists of the store are exact; a clause that can be
stored is stored where none lives, and pruning deletes what it is asked to and nothing else. -/
theorem store_lists_are_exact (history : History n past s) :
    s.Exact past ∧
    (∀ c : Clause, c.Storable n → ∃ index t, s.insert c = .ok (index, t) ∧ s.Stores c index t) ∧
    ∀ keep, s.Prunes keep (s.prune keep).1 (s.prune keep).2 := by
  refine ⟨history.exact, fun c storable => ?_, history.inStep.prunes⟩
  obtain ⟨index, t, stored, -, fresh, clauses⟩ := insert_inStep history.inStep storable
  exact ⟨index, t, stored, fresh, clauses, (placed_of_insert stored).2.2.2⟩

/-- Of three clauses the last, which holds a literal and its negation, is pruned, and the next
clause gets its slot; then the other learned clause is pruned. -/
theorem store_lists_are_exact_reused : ∃ past s t,
    History 3 past s ∧ s.free = [2] ∧ s.learned = [1] ∧ s.size = 2 ∧ s.capacity = 3 ∧
    s.Exact past ∧ Clause.Storable ⟨[⟨2, false⟩], .learned 1⟩ 3 ∧
    s.insert ⟨[⟨2, false⟩], .learned 1⟩ = .ok (2, t) ∧
    s.Stores ⟨[⟨2, false⟩], .learned 1⟩ 2 t ∧ t.watchers.of ⟨2, false⟩ = [2] ∧
    t.Prunes (fun c => c.blockDistance ≤ 1) [1] (t.prune fun c => c.blockDistance ≤ 1).2 := by
  have first : Clause.Storable ⟨[⟨0, true⟩, ⟨1, true⟩, ⟨2, false⟩], .input⟩ 3 := by decide
  have second : Clause.Storable ⟨[⟨0, false⟩, ⟨1, true⟩], .learned 2⟩ 3 := by decide
  have third : Clause.Storable ⟨[⟨1, false⟩, ⟨1, true⟩], .learned 3⟩ 3 := by decide
  have fourth : Clause.Storable ⟨[⟨2, false⟩], .learned 1⟩ 3 := by decide
  have history := History.prune (.insert (.insert (.insert .empty first rfl) second rfl) third rfl)
    fun c => c.blockDistance ≤ 2
  obtain ⟨exact_, stores, -⟩ := store_lists_are_exact history
  obtain ⟨index, t, stored, storing⟩ := stores _ fourth
  obtain ⟨-, -, prunes⟩ := store_lists_are_exact (.insert history fourth stored)
  have pruned := prunes fun c => c.blockDistance ≤ 1
  cases stored
  exact ⟨_, _, _, history, rfl, rfl, rfl, rfl, exact_, fourth, rfl, storing, rfl, pruned⟩

end ClauseStore

end ClauseLearning
