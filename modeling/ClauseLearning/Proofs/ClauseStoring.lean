import ClauseLearning.Proofs.UnitPropagation

/-! Storing one more clause, learned or of the formula. The invariant asks that no
watch of it is false below the current level; a watch that is false at the
current level must wait in the queue, and so must a clause of one literal. -/
namespace ClauseLearning.State

variable {s t : State} {store : ClauseStore} {c : Clause}

/-- Storing a clause keeps the invariant if its watches are guarded. -/
theorem Coherent.stored (coherent : s.Coherent)
    (consistent : store.Consistent s.numVariables) (absent : s.store.clause? index = none)
    (clauses : ∀ j, store.clause? j = if j = index then some c else s.store.clause? j)
    (guarded : ∀ w ∈ c.watched, ∀ k, s.trail.TrueAt w.negate k → ¬ k < s.level)
    (fact : 0 < s.level → ∀ m, c.literals ≠ [m]) : Coherent { s with store := store } where
  declared := coherent.declared
  trail := coherent.trail
  store := consistent
  explained := by
    intro newer m older i split known
    obtain ⟨d, living, rest⟩ := coherent.explained newer m older i split known
    refine ⟨d, (clauses i).trans ?_, rest⟩
    rw [if_neg, living]
    rintro rfl
    rw [absent] at living
    cases living
  guarded := by
    intro i d w k living watched fails below
    have living' := (clauses i).symm.trans living
    split at living'
    · cases living'
      exact absurd below (guarded w watched k fails)
    · exact coherent.guarded i d w k living' watched fails below
  facts := by
    intro above i d m living single
    have living' := (clauses i).symm.trans living
    split at living'
    · cases living'
      exact absurd single (fact above m)
    · exact coherent.facts above i d m living' single

/-- Nothing is overlooked with one more clause, if that clause is attended to. -/
theorem Quiet.stored (quiet : s.Quiet)
    (clauses : ∀ j, store.clause? j = if j = index then some c else s.store.clause? j)
    (absent : s.store.clause? index = none) (more : List (Nat × Literal))
    (attended : ∀ w ∈ c.watched, s.trail.TrueAt w.negate s.level → ∃ o ∈ c.watched,
      (index, o) ∈ more ∧ s.trail.value? o = none ∧
        ∀ m ∈ c.literals, m ≠ o → s.trail.value? m = some false)
    (unit : s.level = 0 → ∀ m, c.literals = [m] → (index, m) ∈ more)
    (queued : ∀ i m, (i, m) ∈ more → i = index ∧ m ∈ c.literals ∧
      ∀ o ∈ c.literals, o ≠ m → s.trail.value? o = some false) :
    Quiet { s with store := store, queue := s.queue ++ more } where
  attended := by
    intro i d w living watched fails
    have living' := (clauses i).symm.trans living
    split at living'
    · rename_i here
      subst here
      cases living'
      obtain ⟨o, other, waits, rest⟩ := attended w watched fails
      exact .inr ⟨o, other, List.mem_append_right _ waits, rest⟩
    · rcases quiet.attended i d w living' watched fails with
        satisfied | ⟨o, other, waits, rest⟩
      · exact .inl satisfied
      · exact .inr ⟨o, other, List.mem_append_left _ waits, rest⟩
  units := by
    intro ground i d m living single
    have living' := (clauses i).symm.trans living
    split at living'
    · rename_i here
      subst here
      cases living'
      exact .inr (List.mem_append_right _ (unit ground m single))
    · exact (quiet.units ground i d m living' single).imp_right (List.mem_append_left _)
  queued := by
    intro i m member
    rcases List.mem_append.mp member with before | new
    · obtain ⟨d, living, rest⟩ := quiet.queued i m before
      refine ⟨d, (clauses i).trans ?_, rest⟩
      rw [if_neg, living]
      rintro rfl
      rw [absent] at living
      cases living
    · obtain ⟨rfl, inside, others⟩ := queued i m new
      exact ⟨c, (clauses i).trans (if_pos rfl), inside, others⟩

theorem Keeps.stored (keeps : s.Keeps t)
    (clauses : ∀ j, store.clause? j = if j = index then some c else t.store.clause? j)
    (absent : t.store.clause? index = none) : s.Keeps { t with store := store } where
  numVariables := keeps.numVariables
  inputs := by
    intro i d living input
    obtain ⟨d', living', same⟩ := keeps.inputs i d living input
    refine ⟨d', (clauses i).trans ?_, same⟩
    rw [if_neg, living']
    rintro rfl
    rw [absent] at living'
    cases living'
  facts := keeps.facts

theorem Admits.stored (admits : s.Admits w)
    (clauses : ∀ j, store.clause? j = if j = index then some c else s.store.clause? j)
    (holds : ClauseHolds w c.literals) : Admits { s with store := store } w := by
  refine ⟨fun i d living => ?_, admits.2⟩
  have living' := (clauses i).symm.trans living
  split at living'
  · cases living'
    exact holds
  · exact admits.1 i d living'

end ClauseLearning.State
