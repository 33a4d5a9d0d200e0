import ClauseLearning.Logic.Pigeonhole
import ClauseLearning.Proofs.Solving

/-! No search meets a fault. In every reachable state the indices that the phase
goes by lead to living clauses, every allowed step succeeds, a restart leaves
learned clauses within the limit only, and a complete assignment gives a model. -/
namespace ClauseLearning

namespace State

/-- The tables have a place for every literal, and the indices that are looked up
lead to living clauses: those in watch lists, of antecedents, of waiting literals
and of the conflict. Learned literals are false, one of them since the current level. -/
structure Intact (s : State) (phase : Phase) : Prop where
  assignment : s.trail.assignment.numVariables = s.numVariables
  watchers : s.store.watchers.lists.size = 2 * s.numVariables
  clauses : ∀ i c, s.store.clause? i = some c →
    c.literals ≠ [] ∧ ∀ l ∈ c.literals, l.var < s.numVariables
  watching : ∀ l i, i ∈ s.store.watchers.of l ↔
    ∃ c, s.store.clause? i = some c ∧ l ∈ c.watched
  watchingOnce : ∀ l, (s.store.watchers.of l).Nodup
  antecedents : ∀ l ∈ s.trail.newestFirst, ∀ i, s.trail.reason l = some i →
    ∃ c, s.store.clause? i = some c ∧ l ∈ c.literals
  waiting : phase = .propagating → ∀ i l, (i, l) ∈ s.queue →
    ∃ c, s.store.clause? i = some c ∧ l ∈ c.literals
  conflict : ∀ i, phase = .analyzing i → ∃ c, s.store.clause? i = some c
  learned : ∀ l, phase = .backjumping l ∨ phase = .restarting l → l.Fits s.trail

variable {s : State} {phase : Phase}

theorem Poised.intact (poised : s.Poised phase) : s.Intact phase := by
  obtain ⟨coherent, -, suits⟩ := poised
  exact {
    assignment := coherent.declared
    watchers := coherent.store.sized
    clauses := by
      intro i c living
      have proper := coherent.store.proper i c living
      exact ⟨proper.ne_nil, proper.declared⟩
    watching := coherent.store.listed
    watchingOnce := coherent.store.listedOnce
    antecedents := by
      intro l member i known
      obtain ⟨newer, older, split⟩ := List.append_of_mem member
      obtain ⟨c, living, inside, -⟩ := coherent.explained newer l older i split known
      exact ⟨c, living, inside⟩
    waiting := by
      rintro rfl i l waits
      have quiet : s.Quiet := suits
      obtain ⟨c, living, inside, -⟩ := quiet.queued i l waits
      exact ⟨c, living, inside⟩
    conflict := by
      rintro i rfl
      obtain ⟨c, living, -⟩ := suits
      exact ⟨c, living⟩
    learned := by
      rintro l (rfl | rfl)
      · exact suits.fits
      · exact suits.fits }

/-- After a restart the learned clauses are those within the limit that held before. -/
theorem keeps_of_mem_restart (consistent : s.store.Consistent s.numVariables)
    (member : i ∈ s.restart.store.learned) :
    ∃ c, s.restart.store.clause? i = some c ∧ s.schedule.keeps c.blockDistance = true := by
  let keep := fun c : Clause => s.schedule.keeps c.blockDistance
  obtain ⟨pruned, clauses⟩ := ClauseStore.prune_consistent consistent keep
  have stored : s.restart.store = (s.store.prune keep).2 := rfl
  rw [stored] at member ⊢
  obtain ⟨c, living, isLearned⟩ := (pruned.learned i).mp member
  refine ⟨c, living, ?_⟩
  rw [clauses i] at living
  have kept := (Option.filter_eq_some_iff.mp living).2
  simpa [isLearned] using kept

/-- Storing what was learned and restarting leaves nothing waiting, and learned
clauses within the limit only. -/
theorem Poised.restart_within (poised : s.Poised (.restarting l)) :
    ∃ index t, s.learn l = .ok (index, t) ∧ t.restart.queue = [] ∧
      ∀ i ∈ t.restart.store.learned, ∃ c, t.restart.store.clause? i = some c ∧
        s.schedule.keeps c.blockDistance = true := by
  obtain ⟨coherent, -, learns⟩ := poised
  obtain ⟨index, store, inserted, consistent, -, -⟩ :=
    ClauseStore.insert_consistent coherent.store (learns.fits.proper coherent.declared)
  refine ⟨index, _, by unfold learn; rw [inserted], rfl, ?_⟩
  intro i member
  exact keeps_of_mem_restart consistent member

end State

variable {f : Formula} {o : Options} {numbers : List Int} {assumed : List Literal}

/-- Loading, assuming and every allowed step succeed in every reachable state, whose
indices are intact; solving ends without a fault. -/
theorem search_meets_no_fault
    (accepted : numbers.mapM (Solver.assumption f.numVariables) = .ok assumed) :
    (∃ s answer t, State.ofFormula f o = .ok s ∧
      { s with assumptions := assumed }.assume = .ok (answer, t)) ∧
    (∀ phase s, Reachable f o assumed phase s → s.Intact phase ∧
      ∀ choice, s.Allows phase choice → ∃ next t, s.advance choice phase = .ok (next, t)) ∧
    (∀ l s, Reachable f o assumed (.restarting l) s →
      ∃ index t, s.learn l = .ok (index, t) ∧ t.restart.queue = [] ∧
        ∀ i ∈ t.restart.store.learned, ∃ c, t.restart.store.clause? i = some c ∧
          s.schedule.keeps c.blockDistance = true) ∧
    (∀ s, Reachable f o assumed .satisfied s →
      ∃ m, s.model = .ok m ∧ m.literals.length = f.numVariables) ∧
    ∀ fault, solve f o numbers ≠ .error (.broken fault) := by
  have declared := Solver.declared_of_accepted accepted
  refine ⟨?_, ?_, ?_, ?_, ?_⟩
  · obtain ⟨s, loaded, loading⟩ := State.ofFormula_spec f o
    obtain ⟨answer, t, ran, -⟩ := assume_spec loading declared
    exact ⟨s, answer, t, loaded, ran⟩
  · intro phase s reachable
    obtain ⟨poised, -, -⟩ := reachable.invariant declared
    refine ⟨poised.intact, fun choice allowed => ?_⟩
    obtain ⟨next, t, ran, -⟩ := State.advance_spec poised allowed
    exact ⟨next, t, ran⟩
  · intro l s reachable
    obtain ⟨poised, -, -⟩ := reachable.invariant declared
    exact poised.restart_within
  · intro s reachable
    obtain ⟨poised, -, founded⟩ := reachable.invariant declared
    obtain ⟨m, model, solves⟩ := founded.exists_model poised
    exact ⟨m, model, solves.length⟩
  · intro fault broken
    rcases solve_spec (o := o) accepted with ⟨problem, -, refused⟩ | ⟨outcome, solved, -⟩
    · cases broken.symm.trans refused
    · cases broken.symm.trans solved

/-- Two pigeons and two holes, with the first pigeon in the second hole: the search
starts, and its first step succeeds on an intact state. -/
theorem search_meets_no_fault_pigeonhole :
    [2].mapM (Solver.assumption (Pigeonhole.formula 2 2).numVariables) = .ok [⟨1, true⟩] ∧
    ∃ s next t, Reachable (Pigeonhole.formula 2 2) {} [⟨1, true⟩] .propagating s ∧
      s.Intact .propagating ∧ s.advance none .propagating = .ok (next, t) := by
  have accepted :
      [2].mapM (Solver.assumption (Pigeonhole.formula 2 2).numVariables) = .ok [⟨1, true⟩] := rfl
  have satisfiable : (Pigeonhole.formula 2 2).SatisfiableWith [⟨1, true⟩] :=
    ⟨fun var => var == 1 || var == 2, by decide, by decide⟩
  obtain ⟨s, t, loaded, nonempty, held⟩ :=
    exists_start {} (Solver.declared_of_accepted accepted) satisfiable
  have reachable : Reachable (Pigeonhole.formula 2 2) {} [⟨1, true⟩] .propagating t :=
    .start loaded nonempty held
  obtain ⟨intact, steps⟩ := (search_meets_no_fault accepted).2.1 .propagating t reachable
  obtain ⟨next, u, ran⟩ := steps none nofun
  exact ⟨accepted, t, next, u, reachable, intact, ran⟩

end ClauseLearning
