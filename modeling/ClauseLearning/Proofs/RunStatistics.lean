import ClauseLearning.Proofs.RunStates

/-! The counters account for the run. Each step counts what it does, so at every turn the learned
clauses that were not deleted are those that live, and each backjump or restart has left a level
that a decision opened. When the search ends, every conflict was answered by a backjump or a
restart with one clause learned, except the conflict at level 0 that ends a refutation. -/
namespace ClauseLearning

variable {f : Formula} {o : Options} {assumed : List Literal} {s t : State} {phase next : Phase}
  {choice : Option Literal} {l : Literal}

/-! ## Learned clauses -/

namespace ClauseStore

variable {s t : ClauseStore} {m n : Nat}

theorem holdsAt_iff {p : Clause → Bool} :
    s.holdsAt p i = true ↔ ∃ c, s.clause? i = some c ∧ p c = true := by
  unfold holdsAt
  cases s.clause? i <;> simp

/-- The list of learned clauses is as long as there are learned clauses. -/
theorem InStep.length_learned (inStep : s.InStep n) :
    s.learned.length = s.clauses.countP Clause.isLearned := by
  have counted : s.clauses.countP Clause.isLearned
      = (List.range s.slots.size).countP (s.holdsAt Clause.isLearned) := by
    rw [clauses_eq_filterMap, List.countP_filterMap]
    refine List.countP_congr fun i _ => ?_
    rw [holdsAt_iff]
    cases s.clause? i <;> simp
  rw [counted, List.countP_eq_length_filter]
  refine ((List.perm_ext_iff_of_nodup inStep.learnedOnce
    (List.nodup_range.filter _)).mpr fun i => ?_).length_eq
  rw [inStep.learned i, List.mem_filter, List.mem_range, holdsAt_iff]
  exact ⟨fun living => ⟨lt_of_clause? living.choose_spec.1, living⟩, And.right⟩

theorem Rearranged.length_learned (same : Rearranged s t) (inStep : s.InStep n)
    (inStep' : t.InStep m) : t.learned.length = s.learned.length := by
  refine ((List.perm_ext_iff_of_nodup inStep'.learnedOnce inStep.learnedOnce).mpr
    fun i => ?_).length_eq
  rw [inStep'.learned i, inStep.learned i]
  exact same.learned_iff

theorem InStep.length_prune (inStep : s.InStep n) (keep : Clause → Bool) :
    (s.prune keep).1.length + (s.prune keep).2.learned.length = s.learned.length := by
  have opposite : (s.prune keep).1 = s.learned.filter fun i => !s.holdsAt keep i := by
    refine List.filter_congr fun i member => ?_
    obtain ⟨c, living, -⟩ := (inStep.learned i).mp member
    rw [holdsAt_of_clause? living, holdsAt_of_clause? living]
  rw [opposite, learned_prune, Nat.add_comm]
  exact (List.length_eq_length_filter_add _).symm

end ClauseStore

/-! ## What each step counts -/

namespace State

/-- What a step in a phase counts. -/
def Counts (s t : State) (next : Phase) : Phase → Prop
  | .propagating => ∃ units, t.statistics = { s.statistics with
      unitPropagations := units
      conflicts := s.statistics.conflicts + if next.isCalm then 0 else 1 }
  | .deciding => t.statistics = { s.statistics with
      decisions := s.statistics.decisions + 1
      conflicts := s.statistics.conflicts + if next.isCalm then 0 else 1 }
  | .backjumping _ => t.statistics = { s.statistics with
      backjumps := s.statistics.backjumps + 1
      learnedClauses := s.statistics.learnedClauses + 1 } ∧
    t.store.learned.length = s.store.learned.length + 1
  | .restarting _ => ∃ deleted, t.statistics = { s.statistics with
      restarts := s.statistics.restarts + 1
      learnedClauses := s.statistics.learnedClauses + 1
      deletedClauses := s.statistics.deletedClauses + deleted } ∧
    deleted + t.store.learned.length = s.store.learned.length + 1
  | _ => t.statistics = s.statistics

theorem assign_statistics (ran : s.assign l antecedent = .ok (status, t)) :
    t.statistics = s.statistics := by
  unfold assign at ran
  split at ran
  · cases ran
  · split at ran
    · cases ran
    · simp only at ran
      split at ran
      · cases ran
      · cases ran
        rfl

theorem assumeAll_statistics {literals : List Literal}
    (ran : assumeAll literals s = .ok (answer, t)) : t.statistics = s.statistics := by
  fun_induction assumeAll literals s with
  | case1 s | case3 l rest s =>
    cases ran
    rfl
  | case2 l rest s holds ih => exact ih ran
  | case4 => cases ran
  | case5 l rest s free index u assigned =>
    cases ran
    exact assign_statistics assigned
  | case6 l rest s free u assigned ih => exact (ih ran).trans (assign_statistics assigned)

theorem assignUnit_statistics (ran : s.assignUnit index l = .ok (status, t)) :
    ∃ units, t.statistics = { s.statistics with unitPropagations := units } := by
  unfold assignUnit at ran
  split at ran
  · cases ran
  · have same := assign_statistics ran
    exact ⟨_, same⟩

/-- Propagation counts the literals it assigns and nothing else. -/
theorem propagate_statistics (ran : s.propagate = .ok (status, t)) :
    ∃ units, t.statistics = { s.statistics with unitPropagations := units } := by
  fun_induction propagate s with
  | case1 s asked =>
    cases ran
    exact ⟨_, rfl⟩
  | case2 s index rest asked =>
    cases ran
    exact ⟨_, rfl⟩
  | case3 => cases ran
  | case4 s index l rest asked index' u assigned =>
    cases ran
    obtain ⟨units, counted⟩ := assignUnit_statistics assigned
    exact ⟨units, counted⟩
  | case5 s index l rest asked u assigned ih =>
    obtain ⟨units, first⟩ := assignUnit_statistics assigned
    obtain ⟨units', rest⟩ := ih ran
    exact ⟨units', by rw [rest, first]⟩

theorem decide_statistics (ran : s.decide l = .ok (status, t)) :
    t.statistics = { s.statistics with decisions := s.statistics.decisions + 1 } :=
  assign_statistics ran

theorem insert_learned (learned : Learned)
    (stored : s.store.insert learned.clause = .ok (index, u)) :
    u.learned.length = s.store.learned.length + 1 := by
  obtain ⟨-, -, -, list⟩ := ClauseStore.placed_of_insert stored
  rw [list]
  simp [Learned.clause, Clause.isLearned]

theorem backjump_counts {learned : Learned} (ran : s.backjump learned = .ok (next, t)) :
    s.Counts t next (.backjumping learned) := by
  unfold backjump learn at ran
  simp only at ran
  split at ran
  · cases ran
  · rename_i stored
    split at stored
    · cases stored
    · rename_i inserted
      cases stored
      cases ran
      exact ⟨rfl, insert_learned (s := s) learned inserted⟩

theorem startOver_counts {learned : Learned} (coherent : s.Coherent)
    (fits : learned.Fits s.trail) (ran : s.startOver learned = .ok (next, t)) :
    s.Counts t next (.restarting learned) := by
  obtain ⟨index, store, inserted, consistent, -⟩ :=
    ClauseStore.insert_consistent coherent.store (fits.proper coherent.declared)
  have longer := insert_learned learned inserted
  have pruned := consistent.toInStep.length_prune fun c => s.schedule.keeps c.blockDistance
  unfold startOver learn at ran
  rw [inserted] at ran
  simp only at ran
  refine ⟨(store.prune fun c => s.schedule.keeps c.blockDistance).1.length, ?_⟩
  split at ran
  · cases ran
    exact ⟨rfl, pruned.trans longer⟩
  · cases ran
    exact ⟨rfl, pruned.trans longer⟩

/-- A conflict that assigning meets is counted, and then the search is not calm any more. -/
theorem statistics_of_afterAssigning {calm : State → Phase}
    {assigned : Except Fault (Status × State)} (isCalm : ∀ s, (calm s).isCalm = true)
    (ran : assigned.map (afterAssigning calm) = .ok (next, t)) :
    ∃ status u, assigned = .ok (status, u) ∧ t.statistics = { u.statistics with
      conflicts := u.statistics.conflicts + if next.isCalm then 0 else 1 } := by
  cases assigned with
  | error fault => cases ran
  | ok result =>
    obtain ⟨status, u⟩ := result
    refine ⟨status, u, rfl, ?_⟩
    cases status with
    | conflict index =>
      cases ran
      rfl
    | consistent =>
      cases ran
      simp [isCalm]

theorem counts_of_advance (poised : s.Poised phase) (allowed : s.Allows phase choice)
    (ran : s.advance choice phase = .ok (next, t)) : s.Counts t next phase := by
  cases phase with
  | propagating =>
    obtain ⟨status, u, propagated, counted⟩ :=
      statistics_of_afterAssigning (fun u => by split <;> rfl) ran
    obtain ⟨units, assigned⟩ := propagate_statistics propagated
    rw [assigned] at counted
    exact ⟨units, counted⟩
  | deciding =>
    obtain ⟨l, rfl, -⟩ := allowed rfl
    obtain ⟨status, u, decided, counted⟩ := statistics_of_afterAssigning (fun _ => rfl) ran
    rw [decide_statistics decided] at counted
    exact counted
  | analyzing index =>
    change s.analyzeConflict index = .ok (next, t) at ran
    unfold analyzeConflict at ran
    split at ran
    · cases ran
    · cases ran
      rfl
    · cases ran
      rfl
  | backjumping learned => exact backjump_counts ran
  | restarting learned => exact startOver_counts poised.coherent poised.suits.fits ran
  | satisfied | unsatisfiable =>
    cases ran
    rfl

/-! ## The account along a run -/

/-- The counters account for the state of a search in a phase. -/
structure Accounted (s : State) (phase : Phase) : Prop where
  living : s.statistics.learnedClauses = s.statistics.deletedClauses + s.store.learned.length
  levels : s.level + s.statistics.backjumps + s.statistics.restarts ≤ s.statistics.decisions
  answered : s.statistics.learnedClauses = s.statistics.backjumps + s.statistics.restarts
  conflicts : s.statistics.conflicts
    = s.statistics.learnedClauses + if phase.isCalm then 0 else 1

/-- Only a decision opens a level, and it opens one. -/
theorem Advanced.level_le (advanced : s.Advanced phase t next) :
    t.level ≤ s.level + if phase = .deciding then 1 else 0 := by
  by_contra above
  obtain ⟨deciding, level, -⟩ := advanced.continues.opened (by unfold level at above; omega)
  rw [if_pos deciding] at above
  exact above level.le

/-- A backjump or a restart leaves the current level. -/
theorem Advanced.level_lt {l : Learned} (advanced : s.Advanced phase t next)
    (poised : s.Poised phase) (answers : phase = .backjumping l ∨ phase = .restarting l) :
    t.level < s.level := by
  rcases answers with rfl | rfl
  · have below := poised.suits.fits.below
    have level : t.level = l.returnLevel := by
      rw [State.level, advanced.moves.2.1]
      exact Trail.level_backTo_of_le (Nat.le_of_lt below)
    exact level ▸ below
  · have below := poised.suits.fits.below
    obtain ⟨index, starts⟩ := advanced.stores
    obtain ⟨deleted, trail, -⟩ := starts.trail
    have level : t.level = 0 := by
      rw [State.level, trail]
      exact Trail.level_backTo_of_le (Nat.zero_le _)
    exact level ▸ Nat.zero_lt_of_lt below

/-- A step keeps the account: what it counts is what it does to levels and clauses. -/
theorem Accounted.step (accounted : s.Accounted phase) (poised : s.Poised phase)
    (advanced : s.Advanced phase t next) (counts : s.Counts t next phase) :
    t.Accounted next := by
  obtain ⟨living, levels, answered, conflicts⟩ := accounted
  have level := advanced.level_le
  have same : ClauseStore.Rearranged s.store t.store →
      t.store.learned.length = s.store.learned.length := fun stores =>
    stores.length_learned poised.coherent.store.toInStep advanced.poised.coherent.store.toInStep
  cases phase with
  | propagating =>
    obtain ⟨units, counted⟩ := counts
    have stores := same advanced.stores
    simp only [Phase.isCalm, if_true, reduceCtorEq, if_false] at conflicts level
    refine ⟨?_, ?_, ?_, ?_⟩ <;> simp only [counted] <;> omega
  | deciding =>
    have counted : t.statistics = _ := counts
    have stores := same advanced.stores
    simp only [Phase.isCalm, if_true] at conflicts level
    refine ⟨?_, ?_, ?_, ?_⟩ <;> simp only [counted] <;> omega
  | analyzing index =>
    have counted : t.statistics = s.statistics := counts
    have stores := same advanced.stores
    have pending : next.isCalm = false := by
      obtain ⟨-, ⟨rfl, -⟩ | ⟨l, rfl, -⟩⟩ := advanced.moves
      · rfl
      · split <;> rfl
    simp only [Phase.isCalm, reduceCtorEq, if_false] at conflicts level
    refine ⟨?_, ?_, ?_, ?_⟩ <;>
      simp only [counted, pending, Bool.false_eq_true, if_false] <;> omega
  | backjumping l =>
    obtain ⟨counted, longer⟩ := counts
    have lower := advanced.level_lt poised (.inl rfl)
    obtain ⟨-, -, -, rfl⟩ := advanced.moves
    simp only [Phase.isCalm, Bool.false_eq_true, if_false] at conflicts
    refine ⟨?_, ?_, ?_, ?_⟩ <;> simp only [counted, Phase.isCalm, if_true] <;> omega
  | restarting l =>
    obtain ⟨deleted, counted, longer⟩ := counts
    have lower := advanced.level_lt poised (.inr rfl)
    obtain ⟨-, rfl⟩ := advanced.moves
    simp only [Phase.isCalm, Bool.false_eq_true, if_false] at conflicts
    refine ⟨?_, ?_, ?_, ?_⟩ <;> simp only [counted, Phase.isCalm, if_true] <;> omega
  | satisfied | unsatisfiable =>
    obtain ⟨rfl, rfl⟩ := advanced.moves
    exact ⟨living, levels, answered, conflicts⟩

end State

theorem statistics_of_assume (loaded : State.ofFormula f o = .ok s)
    (ran : { s with assumptions := assumed }.assume = .ok (answer, t)) : t.statistics = {} := by
  have fresh := State.statistics_of_ofFormula loaded
  unfold State.assume at ran
  have kept := State.assumeAll_statistics ran
  exact kept.trans fresh

/-- The counters account for every state that is reached. -/
theorem Reachable.accounted (reachable : Reachable f o assumed phase s)
    (declared : ∀ l ∈ assumed, l.var < f.numVariables) : s.Accounted phase := by
  induction reachable with
  | @start s t loaded nonempty held =>
    have loading := State.loaded_of_ofFormula loaded
    have begun := begun_of_assume loaded declared held
    have nothing : t.statistics = {} := statistics_of_assume loaded held
    have none_ : s.store.learned = [] := by
      refine List.eq_nil_iff_forall_not_mem.mpr fun i member => ?_
      obtain ⟨c, living, learned⟩ := (loading.coherent.store.learned i).mp member
      exact Bool.false_ne_true ((loading.inputs i c living).symm.trans learned)
    have fresh : t.store.learned.length = 0 := by
      rw [begun.rearranged.length_learned loading.coherent.store.toInStep
        begun.coherent.store.toInStep, none_, List.length_nil]
    refine ⟨?_, ?_, ?_, ?_⟩
    · rw [nothing, fresh]
    · rw [nothing, begun.ground]
      exact Nat.le_refl 0
    · rw [nothing]
      rfl
    · rw [nothing]
      rfl
  | step reached allowed ran ih =>
    have poised := (reached.invariant declared).1
    exact ih.step poised (poised.advanced allowed ran)
      (State.counts_of_advance poised allowed ran)

/-! ## The account at the end -/

/-- What the counters of an ended search say about its answer. -/
structure Statistics.Settle (f : Formula) (o : Options) (assumed : List Literal)
    (verdict : Verdict) (n : Statistics) : Prop where
  learned : n.learnedClauses = n.backjumps + n.restarts
  sat : verdict.isSat = true → n.conflicts = n.learnedClauses
  unsat : verdict.isSat = false →
    (State.start? f o assumed ≠ none ∧ n.conflicts = n.learnedClauses + 1) ∨
      (State.start? f o assumed = none ∧ n = {})

theorem Reachable.exists_start? (reachable : Reachable f o assumed phase s) :
    State.start? f o assumed ≠ none := by
  induction reachable with
  | start loaded nonempty held =>
    rw [State.start?_eq_some_iff.mpr ⟨rfl, _, loaded, nonempty, held⟩]
    exact Option.some_ne_none _
  | step _ _ _ ih => exact ih

theorem Ends.settle (ends : Ends f o assumed verdict s)
    (declared : ∀ l ∈ assumed, l.var < f.numVariables) :
    s.statistics.Settle f o assumed verdict := by
  cases ends with
  | emptyClause loaded empty =>
    have nothing := State.statistics_of_ofFormula loaded
    have never : State.start? f o assumed = none := by simp [State.start?, loaded, empty]
    exact ⟨by rw [nothing]; rfl, nofun, fun _ => .inr ⟨never, nothing⟩⟩
  | assumptionsFail loaded nonempty failed notHeld =>
    have nothing := statistics_of_assume loaded failed
    have never : State.start? f o assumed = none := by
      refine Option.eq_none_iff_forall_ne_some.mpr ?_
      rintro ⟨phase, u⟩ started
      obtain ⟨-, s', loaded', -, held⟩ := State.start?_eq_some_iff.mp started
      cases loaded.symm.trans loaded'
      cases failed.symm.trans held
      exact notHeld rfl
    exact ⟨by rw [nothing]; rfl, nofun, fun _ => .inr ⟨never, nothing⟩⟩
  | satisfied reached model =>
    have accounted := reached.accounted declared
    exact ⟨accounted.answered, fun _ => accounted.conflicts, nofun⟩
  | refuted reached =>
    have accounted := reached.accounted declared
    exact ⟨accounted.answered, nofun, fun _ => .inl ⟨reached.exists_start?, accounted.conflicts⟩⟩

/-- At every turn of a run the counters account for the learned clauses that live and for the
levels that are open. When a search ends, every conflict was answered with one clause, except the
last one of a refutation; and where no search started nothing is counted. Solving reports how such
a search ended. -/
theorem statistics_account_for_the_run {numbers : List Int}
    (accepted : numbers.mapM (Solver.assumption f.numVariables) = .ok assumed) :
    (∀ phase s, Reachable f o assumed phase s →
      s.statistics.learnedClauses
        = s.statistics.deletedClauses + s.store.clauses.countP Clause.isLearned ∧
      s.level + s.statistics.backjumps + s.statistics.restarts ≤ s.statistics.decisions) ∧
    (∀ verdict s, Ends f o assumed verdict s → s.statistics.Settle f o assumed verdict) ∧
    ∀ outcome, solve f o numbers = .ok outcome → outcome.Reports f o assumed ∧
      outcome.statistics.Settle f o assumed outcome.verdict := by
  have declared := Solver.declared_of_accepted accepted
  refine ⟨fun phase s reached => ?_, fun _ _ ends => ends.settle declared, fun outcome solved => ?_⟩
  · have accounted := reached.accounted declared
    have coherent := (reached.invariant declared).1.coherent
    rw [← coherent.store.toInStep.length_learned]
    exact ⟨accounted.living, accounted.levels⟩
  · obtain ⟨s, ends, same⟩ := reports_of_solve accepted solved
    refine ⟨⟨s, ends, same⟩, ?_⟩
    rw [same]
    exact ends.settle declared

/-- After the first backjump one clause was learned, which lives, and two levels were opened. -/
theorem statistics_account_for_the_run_exclusive :
    [4].mapM (Solver.assumption exclusive.numVariables) = .ok [⟨3, true⟩] ∧
    (∃ phase s, Reachable exclusive {} [⟨3, true⟩] phase s ∧ s.statistics.backjumps = 1 ∧
      s.statistics.learnedClauses
        = s.statistics.deletedClauses + s.store.clauses.countP Clause.isLearned ∧
      s.level + s.statistics.backjumps + s.statistics.restarts ≤ s.statistics.decisions) ∧
    ∃ outcome, solve exclusive {} [4] = .ok outcome ∧ outcome.Reports exclusive {} [⟨3, true⟩] ∧
      outcome.statistics.Settle exclusive {} [⟨3, true⟩] outcome.verdict := by
  obtain ⟨turns, -, settles⟩ := statistics_account_for_the_run (o := {}) exclusive_accepted
  obtain ⟨phase, s, reached, shown⟩ := exists_exclusive
    (p := fun _ s => s.statistics.backjumps = 1) 7 (by decide +kernel)
  rcases solve_spec (o := {}) exclusive_accepted with ⟨problem, broken, -⟩ | ⟨outcome, solved, -⟩
  · cases broken
  · exact ⟨exclusive_accepted, ⟨phase, s, reached, of_decide_eq_true shown, turns phase s reached⟩,
      outcome, solved, settles outcome solved⟩

end ClauseLearning
