import ClauseLearning.Proofs.ClauseStoring
import ClauseLearning.Proofs.NormalClauses
import ClauseLearning.Search.Solver

/-! The state in which a search starts. Every clause of the formula is stored as a
set, unless it is empty or holds anyway, and nothing else is stored; no literal
is assigned, and the one-literal clauses wait in the queue. -/
namespace ClauseLearning.State

variable {s t : State} {clauses : List (List Literal)} {clause : List Literal}

/-- The clauses loaded so far, from a formula over this many variables. -/
structure Loaded (n : Nat) (clauses : List (List Literal)) (s : State) : Prop where
  numVariables : s.numVariables = n
  trail : s.trail = .start n
  assumptions : s.assumptions = []
  schedule : s.schedule.conflicts = 0
  coherent : s.Coherent
  quiet : s.Quiet
  hasEmptyClause : s.hasEmptyClause = true ↔ [] ∈ clauses
  stored : ∀ clause ∈ clauses, clause = [] ∨ isTautology (normalForm clause) = true ∨
    ∃ i c, s.store.clause? i = some c ∧ c.isLearned = false ∧
      ∀ l, l ∈ c.literals ↔ l ∈ clause
  given : ∀ i c, s.store.clause? i = some c →
    ∃ clause ∈ clauses, ∀ l, l ∈ c.literals ↔ l ∈ clause
  inputs : ∀ i c, s.store.clause? i = some c → c.isLearned = false

theorem not_true_at_start : ¬ (Trail.start n).TrueAt l k := by
  rw [(Trail.start_coherent n).recorded]
  simp [Trail.leveled, Trail.leveledFrom, Trail.start]

theorem blank_loaded (n : Nat) (o : Options) : (blank n o).Loaded n [] where
  numVariables := rfl
  trail := rfl
  assumptions := rfl
  schedule := rfl
  coherent := {
    declared := by simp [blank, Trail.start, Assignment.unassigned, Assignment.numVariables]
    trail := Trail.start_coherent n
    store := ClauseStore.empty_consistent n
    explained := by
      intro newer l older index split
      simp [blank, Trail.start, Trail.newestFirst] at split
    guarded := by
      intro i c w k living
      simp [blank, ClauseStore.empty, ClauseStore.clause?] at living
    facts := by
      intro above
      simp [blank, Trail.start, State.level, Trail.level] at above }
  quiet := {
    attended := by
      intro i c w living
      simp [blank, ClauseStore.empty, ClauseStore.clause?] at living
    units := by
      intro _ i c l living
      simp [blank, ClauseStore.empty, ClauseStore.clause?] at living
    queued := by
      intro i l member
      cases member }
  hasEmptyClause := by simp [blank]
  stored := by simp
  given := by
    intro i c living
    simp [blank, ClauseStore.empty, ClauseStore.clause?] at living
  inputs := by
    intro i c living
    simp [blank, ClauseStore.empty, ClauseStore.clause?] at living

theorem normalForm_eq_nil_iff : normalForm clause = [] ↔ clause = [] := by
  constructor
  · intro empty
    apply List.eq_nil_iff_forall_not_mem.mpr
    intro l member
    have inside := mem_normalForm.mpr member
    rw [empty] at inside
    cases inside
  · rintro rfl
    rfl

/-- A tautology or an empty clause changes no more than the note about the latter. -/
theorem Loaded.skip (loaded : s.Loaded n clauses)
    (skipped : clause = [] ∨ isTautology (normalForm clause) = true) :
    Loaded n (clauses ++ [clause])
      { s with hasEmptyClause := s.hasEmptyClause || clause.isEmpty } where
  numVariables := loaded.numVariables
  trail := loaded.trail
  assumptions := loaded.assumptions
  schedule := loaded.schedule
  coherent := loaded.coherent.congr rfl rfl rfl
  quiet := loaded.quiet.congr rfl rfl rfl
  hasEmptyClause := by
    rw [Bool.or_eq_true, loaded.hasEmptyClause, List.isEmpty_iff, List.mem_append,
      List.mem_singleton, eq_comm (a := clause)]
  stored := by
    intro d member
    rcases List.mem_append.mp member with before | new
    · exact loaded.stored d before
    · rw [List.mem_singleton.mp new]
      exact skipped.imp_right .inl
  given := by
    intro i c living
    obtain ⟨d, member, same⟩ := loaded.given i c living
    exact ⟨d, List.mem_append_left _ member, same⟩
  inputs := loaded.inputs

theorem Loaded.level_eq_zero (loaded : s.Loaded n clauses) : s.level = 0 := by
  rw [State.level, loaded.trail]
  rfl

/-- Any other clause is stored. -/
theorem Loaded.insert (loaded : s.Loaded n clauses) (declared : ∀ l ∈ clause, l.var < n)
    (nonempty : clause ≠ []) (consistent : isTautology (normalForm clause) = false) :
    ∃ index store, s.store.insert ⟨normalForm clause, .input⟩ = .ok (index, store) ∧
      ∀ waiting, (∀ i m, (i, m) ∈ waiting ↔ i = index ∧ normalForm clause = [m]) →
        Loaded n (clauses ++ [clause]) { s with store := store, queue := s.queue ++ waiting } := by
  let c : Clause := ⟨normalForm clause, .input⟩
  have proper : c.Proper s.numVariables := by
    rw [loaded.numVariables]
    exact normalForm_proper _ declared (mt normalForm_eq_nil_iff.mp nonempty) consistent
  have unassigned : ∀ l k, ¬ s.trail.TrueAt l k := by
    rw [loaded.trail]
    exact fun _ _ => not_true_at_start
  have ground : s.level = 0 := loaded.level_eq_zero
  obtain ⟨index, store, inserted, consistent', absent, slots⟩ :=
    ClauseStore.insert_consistent loaded.coherent.store proper
  refine ⟨index, store, inserted, fun waiting waits => ?_⟩
  have coherent := loaded.coherent.stored consistent' absent slots
    (fun w _ k fails => absurd fails (unassigned _ _)) (by omega)
  exact {
    numVariables := loaded.numVariables
    trail := loaded.trail
    assumptions := loaded.assumptions
    schedule := loaded.schedule
    coherent := coherent.congr rfl rfl rfl
    quiet := loaded.quiet.stored slots absent waiting
      (fun w _ fails => absurd fails (unassigned _ _))
      (fun _ m single => (waits index m).mpr ⟨rfl, single⟩)
      (fun i m member => by
        obtain ⟨same, single⟩ := (waits i m).mp member
        refine ⟨same, by simp [c, single], fun o inside different => ?_⟩
        have here : o ∈ normalForm clause := inside
        rw [single] at here
        exact absurd (List.mem_singleton.mp here) different)
    hasEmptyClause := by simp [loaded.hasEmptyClause, nonempty.symm]
    stored := by
      intro d member
      rcases List.mem_append.mp member with before | new
      · refine (loaded.stored d before).imp_right fun either => either.imp_right ?_
        rintro ⟨i, c', living, rest⟩
        refine ⟨i, c', (slots i).trans ?_, rest⟩
        rw [if_neg, living]
        rintro rfl
        rw [absent] at living
        cases living
      · rw [List.mem_singleton.mp new]
        exact .inr (.inr ⟨index, c, (slots index).trans (if_pos rfl), rfl,
          fun l => mem_normalForm⟩)
    given := by
      intro i c' living
      have living' := (slots i).symm.trans living
      split at living'
      · cases living'
        exact ⟨clause, by simp, fun l => mem_normalForm⟩
      · obtain ⟨d, member, same⟩ := loaded.given i c' living'
        exact ⟨d, List.mem_append_left _ member, same⟩
    inputs := by
      intro i c' living
      have living' := (slots i).symm.trans living
      split at living'
      · cases living'
        rfl
      · exact loaded.inputs i c' living' }

/-- Loading one more clause succeeds. -/
theorem addNormal_spec (loaded : s.Loaded n clauses) (declared : ∀ l ∈ clause, l.var < n) :
    ∃ t, s.addNormal (normalForm clause) = .ok t ∧ t.Loaded n (clauses ++ [clause]) := by
  unfold addNormal
  rw [hasOpposedNeighbors_normalForm]
  by_cases tautology : isTautology (normalForm clause) = true
  · rw [if_pos tautology]
    have nonempty : clause ≠ [] := by
      rintro rfl
      cases tautology
    have loaded' := loaded.skip (.inr tautology)
    rw [List.isEmpty_eq_false_iff.mpr nonempty, Bool.or_false] at loaded'
    exact ⟨s, rfl, loaded'⟩
  · rw [if_neg tautology]
    by_cases empty : normalForm clause = []
    · rw [if_pos empty]
      have blank := normalForm_eq_nil_iff.mp empty
      have loaded' := loaded.skip (.inl blank)
      rw [List.isEmpty_iff.mpr blank, Bool.or_true] at loaded'
      exact ⟨_, rfl, loaded'⟩
    · rw [if_neg empty]
      obtain ⟨index, store, inserted, loaded'⟩ := loaded.insert declared
        (mt normalForm_eq_nil_iff.mpr empty) (by simpa using tautology)
      rw [inserted]
      refine ⟨_, rfl, ?_⟩
      split
      · rename_i only single
        exact loaded' [(index, only)] (by simp [single, eq_comm])
      · rename_i notSingle
        have loaded'' := loaded' [] (by simpa using fun _ m _ single => notSingle m single)
        rwa [List.append_nil] at loaded''

theorem addNormal_kept (added : s.addNormal clause = .ok t) :
    t.schedule = s.schedule ∧ t.statistics = s.statistics := by
  unfold addNormal at added
  split at added
  · cases added
    exact ⟨rfl, rfl⟩
  · split at added
    · cases added
      exact ⟨rfl, rfl⟩
    · split at added
      · cases added
      · cases added
        exact ⟨rfl, rfl⟩

/-- What holds before any clause, and is kept when a declared clause is loaded, holds of the
state that the whole formula gives. -/
theorem ofFormula_induction {P : List (List Literal) → State → Prop} (f : Formula) (o : Options)
    (start : P [] (blank f.numVariables o))
    (step : ∀ before clause s, (∀ l ∈ clause, l.var < f.numVariables) → P before s →
      ∃ t, s.addNormal (normalForm clause) = .ok t ∧ P (before ++ [clause]) t) :
    ∃ s, ofFormula f o = .ok s ∧ P f.clauses s := by
  have load : ∀ (rest before : List (List Literal)) (s : State),
      (∀ clause ∈ rest, ∀ l ∈ clause, l.var < f.numVariables) → P before s →
      ∃ t, rest.foldlM (fun s clause => s.addNormal (normalForm clause)) s = .ok t ∧
        P (before ++ rest) t := by
    intro rest
    induction rest with
    | nil =>
      intro before s _ holds
      exact ⟨s, rfl, (List.append_nil before).symm ▸ holds⟩
    | cons clause rest ih =>
      intro before s declared holds
      obtain ⟨t, added, holds'⟩ := step before clause s (declared clause (by simp)) holds
      obtain ⟨u, ran, holds''⟩ := ih (before ++ [clause]) t
        (fun d member => declared d (by simp [member])) holds'
      refine ⟨u, ?_, by simpa using holds''⟩
      rw [List.foldlM_cons, added]
      exact ran
  exact load f.clauses [] _ f.declared start

/-- The search can start from every formula. -/
theorem ofFormula_spec (f : Formula) (o : Options) :
    ∃ s, ofFormula f o = .ok s ∧ s.Loaded f.numVariables f.clauses :=
  ofFormula_induction (P := fun before s => s.Loaded f.numVariables before) f o
    (blank_loaded f.numVariables o) fun _ _ _ declared loaded => addNormal_spec loaded declared

theorem loaded_of_ofFormula (ran : ofFormula f o = .ok s) : s.Loaded f.numVariables f.clauses := by
  obtain ⟨t, ran', loaded⟩ := ofFormula_spec f o
  cases ran.symm.trans ran'
  exact loaded

/-- What taking in a clause never changes is after loading as it was in the state without
clauses. -/
theorem unchanged_of_ofFormula {part : State → α}
    (same : ∀ s t clause, addNormal s clause = .ok t → part t = part s)
    (ran : ofFormula f o = .ok s) : part s = part (blank f.numVariables o) := by
  let P (before : List (List Literal)) (s : State) : Prop :=
    s.Loaded f.numVariables before ∧ part s = part (blank f.numVariables o)
  have start : P [] (blank f.numVariables o) := ⟨blank_loaded f.numVariables o, rfl⟩
  obtain ⟨t, ran', -, unchanged⟩ := ofFormula_induction (P := P) f o start
    fun before clause s declared ⟨loaded, unchanged⟩ => by
      obtain ⟨t, added, loaded'⟩ := addNormal_spec loaded declared
      exact ⟨t, added, loaded', (same s t _ added).trans unchanged⟩
  cases ran.symm.trans ran'
  exact unchanged

/-- Loading leaves the schedule as the options give it. -/
theorem schedule_of_ofFormula (ran : ofFormula f o = .ok s) :
    s.schedule = .start o.conflictsLimit o.lbdLimit o.growth :=
  unchanged_of_ofFormula (fun _ _ _ added => (addNormal_kept added).1) ran

/-- Loading counts nothing. -/
theorem statistics_of_ofFormula (ran : ofFormula f o = .ok s) : s.statistics = {} :=
  unchanged_of_ofFormula (fun _ _ _ added => (addNormal_kept added).2) ran

/-- A model of the formula makes all stored clauses hold. -/
theorem Loaded.admits (loaded : s.Loaded n clauses)
    (holds : ∀ clause ∈ clauses, ClauseHolds v clause) : s.Admits v := by
  refine ⟨fun i c living => ?_, fun l fact => ?_⟩
  · obtain ⟨clause, member, same⟩ := loaded.given i c living
    obtain ⟨l, inside, satisfied⟩ := holds clause member
    exact ⟨l, (same l).mpr inside, satisfied⟩
  · rw [loaded.trail] at fact
    exact absurd fact not_true_at_start

end ClauseLearning.State
