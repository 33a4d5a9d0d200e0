import Mathlib.Tactic.Linarith
import ClauseLearning.Proofs.BranchingChoices
import ClauseLearning.Proofs.Verdicts

/-! The whole procedure. A solver makes one of the runs that are allowed, because its
brancher picks open literals; it repeats steps more often than the rank of any
state, so it always comes to an answer. -/
namespace ClauseLearning

/-! ## Enough repetitions -/

namespace Doubling

theorem repetitions_eq (depth : Nat) : repetitions depth = 2 ^ depth := by
  induction depth with
  | zero => rfl
  | succ depth ih => rw [repetitions, ih, Nat.pow_succ, Nat.mul_two]

theorem repetitionsOfRounds_eq (count : Nat) : repetitionsOfRounds count 0 = 2 ^ count - 1 := by
  have sum := repetitionsOfRounds_add count 0
  rw [Nat.zero_add, repetitions_eq count, repetitions] at sum
  omega

variable {step : α → α ⊕ Except ε β} {Invariant : α → Prop} {Result : β → Prop}

/-- If every step gives a result or a smaller rank, then more repetitions than the
rank give a result. -/
theorem iterate_of_rank (rank : α → Nat)
    (turn : ∀ a, Invariant a → (∃ b, step a = .inl b ∧ Invariant b ∧ rank b < rank a) ∨
      ∃ b, step a = .inr (.ok b) ∧ Result b)
    (count : Nat) (a : α) (invariant : Invariant a) (enough : rank a < count) :
    ∃ b, iterate step count a = .inr (.ok b) ∧ Result b := by
  induction count generalizing a with
  | zero => omega
  | succ count ih =>
    unfold iterate
    rcases turn a invariant with ⟨b, moved, invariant', less⟩ | ⟨b, ended, result⟩
    · rw [moved]
      exact ih b invariant' (by omega)
    · rw [ended]
      exact ⟨b, rfl, result⟩

end Doubling

namespace State

/-- The bound on all ranks, as a power of two. -/
theorem rank_lt_repetitions (s : State) (phase : Phase) :
    s.rank phase < Doubling.repetitionsOfRounds (Solver.roundsFor s.numVariables) 0 := by
  let n := s.numVariables
  let top := ceiling n
  have square : s.rank phase + 1 < 4 * ((top + 3) * (top + 3)) := rank_lt_stepBound s phase
  have base : n + 1 ≤ 2 ^ n := Nat.lt_two_pow_self
  have power : top ≤ 2 ^ (n * (n + 1)) := by
    rw [Nat.pow_mul]
    exact Nat.pow_le_pow_left base (n + 1)
  have positive : 1 ≤ 2 ^ (n * (n + 1)) := Nat.one_le_two_pow
  have wide : top + 3 ≤ 2 ^ (n * (n + 1) + 2) := by
    rw [Nat.pow_add]
    omega
  have squared := Nat.mul_le_mul wide wide
  rw [← Nat.pow_add] at squared
  have exponent : 2 + (n * (n + 1) + 2 + (n * (n + 1) + 2)) ≤ 4 * ((n + 3) * (n + 3)) := by
    nlinarith
  have largest : 2 ^ (2 + (n * (n + 1) + 2 + (n * (n + 1) + 2))) ≤ 2 ^ (4 * ((n + 3) * (n + 3))) :=
    Nat.pow_le_pow_right (by decide) exponent
  rw [Nat.pow_add 2 2] at largest
  have rounds : Solver.roundsFor n = 4 * ((n + 3) * (n + 3)) := rfl
  rw [Doubling.repetitionsOfRounds_eq]
  change s.rank phase < 2 ^ Solver.roundsFor n - 1
  rw [rounds]
  omega

/-- A trail without a literal for each variable leaves a variable free. -/
theorem Coherent.free_ne_nil {s : State} (coherent : s.Coherent) (incomplete : s.complete = false) :
    s.trail.assignment.free ≠ [] := by
  intro full
  have subset : List.range s.numVariables ⊆ s.trail.newestFirst.map Literal.var := by
    intro var inRange
    cases entry : s.trail.assignment.find? var with
    | none =>
      have member := Brancher.mem_free_iff.mpr ⟨coherent.declared ▸ List.mem_range.mp inRange,
        Assignment.assigns_eq_false_iff.mpr entry⟩
      rw [full] at member
      cases member
    | some e =>
      have holds : s.trail.TrueAt ⟨var, e.positive⟩ e.level := ⟨e, entry, rfl, rfl⟩
      exact List.mem_map.mpr ⟨_, coherent.trail.mem_of_true_at holds, rfl⟩
  have long : s.numVariables ≤ s.trail.size := by
    simpa [Trail.size] using (List.nodup_range.subperm subset).length_le
  have short := coherent.trail.size_le
  rw [coherent.declared] at short
  have complete : s.complete = true := by
    simpa [State.complete] using Nat.le_antisymm short long
  rw [incomplete] at complete
  cases complete

theorem Coherent.exists_open {s : State} (coherent : s.Coherent)
    (incomplete : s.complete = false) : ∃ l, s.Open l := by
  obtain ⟨var, member⟩ := List.exists_mem_of_ne_nil _ (coherent.free_ne_nil incomplete)
  obtain ⟨declared, unassigned⟩ := Brancher.mem_free_iff.mp member
  refine ⟨⟨var, true⟩, coherent.declared ▸ declared, ?_⟩
  exact Trail.value?_eq_none_iff.mpr (Assignment.assigns_eq_false_iff.mp unassigned)

end State

/-! ## The turns of a solver -/

variable {f : Formula} {o : Options} {assumed : List Literal}

namespace Solver

/-- A run of a solver as far as it matters to its answer. -/
structure Progress.Tracks (f : Formula) (o : Options) (assumed : List Literal) (p : Progress) :
    Prop where
  reached : Reachable f o assumed p.phase p.solver.state
  covers : p.solver.brancher.Covers f.numVariables

/-- The choice of a brancher is one that is allowed. -/
theorem follow_allowed {s : State} {b : Brancher} (covers : b.Covers f.numVariables)
    (poised : s.Poised phase) (founded : Founded f assumed s) :
    s.Allows phase (b.follow phase s).1 := by
  rintro rfl
  obtain ⟨coherent, -, quiet, -, incomplete⟩ := poised
  have sized : s.trail.assignment.numVariables = f.numVariables :=
    coherent.declared.trans founded.numVariables
  have free := coherent.free_ne_nil incomplete
  obtain ⟨l, picked, member⟩ := Brancher.pick_open (sized ▸ covers) free s.store
  obtain ⟨declared, unassigned⟩ := Brancher.mem_free_iff.mp member
  refine ⟨l, picked, coherent.declared ▸ declared, ?_⟩
  exact Trail.value?_eq_none_iff.mpr (Assignment.assigns_eq_false_iff.mp unassigned)

/-- As long as no answer is found, a turn is the step with the choice of the brancher. -/
theorem turn_of_advance {p : Progress} {t : State} (unsolved : p.phase ≠ .satisfied)
    (unrefuted : p.phase ≠ .unsatisfiable)
    (ran : p.solver.state.advance (p.solver.brancher.follow p.phase p.solver.state).1 p.phase
      = .ok (next, t)) :
    ∃ events, p.turn
      = .inl ⟨⟨t, (p.solver.brancher.follow p.phase p.solver.state).2⟩, next, events⟩ := by
  obtain ⟨⟨s, b⟩, phase, journal⟩ := p
  have stepped : step ⟨s, b⟩ phase
      = .ok ((b.follow phase s).1, next, ⟨t, (b.follow phase s).2⟩) := by
    unfold step
    simp only
    rw [ran]
    rfl
  unfold Progress.turn
  simp only [stepped]
  exact ⟨_, rfl⟩

/-- Every turn goes on along an allowed run, with a smaller rank, or ends it with an
answer. -/
theorem turn_spec {p : Progress} (tracks : p.Tracks f o assumed)
    (declared : ∀ l ∈ assumed, l.var < f.numVariables) :
    (∃ q, p.turn = .inl q ∧ q.Tracks f o assumed ∧
      q.solver.state.rank q.phase < p.solver.state.rank p.phase) ∨
    ∃ finished, p.turn = .inr (.ok finished) ∧
      Ends f o assumed finished.verdict finished.solver.state := by
  obtain ⟨⟨s, b⟩, phase, journal⟩ := p
  obtain ⟨reached, covers⟩ := tracks
  obtain ⟨poised, paced, founded⟩ := reached.invariant declared
  by_cases solved : phase = .satisfied
  · subst solved
    obtain ⟨m, model, -⟩ := founded.exists_model poised
    exact .inr ⟨_, by unfold Progress.turn; simp only [model]; rfl, .satisfied reached model⟩
  · by_cases refuted : phase = .unsatisfiable
    · subst refuted
      exact .inr ⟨_, rfl, .refuted reached⟩
    · have allowed := follow_allowed covers poised founded
      obtain ⟨next, t, ran, reached', less⟩ := reached.exists_step declared allowed
      obtain ⟨events, moved⟩ := turn_of_advance (p := ⟨⟨s, b⟩, phase, journal⟩) solved refuted ran
      exact .inl ⟨_, moved, ⟨reached', Brancher.follow_covers covers phase s⟩, less solved refuted⟩

/-- A run that has started comes to an answer. -/
theorem complete_spec {p : Progress} (tracks : p.Tracks f o assumed)
    (declared : ∀ l ∈ assumed, l.var < f.numVariables) :
    ∃ finished, p.complete = .ok finished ∧
      Ends f o assumed finished.verdict finished.solver.state := by
  obtain ⟨finished, ran, ends⟩ := Doubling.iterate_of_rank
    (fun p : Progress => p.solver.state.rank p.phase)
    (fun p tracks => turn_spec tracks declared) _ p tracks
    (State.rank_lt_repetitions p.solver.state p.phase)
  refine ⟨finished, ?_, ends⟩
  unfold Progress.complete
  rw [Doubling.rounds_eq_iterate, ran]

/-- Numbers that are accepted name literals over declared variables. -/
theorem declared_of_accepted {numbers : List Int}
    (accepted : numbers.mapM (assumption n) = .ok assumed) : ∀ l ∈ assumed, l.var < n := by
  induction numbers generalizing assumed with
  | nil =>
    cases accepted
    simp
  | cons x rest ih =>
    rw [List.mapM_cons] at accepted
    cases named : assumption n x with
    | error e =>
      rw [named] at accepted
      cases accepted
    | ok l =>
      rw [named] at accepted
      cases others : rest.mapM (assumption n) with
      | error e =>
        simp only [bind, Except.bind, others] at accepted
        cases accepted
      | ok ls =>
        simp only [bind, Except.bind, others, pure, Except.pure] at accepted
        cases accepted
        refine List.forall_mem_cons.mpr ⟨?_, ih others⟩
        unfold assumption at named
        split at named
        · cases named
        · cases named
          simp only
          omega

/-- A solver for a formula ends as one of the searches for it may. -/
theorem run_spec (declared : ∀ l ∈ assumed, l.var < f.numVariables) {s : State} {b : Brancher}
    (loaded : State.ofFormula f o = .ok s) (covers : b.Covers f.numVariables) :
    ∃ finished, run ⟨{ s with assumptions := assumed }, b⟩ = .ok finished ∧
      Ends f o assumed finished.verdict finished.solver.state := by
  have loading := State.loaded_of_ofFormula loaded
  unfold run
  simp only
  by_cases empty : s.hasEmptyClause = true
  · rw [if_pos empty]
    exact ⟨_, rfl, .emptyClause loaded empty⟩
  · rw [if_neg empty]
    have nonempty : s.hasEmptyClause = false := by simpa using empty
    obtain ⟨answer, t, ran, -⟩ := assume_spec loading declared
    rw [ran]
    cases answer with
    | held =>
      have tracks : Progress.Tracks f o assumed ⟨⟨t, b⟩, .propagating, []⟩ :=
        ⟨.start loaded nonempty ran, covers⟩
      exact complete_spec tracks declared
    | contradicts l => exact ⟨_, rfl, .assumptionsFail loaded nonempty ran (by simp)⟩
    | falsifies l index => exact ⟨_, rfl, .assumptionsFail loaded nonempty ran (by simp)⟩

end Solver

/-- With accepted assumptions solving refuses the options or reports how a search for the formula
ended. -/
theorem solve_spec {numbers : List Int}
    (accepted : numbers.mapM (Solver.assumption f.numVariables) = .ok assumed) :
    (∃ problem, o.problem? = some problem ∧
      solve f o numbers = .error (.invalidOptions problem)) ∨
    ∃ outcome, solve f o numbers = .ok outcome ∧ outcome.Reports f o assumed := by
  unfold solve
  cases checked : o.problem? with
  | some problem => exact .inl ⟨problem, rfl, rfl⟩
  | none =>
    refine .inr ?_
    obtain ⟨s, loaded, loading⟩ := State.ofFormula_spec f o
    have covers := Brancher.start_covers o f.numVariables s.store
    obtain ⟨finished, ran, ends⟩ :=
      Solver.run_spec (Solver.declared_of_accepted accepted) loaded covers
    have literals : s.assumptions ++ assumed = assumed := by
      rw [loading.assumptions, List.nil_append]
    have built : Solver.ofFormula f o = .ok ⟨s, .start o f.numVariables s.store⟩ := by
      unfold Solver.ofFormula
      rw [loaded]
      rfl
    have assuming : Solver.withAssumptions ⟨s, .start o f.numVariables s.store⟩ numbers
        = .ok ⟨{ s with assumptions := assumed }, .start o f.numVariables s.store⟩ := by
      unfold Solver.withAssumptions
      simp only [loading.numVariables, accepted, Except.map, literals]
    simp only [built, Except.mapError, bind, Except.bind, assuming, Solver.outcome, ran, Except.map]
    exact ⟨_, rfl, _, ends, rfl⟩

/-- The searches for a formula have an answer, whatever the options. -/
theorem exists_answer (f : Formula) (o : Options)
    (declared : ∀ l ∈ assumed, l.var < f.numVariables) :
    ∃ verdict, Answers f o assumed verdict := by
  obtain ⟨s, loaded, -⟩ := State.ofFormula_spec f o
  have covers := Brancher.start_covers o f.numVariables s.store
  obtain ⟨finished, -, ends⟩ := Solver.run_spec declared loaded covers
  exact ⟨finished.verdict, _, ends⟩

/-- The outcome of a solved formula reports how one of its searches ended. -/
theorem reports_of_solve {numbers : List Int}
    (accepted : numbers.mapM (Solver.assumption f.numVariables) = .ok assumed)
    (solved : solve f o numbers = .ok outcome) : outcome.Reports f o assumed := by
  rcases solve_spec (o := o) accepted with ⟨problem, -, refused⟩ | ⟨outcome', solved', reports⟩
  · cases solved.symm.trans refused
  · cases solved.symm.trans solved'
    exact reports

end ClauseLearning
