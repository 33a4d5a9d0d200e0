import ClauseLearning.Proofs.LowerLevels

/-! Learned clauses are new. Below the level of a conflict nothing is left to do: no
living clause is false there, and none has the asserting literal as its only open one.
So none has, besides facts, only literals of the learned clause, and no two living
clauses with the same literals are ever stored by learning. -/
namespace ClauseLearning

namespace State

/-- Besides literals that are false at level 0, the clause has none but these. -/
def Subsumes (s : State) (c : Clause) (literals : List Literal) : Prop :=
  ∀ m ∈ c.literals, m ∈ literals ∨ s.trail.FalseAt m 0

/-- No other living clause, learned or of the formula, has the literals of a learned one. -/
def Unrepeated (s : State) : Prop :=
  ∀ i j c d, s.store.clause? i = some c → s.store.clause? j = some d → c.isLearned = true →
    (∀ l, l ∈ c.literals ↔ l ∈ d.literals) → i = j

variable {s t : State} {phase next : Phase}

/-- A clause learned on this trail is not subsumed by a living one. -/
theorem Coherent.not_subsumes (coherent : s.Coherent) {l : Learned} (fits : l.Fits s.trail)
    (living : s.store.clause? i = some c) : ¬ s.Subsumes c l.literals := by
  intro subsumes
  have below := fits.below
  have finished : s.FinishedUpTo (s.level - 1) :=
    coherent.finishedUpTo (Nat.sub_one_lt (Nat.ne_zero_of_lt below))
  have lower : ∀ m ∈ c.literals, m ≠ l.asserting → s.trail.TrueUpTo (s.level - 1) m.negate := by
    intro m member different
    obtain ⟨k, bound, fails⟩ : ∃ k ≤ l.returnLevel, s.trail.FalseAt m k := by
      rcases subsumes m member with inside | ground
      · obtain ⟨k, -, bound, fails⟩ :=
          fits.others m ((List.mem_cons.mp inside).resolve_left different)
        exact ⟨k, bound, fails⟩
      · exact ⟨0, Nat.zero_le _, ground⟩
    exact ⟨coherent.trail.mem_literals_iff_value?.mpr (Trail.value?_of_true_at fails), k,
      bound.trans (Nat.le_sub_one_of_lt below), Trail.level?_of_true_at fails⟩
  by_cases inside : l.asserting ∈ c.literals
  · -- the asserting literal would have been implied below the conflict
    obtain ⟨onTrail, -⟩ := finished.closed c.literals ⟨i, c, living, rfl⟩ l.asserting inside lower
    obtain ⟨k, holds⟩ :=
      Trail.value?_eq_true_iff.mp (coherent.trail.mem_literals_iff_value?.mp onTrail)
    exact Trail.not_true_at_negate holds fits.asserting
  · apply finished.unfalsified c.literals ⟨i, c, living, rfl⟩
    intro m member
    apply lower m member
    rintro rfl
    exact inside member

theorem Loaded.unrepeated (loaded : s.Loaded n clauses) : s.Unrepeated := by
  intro i j c d living _ learned
  rw [loaded.inputs i c living] at learned
  cases learned

/-- Reordering the literals of clauses repeats none. -/
theorem Unrepeated.rearranged (unrepeated : s.Unrepeated)
    (same : ClauseStore.Rearranged s.store t.store) : t.Unrepeated := by
  intro i j c d first second learned literals
  obtain ⟨c', first', rearranged⟩ := same.backward first
  obtain ⟨d', second', rearranged'⟩ := same.backward second
  apply unrepeated i j c' d' first' second' (rearranged.isLearned_eq ▸ learned)
  exact fun l => rearranged.mem_iff.trans ((literals l).trans rearranged'.mem_iff.symm)

/-- Storing what was learned repeats none, also if clauses are deleted after it. -/
theorem Unrepeated.stored (unrepeated : s.Unrepeated) (coherent : s.Coherent) {l : Learned}
    (fits : l.Fits s.trail) (clauses : ∀ j c, t.store.clause? j = some c →
      (if j = index then some l.clause else s.store.clause? j) = some c) : t.Unrepeated := by
  have new : ∀ j c, s.store.clause? j = some c → ¬ ∀ m, m ∈ c.literals ↔ m ∈ l.clause.literals :=
    fun j c living same =>
      coherent.not_subsumes fits living fun m member => .inl ((same m).mp member)
  intro i j c d first second learned same
  have first' := clauses i c first
  have second' := clauses j d second
  split at first' <;> split at second'
  · rename_i here there
    exact here.trans there.symm
  · cases first'
    exact absurd (fun m => (same m).symm) (new j d second')
  · cases second'
    exact absurd same (new i c first')
  · exact unrepeated i j c d first' second' learned same

/-- Every step of the search keeps learned clauses from being repeated. -/
theorem Advanced.unrepeated (advanced : s.Advanced phase t next) (poised : s.Poised phase)
    (unrepeated : s.Unrepeated) : t.Unrepeated := by
  obtain ⟨coherent, -, suits⟩ := poised
  have stores := advanced.stores
  cases phase with
  | backjumping l =>
    obtain ⟨index, -, clauses⟩ := stores
    exact unrepeated.stored coherent suits.fits fun j c living => (clauses j).symm.trans living
  | restarting l =>
    obtain ⟨index, starts⟩ := stores
    have clauses : ∀ j c, t.store.clause? j = some c →
        (if j = index then some l.clause else s.store.clause? j) = some c := by
      intro j c living
      rw [starts.clauses] at living
      exact (Option.filter_eq_some_iff.mp living).1
    exact unrepeated.stored coherent suits.fits clauses
  | propagating => exact unrepeated.rearranged stores
  | deciding => exact unrepeated.rearranged stores
  | analyzing i => exact unrepeated.rearranged stores
  | satisfied => exact unrepeated.rearranged stores
  | unsatisfiable => exact unrepeated.rearranged stores

end State

variable {f : Formula} {o : Options} {numbers : List Int} {assumed : List Literal} {s : State}
  {phase : Phase}

theorem Reachable.unrepeated (reachable : Reachable f o assumed phase s)
    (declared : ∀ l ∈ assumed, l.var < f.numVariables) : s.Unrepeated := by
  refine reachable.kept declared ?_ ?_
  · intro s t loaded begun
    exact (State.loaded_of_ofFormula loaded).unrepeated.rearranged begun.rearranged
  · intro phase s next t poised advanced unrepeated
    exact advanced.unrepeated poised unrepeated

/-- No state of a run has a learned clause twice or one that the formula has. -/
theorem Occurs.unrepeated (occurs : Occurs f o assumed phase s)
    (declared : ∀ l ∈ assumed, l.var < f.numVariables) : s.Unrepeated := by
  cases occurs with
  | emptyClause loaded empty => exact (State.loaded_of_ofFormula loaded).unrepeated
  | assuming loaded nonempty first held =>
    have begun := begun_of_assume loaded (fun l member => declared l (first.subset member)) held
    exact (State.loaded_of_ofFormula loaded).unrepeated.rearranged begun.rearranged
  | refused loaded nonempty ran failed =>
    have begun := begun_of_assume loaded declared ran
    exact (State.loaded_of_ofFormula loaded).unrepeated.rearranged begun.rearranged
  | turn reached => exact reached.unrepeated declared
  | between reached passed =>
    have unrepeated := reached.unrepeated declared
    obtain ⟨poised, -, founded⟩ := reached.invariant declared
    obtain ⟨-, extended⟩ := (poised.run_invariant founded).extends passed
    exact unrepeated.rearranged extended.rearranged

/-- In every run, what is learned from a conflict above level 0 is not subsumed by any
living clause, the facts of level 0 granted; and no state has a living clause with the
literals of a learned one, except itself. -/
theorem learned_clauses_are_new
    (accepted : numbers.mapM (Solver.assumption f.numVariables) = .ok assumed) :
    (∀ i s, Occurs f o assumed (.analyzing i) s → 0 < s.level →
      ∃ l, analyze s.store s.trail i = .ok (some l) ∧
        ∀ j c, s.store.clause? j = some c → ¬ s.Subsumes c l.literals) ∧
    ∀ phase s, Occurs f o assumed phase s → s.Unrepeated := by
  have declared := Solver.declared_of_accepted accepted
  constructor
  · intro i s occurs above
    cases occurs with
    | turn reached =>
      obtain ⟨⟨coherent, layered, falsified⟩, -⟩ := reached.invariant declared
      obtain ⟨l, ran, fits, -⟩ := analyze_spec coherent layered falsified above
      exact ⟨l, ran, fun j c living => coherent.not_subsumes fits living⟩
  · exact fun phase s occurs => occurs.unrepeated declared

/-- The clause learned from the conflict of the first two variables is new, and with it
in the store there is no second one with its literals. -/
theorem learned_clauses_are_new_exclusive :
    [4].mapM (Solver.assumption exclusive.numVariables) = .ok [⟨3, true⟩] ∧
    (∃ s, Occurs exclusive {} [⟨3, true⟩] (.analyzing 1) s ∧
      analyze s.store s.trail 1 = .ok (some ⟨⟨1, false⟩, [⟨0, false⟩], 1, 2⟩) ∧
      ∀ j c, s.store.clause? j = some c → ¬ s.Subsumes c [⟨1, false⟩, ⟨0, false⟩]) ∧
    ∃ phase s, Occurs exclusive {} [⟨3, true⟩] phase s ∧
      s.store.clause? 2 = some ⟨[⟨1, false⟩, ⟨0, false⟩], .learned 2⟩ ∧ s.Unrepeated := by
  obtain ⟨novel, unrepeated⟩ := learned_clauses_are_new (o := {}) exclusive_accepted
  refine ⟨exclusive_accepted, ?_, ?_⟩
  · obtain ⟨phase, s, reached, shown⟩ := exists_exclusive
      (p := fun phase s => phase = .analyzing 1 ∧ 0 < s.level ∧
        (analyze s.store s.trail 1).toOption = some (some ⟨⟨1, false⟩, [⟨0, false⟩], 1, 2⟩))
      5 (by decide +kernel)
    obtain ⟨rfl, above, learned⟩ := of_decide_eq_true shown
    obtain ⟨l, ran, new⟩ := novel 1 s (.turn reached) above
    rw [ran] at learned
    cases learned
    exact ⟨s, .turn reached, ran, new⟩
  · obtain ⟨phase, s, reached, shown⟩ := exists_exclusive
      (p := fun _ s => s.store.clause? 2 = some ⟨[⟨1, false⟩, ⟨0, false⟩], .learned 2⟩)
      8 (by decide +kernel)
    exact ⟨phase, s, .turn reached, of_decide_eq_true shown, unrepeated phase s (.turn reached)⟩

end ClauseLearning
