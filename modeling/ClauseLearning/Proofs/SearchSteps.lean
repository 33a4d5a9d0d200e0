import ClauseLearning.Proofs.ConflictAnswer

/-! One step of the search. Each phase asks something of the state, every step
succeeds on a state that gives it, and the state after the step gives what the
next phase asks for. Nothing is assumed about a decision but that its literal is
open. -/
namespace ClauseLearning

namespace State

/-- The literal is over a variable of the formula that has no value. -/
def Open (s : State) (l : Literal) : Prop :=
  l.var < s.numVariables ∧ s.trail.value? l = none

/-- The choice is one that a branching heuristic may make in this phase. -/
def Allows (s : State) (phase : Phase) (choice : Option Literal) : Prop :=
  phase = .deciding → ∃ l, choice = some l ∧ s.Open l

/-- The learned clause was learned on the trail of this state and follows from its
clauses and facts. -/
structure Learns (s : State) (l : Learned) : Prop where
  fits : l.Fits s.trail
  follows : ∀ w, s.Admits w → ClauseHolds w l.literals

/-- What a phase relies on besides coherence. -/
def Suits (s : State) : Phase → Prop
  | .propagating => s.Quiet
  | .deciding => s.Quiet ∧ s.queue = [] ∧ s.complete = false
  | .analyzing index => s.Falsified index
  | .backjumping l => s.Learns l
  | .restarting l => s.Learns l
  | .satisfied => s.Quiet ∧ s.queue = [] ∧ s.complete = true
  | .unsatisfiable => s.level = 0 ∧ ∃ index, s.Falsified index

/-- The invariant of the search, for a state and the phase that comes next. -/
structure Poised (s : State) (phase : Phase) : Prop where
  coherent : s.Coherent
  layered : s.trail.Layered
  suits : s.Suits phase

/-- What a step in a phase does to the trail and the schedule, and which phase may
come next. -/
def Moves (s t : State) (next : Phase) : Phase → Prop
  | .propagating => t.schedule = s.schedule ∧
      (∃ added : List Literal, (s.Ready → added ≠ []) ∧
        t.trail.leveled = added.map (fun l => (l, s.level)) ++ s.trail.leveled) ∧
      (next = .deciding ∨ next = .satisfied ∨ ∃ index, next = .analyzing index)
  | .deciding => t.schedule = s.schedule ∧
      (∃ l, t.trail.leveled = (l, s.level + 1) :: s.trail.leveled) ∧
      (next = .propagating ∨ ∃ index, next = .analyzing index)
  | .analyzing _ => t.trail = s.trail ∧ ((next = .unsatisfiable ∧ t.schedule = s.schedule) ∨
      ∃ l, next = (if s.schedule.countConflict.1 then .restarting l else .backjumping l) ∧
        t.schedule = s.schedule.countConflict.2)
  | .backjumping l => t.schedule = s.schedule ∧ t.trail = s.trail.backTo l.returnLevel ∧
      t.Ready ∧ next = .propagating
  | .restarting _ => t.schedule = s.schedule.relax ∧ next = .propagating
  | .satisfied => t = s ∧ next = .satisfied
  | .unsatisfiable => t = s ∧ next = .unsatisfiable

/-- What a step in a phase does to the stored clauses. -/
def Stores (s t : State) : Phase → Prop
  | .backjumping l => ∃ index, s.store.clause? index = none ∧
      ∀ j, t.store.clause? j = if j = index then some l.clause else s.store.clause? j
  | .restarting l => ∃ index, s.StartsOver l index t
  | _ => ClauseStore.Rearranged s.store t.store

/-- A step from a phase to the next, with all that is kept along the way. -/
structure Advanced (s : State) (phase : Phase) (t : State) (next : Phase) : Prop where
  poised : t.Poised next
  keeps : s.Keeps t
  admits : ∀ w, s.Admits w → t.Admits w
  stores : s.Stores t phase
  continues : s.trail.Continues t.trail (phase = .deciding)
  moves : s.Moves t next phase

variable {s t : State}

theorem Settled.analyzing (settled : Settled (.conflict index) t) :
    t.countConflict.Poised (.analyzing index) where
  coherent := settled.coherent.congr rfl rfl rfl
  layered := settled.layered
  suits := settled.falsified index rfl

theorem Keeps.countConflict (keeps : s.Keeps t) : s.Keeps t.countConflict :=
  ⟨keeps.numVariables, keeps.inputs, keeps.facts⟩

theorem advance_propagating (poised : s.Poised .propagating) :
    ∃ next t, s.propagate.map (afterAssigning fun s =>
        if s.complete then .satisfied else .deciding) = .ok (next, t) ∧
      s.Advanced .propagating t next := by
  obtain ⟨coherent, layered, quiet⟩ := poised
  obtain ⟨status, t, ran, extended, settled, admits, emptied, grown⟩ :=
    propagate_spec s coherent quiet layered
  have keeps := extended.keeps coherent.trail settled.coherent.trail
  have continues : s.trail.Continues t.trail (Phase.propagating = .deciding) :=
    (Trail.Continues.refl s.trail).extended extended.level extended.lower
  have added : ∃ added : List Literal, (s.Ready → added ≠ []) ∧
      t.trail.leveled = added.map (fun l => (l, s.level)) ++ s.trail.leveled := by
    obtain ⟨added, leveled⟩ := extended.grown
    refine ⟨added, ?_, leveled⟩
    rintro ready rfl
    have larger := grown ready
    rw [← Trail.length_leveled, ← Trail.length_leveled, leveled] at larger
    simp at larger
  rw [ran]
  cases status with
  | conflict index =>
    exact ⟨.analyzing index, t.countConflict, rfl, settled.analyzing, keeps.countConflict, admits,
      extended.rearranged, continues, extended.schedule, added, .inr (.inr ⟨index, rfl⟩)⟩
  | consistent =>
    have quiet' := settled.quiet rfl
    have empty := emptied rfl
    cases full : t.complete with
    | true =>
      refine ⟨.satisfied, t, by simp [Except.map, afterAssigning, full], ?_⟩
      exact ⟨⟨settled.coherent, settled.layered, quiet', empty, full⟩, keeps, admits,
        extended.rearranged, continues, extended.schedule, added, .inr (.inl rfl)⟩
    | false =>
      refine ⟨.deciding, t, by simp [Except.map, afterAssigning, full], ?_⟩
      exact ⟨⟨settled.coherent, settled.layered, quiet', empty, full⟩, keeps, admits,
        extended.rearranged, continues, extended.schedule, added, .inl rfl⟩

theorem advance_deciding (poised : s.Poised .deciding) (open_ : s.Open l) :
    ∃ next t, (s.decide l).map (afterAssigning fun _ => .propagating) = .ok (next, t) ∧
      s.Advanced .deciding t next := by
  obtain ⟨coherent, layered, quiet, empty, -⟩ := poised
  obtain ⟨status, t, ran, extended, settled, leveled, admits⟩ :=
    decide_spec coherent quiet empty layered open_.1 open_.2
  have opened := extended.keeps (Trail.openLevel_coherent coherent.trail) settled.coherent.trail
  have keeps : s.Keeps t := ⟨opened.numVariables, opened.inputs, opened.facts⟩
  have continues : s.trail.Continues t.trail (Phase.deciding = .deciding) :=
    (Trail.Continues.openLevel s.trail rfl).extended extended.level extended.lower
  rw [ran]
  cases status with
  | conflict index =>
    exact ⟨.analyzing index, t.countConflict, rfl, settled.analyzing, keeps.countConflict, admits,
      extended.rearranged, continues, extended.schedule, ⟨l, leveled⟩, .inr ⟨index, rfl⟩⟩
  | consistent =>
    refine ⟨.propagating, t, rfl, ⟨settled.coherent, settled.layered, settled.quiet rfl⟩, keeps,
      admits, extended.rearranged, continues, ?_⟩
    exact ⟨extended.schedule, ⟨l, leveled⟩, .inl rfl⟩

theorem advance_analyzing (poised : s.Poised (.analyzing index)) :
    ∃ next t, s.analyzeConflict index = .ok (next, t) ∧ s.Advanced (.analyzing index) t next := by
  obtain ⟨coherent, layered, falsified⟩ := poised
  have kept : ∀ schedule, s.Keeps { s with schedule := schedule } := fun _ =>
    ⟨rfl, fun _ c living _ => ⟨c, living, .refl c⟩, fun _ fact => fact⟩
  rcases Nat.eq_zero_or_pos s.level with ground | above
  · have refuted : analyze s.store s.trail index = .ok none := by
      unfold analyze
      exact if_pos ground
    refine ⟨.unsatisfiable, s, by simp [analyzeConflict, refuted], ?_⟩
    exact ⟨⟨coherent, layered, ground, index, falsified⟩, kept s.schedule, fun _ admits => admits,
      .refl s.store, .refl s.trail, rfl, .inl ⟨rfl, rfl⟩⟩
  · obtain ⟨l, learned, fits, follows⟩ := analyze_spec coherent layered falsified above
    refine ⟨_, { s with schedule := s.schedule.countConflict.2 },
      by simp [analyzeConflict, learned]; rfl, ?_⟩
    refine ⟨⟨coherent.congr rfl rfl rfl, layered, ?_⟩, kept _, fun _ admits => admits,
      .refl s.store, .refl s.trail, rfl, .inr ⟨l, rfl, rfl⟩⟩
    have learns : Learns { s with schedule := s.schedule.countConflict.2 } l := ⟨fits, follows⟩
    split <;> exact learns

/-- Every step succeeds and leaves what the next phase relies on. -/
theorem advance_spec {phase : Phase} {choice : Option Literal} (poised : s.Poised phase)
    (allowed : s.Allows phase choice) :
    ∃ next t, s.advance choice phase = .ok (next, t) ∧ s.Advanced phase t next := by
  cases phase with
  | propagating => exact advance_propagating poised
  | deciding =>
    obtain ⟨l, rfl, open_⟩ := allowed rfl
    exact advance_deciding poised open_
  | analyzing index => exact advance_analyzing poised
  | backjumping l =>
    obtain ⟨coherent, layered, fits, follows⟩ := poised
    obtain ⟨t, ran, coherent', quiet, layered', keeps, trail, schedule, ready, stored, admits⟩ :=
      backjump_spec coherent layered fits
    exact ⟨.propagating, t, ran, ⟨coherent', layered', quiet⟩, keeps,
      fun w holds => admits w holds (follows w holds), stored, trail ▸ .backTo s.trail _, schedule,
      trail, ready, rfl⟩
  | restarting l =>
    obtain ⟨coherent, layered, fits, follows⟩ := poised
    obtain ⟨t, ran, coherent', quiet, ground, keeps, schedule, stored, admits⟩ :=
      startOver_spec coherent fits
    exact ⟨.propagating, t, ran, ⟨coherent', Trail.layered_of_level_eq_zero ground, quiet⟩, keeps,
      fun w holds => admits w holds (follows w holds), stored, .of_level_eq_zero ground, schedule,
      rfl⟩
  | satisfied =>
    exact ⟨.satisfied, s, rfl, poised, .refl s, fun _ admits => admits, .refl s.store,
      .refl s.trail, rfl, rfl⟩
  | unsatisfiable =>
    exact ⟨.unsatisfiable, s, rfl, poised, .refl s, fun _ admits => admits, .refl s.store,
      .refl s.trail, rfl, rfl⟩

/-- What a step came to is what every step leaves. -/
theorem Poised.advanced (poised : s.Poised phase) (allowed : s.Allows phase choice)
    (ran : s.advance choice phase = .ok (next, t)) : s.Advanced phase t next := by
  obtain ⟨next', t', ran', advanced⟩ := advance_spec poised allowed
  cases ran.symm.trans ran'
  exact advanced

end State

end ClauseLearning
