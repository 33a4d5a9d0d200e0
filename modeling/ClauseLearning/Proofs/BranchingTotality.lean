import ClauseLearning.Proofs.RunStates

/-! Branching never fails and never picks what is assigned. This holds for every heuristic,
after any clauses were learned and in any state of the random source: nothing is picked
exactly if no variable is free. In a run there always is a free variable when a decision is
due, so every run decides on an open literal and goes on. -/
namespace ClauseLearning

open Randomness

namespace Brancher

/-- The brancher with another source for its random choices. -/
def withSource (source : Keystream) : Brancher → Brancher
  | binaryOccurrence _ => binaryOccurrence source
  | vsids activity => vsids activity
  | occurrence _ => occurrence source
  | random _ => random source
  | jeroslowWang => jeroslowWang

/-- The branchers over so many variables: new ones, and from there on those after a clause
was learned and those whose random source is in another state. -/
inductive Arises (n : Nat) : Brancher → Prop where
  | start (o : Options) (store : ClauseStore) : Arises n (.start o n store)
  | learned (arises : Arises n b) (literals : List Literal) : Arises n (b.noteLearned literals)
  | drawn (arises : Arises n b) (source : Keystream) : Arises n (b.withSource source)

variable {b : Brancher} {a : Assignment} {n : Nat}

theorem Arises.covers (arises : Arises n b) : b.Covers n := by
  induction arises with
  | start o store => exact start_covers o n store
  | learned _ literals ih => exact noteLearned_covers ih literals
  | @drawn b _ source ih =>
    -- only a brancher by activity has an order to cover, and it draws nothing
    cases b with
    | vsids activity => exact ih
    | _ =>
      intro activity known
      cases known

/-- Picking changes the random source at most. -/
theorem exists_source_of_pick (b : Brancher) (a : Assignment) (store : ClauseStore) :
    ∃ source, (b.pick a store).2 = b.withSource source := by
  -- where nothing is drawn any source will do
  cases b with
  | binaryOccurrence source => exact ⟨_, rfl⟩
  | vsids activity => exact ⟨.ofSeed 0, rfl⟩
  | occurrence source => exact ⟨_, rfl⟩
  | random source => exact ⟨_, rfl⟩
  | jeroslowWang => exact ⟨.ofSeed 0, rfl⟩

theorem free_eq_nil_iff : a.free = [] ↔ ∀ var < a.numVariables, a.assigns var = true := by
  simp [List.eq_nil_iff_forall_not_mem, mem_free_iff]

/-- Without a free variable there is nothing to draw. -/
theorem drawLiteral_eq_none (full : a.free = []) (source : Keystream) :
    (drawLiteral a source).1 = none := by
  rw [drawLiteral, full]
  rfl

theorem commonest?_eq_none (full : a.free = []) (counted : Clause → Bool) (store : ClauseStore) :
    Occurrence.commonest? a counted store = none := by
  rw [Option.eq_none_iff_forall_ne_some]
  intro l found
  have free := mem_free_iff.mpr (Occurrence.commonest?_open found)
  rw [full] at free
  cases free

/-- With all variables assigned, no heuristic picks anything. -/
theorem pick_eq_none (covers : b.Covers a.numVariables) (full : a.free = [])
    (store : ClauseStore) : (b.pick a store).1 = none := by
  cases b with
  | binaryOccurrence source =>
    simp [pick, orDraw, commonest?_eq_none full, drawLiteral_eq_none full]
  | vsids activity =>
    simp only [pick, Activity.next?, List.find?_eq_none, List.mem_reverse]
    intro l listed
    have declared := (covers activity rfl l).mp listed
    simp [free_eq_nil_iff.mp full l.var declared]
  | occurrence source =>
    simp [pick, orDraw, commonest?_eq_none full, drawLiteral_eq_none full]
  | random source => exact drawLiteral_eq_none full source
  | jeroslowWang => simp [pick, Occurrence.heaviest?, full, firstMaximum]

theorem pick_spec (covers : b.Covers a.numVariables) (store : ClauseStore) :
    ((b.pick a store).1 = none ↔ ∀ var < a.numVariables, a.assigns var = true) ∧
      ∀ l, (b.pick a store).1 = some l → l.var < a.numVariables ∧ a.assigns l.var = false := by
  rw [← free_eq_nil_iff]
  by_cases full : a.free = []
  · have none_ := pick_eq_none covers full store
    simp [none_, full]
  · obtain ⟨l, picked, free⟩ := pick_open covers full store
    simp [picked, full, mem_free_iff.mp free]

end Brancher

namespace Solver

/-- A run of the solver of a formula under assumptions comes to this point. -/
inductive Progress.Occurs (f : Formula) (o : Options) (assumed : List Literal) :
    Progress → Prop where
  | start (built : ofFormula f o = .ok s) (nonempty : s.state.hasEmptyClause = false)
      (held : { s.state with assumptions := assumed }.assume = .ok (.held, t)) :
      Occurs f o assumed ⟨⟨t, s.brancher⟩, .propagating, []⟩
  | turn (occurs : Occurs f o assumed p) (turned : p.turn = .inl q) : Occurs f o assumed q

variable {f : Formula} {o : Options} {assumed : List Literal} {p q : Progress}

/-- A turn that goes on is a step of the solver. -/
theorem Progress.step_of_turn (turned : p.turn = .inl q) :
    ∃ choice, p.solver.step p.phase = .ok (choice, q.phase, q.solver) := by
  unfold Progress.turn at turned
  split at turned
  · split at turned <;> cases turned
  · cases turned
  · split at turned
    · cases turned
    · rename_i choice next solver stepped
      cases turned
      exact ⟨choice, stepped⟩

theorem brancher_of_step {s t : Solver} (stepped : s.step phase = .ok (choice, next, t)) :
    t.brancher = (s.brancher.follow phase s.state).2 := by
  unfold step at stepped
  simp only at stepped
  generalize s.state.advance _ phase = advanced at stepped
  cases advanced with
  | error fault => cases stepped
  | ok result =>
    cases stepped
    rfl

/-- What a brancher does in a phase leaves one that can arise. -/
theorem follow_arises {b : Brancher} (arises : b.Arises n) (phase : Phase) (s : State) :
    (b.follow phase s).2.Arises n := by
  cases phase with
  | deciding =>
    obtain ⟨source, drawn⟩ := b.exists_source_of_pick s.trail.assignment s.store
    exact drawn ▸ arises.drawn source
  | backjumping l => exact arises.learned l.literals
  | restarting l => exact arises.learned l.literals
  | propagating | analyzing | satisfied | unsatisfiable => exact arises

/-- Every run is one that is allowed, with a brancher that can arise. -/
theorem Progress.Occurs.invariant (occurs : Progress.Occurs f o assumed p)
    (declared : ∀ l ∈ assumed, l.var < f.numVariables) :
    p.Tracks f o assumed ∧ p.solver.brancher.Arises f.numVariables := by
  induction occurs with
  | start built nonempty held =>
    obtain ⟨state, loaded, -⟩ := State.ofFormula_spec f o
    rw [ofFormula, loaded] at built
    cases built
    have arises := Brancher.Arises.start (n := f.numVariables) o state.store
    exact ⟨⟨.start loaded nonempty held, arises.covers⟩, arises⟩
  | turn _ turned ih =>
    obtain ⟨tracks, arises⟩ := ih
    obtain ⟨choice, stepped⟩ := Progress.step_of_turn turned
    refine ⟨?_, brancher_of_step stepped ▸ follow_arises arises _ _⟩
    rcases turn_spec tracks declared with ⟨next, turned', tracks', -⟩ | ⟨finished, ended, -⟩
    · cases turned.symm.trans turned'
      exact tracks'
    · cases turned.symm.trans ended

/-- A decision that is due is made on an open literal, and the search does not end by it. -/
theorem Progress.Tracks.decides (tracks : p.Tracks f o assumed) (due : p.phase = .deciding)
    (declared : ∀ l ∈ assumed, l.var < f.numVariables) : ∃ l q,
    (p.solver.brancher.pick p.solver.state.trail.assignment p.solver.state.store).1 = some l ∧
      p.solver.state.Open l ∧ p.turn = .inl q ∧ q.phase ≠ .satisfied := by
  obtain ⟨poised, -, founded⟩ := tracks.reached.invariant declared
  have allowed := follow_allowed tracks.covers poised founded
  obtain ⟨l, picked, open_⟩ := allowed due
  obtain ⟨next, t, ran, advanced⟩ := State.advance_spec poised allowed
  obtain ⟨events, turned⟩ := turn_of_advance (due ▸ nofun) (due ▸ nofun) ran
  rw [due] at picked advanced
  have unsolved : next ≠ .satisfied := by
    obtain ⟨-, -, rfl | ⟨index, rfl⟩⟩ := advanced.moves <;> nofun
  exact ⟨l, _, picked, open_, turned, unsolved⟩

end Solver

variable {f : Formula} {o : Options} {numbers : List Int} {assumed : List Literal}

/-- Every heuristic picks a literal of a free variable as long as there is one, and nothing
otherwise. In every run the brancher is one of these, and every decision that is due is made:
on an open literal, and without ending the search for want of one. -/
theorem branching_is_total
    (accepted : numbers.mapM (Solver.assumption f.numVariables) = .ok assumed) :
    (∀ n b, Brancher.Arises n b → ∀ a : Assignment, a.numVariables = n → ∀ store,
      ((b.pick a store).1 = none ↔ ∀ var < n, a.assigns var = true) ∧
      ∀ l, (b.pick a store).1 = some l → l.var < n ∧ a.assigns l.var = false) ∧
    ∀ p, Solver.Progress.Occurs f o assumed p →
      p.solver.brancher.Arises f.numVariables ∧
      (p.phase = .deciding → ∃ l q,
        (p.solver.brancher.pick p.solver.state.trail.assignment p.solver.state.store).1 = some l ∧
          p.solver.state.Open l ∧ p.turn = .inl q ∧ q.phase ≠ .satisfied) := by
  have declared := Solver.declared_of_accepted accepted
  constructor
  · rintro n b arises a rfl store
    exact Brancher.pick_spec arises.covers store
  · intro p occurs
    obtain ⟨tracks, arises⟩ := occurs.invariant declared
    exact ⟨arises, fun due => tracks.decides due declared⟩

/-- After a clause was learned, a brancher picks the variable left; a search propagates from
its start and then makes a decision. -/
theorem branching_is_total_exclusive :
    [4].mapM (Solver.assumption exclusive.numVariables) = .ok [⟨3, true⟩] ∧
    (∃ l, (((Brancher.start {} 2 (.empty 2)).noteLearned [⟨0, false⟩]).pick
      ⟨#[some ⟨true, 0, none⟩, none]⟩ (.empty 2)).1 = some l ∧ l.var = 1) ∧
    ∃ p l q, Solver.Progress.Occurs exclusive {} [⟨3, true⟩] p ∧ p.phase = .deciding ∧
      (p.solver.brancher.pick p.solver.state.trail.assignment p.solver.state.store).1 = some l ∧
      p.solver.state.Open l ∧ p.turn = .inl q ∧ q.phase ≠ .satisfied := by
  obtain ⟨total, decides⟩ := branching_is_total (o := {}) exclusive_accepted
  refine ⟨exclusive_accepted, ?_, ?_⟩
  · have arises := (Brancher.Arises.start (n := 2) {} (.empty 2)).learned [⟨0, false⟩]
    obtain ⟨fails, picks⟩ := total 2 _ arises ⟨#[some ⟨true, 0, none⟩, none]⟩ rfl (.empty 2)
    have free : ¬ ∀ var < 2, Assignment.assigns ⟨#[some ⟨true, 0, none⟩, none]⟩ var = true := by
      decide
    obtain ⟨l, picked⟩ := Option.ne_none_iff_exists'.mp (mt fails.mp free)
    obtain ⟨inRange, unassigned⟩ := picks l picked
    refine ⟨l, picked, ?_⟩
    generalize l.var = var at inRange unassigned
    decide +revert
  · have follows : (State.along exclusive {} [⟨3, true⟩] [none]).map Prod.fst = some .deciding := by
      decide +kernel
    obtain ⟨⟨_, u⟩, along, rfl⟩ := Option.map_eq_some_iff.mp follows
    obtain ⟨⟨_, t⟩, started, followed⟩ := Option.bind_eq_some_iff.mp along
    obtain ⟨rfl, s, loaded, nonempty, held⟩ := State.start?_eq_some_iff.mp started
    have built : Solver.ofFormula exclusive {} = .ok ⟨s, .start {} 4 s.store⟩ := by
      rw [Solver.ofFormula, loaded]
      rfl
    have start := Solver.Progress.Occurs.start built nonempty held
    have stepped : State.step? (.propagating, t) none = some (.deciding, u) := by
      simpa using followed
    obtain ⟨-, ran⟩ := State.step?_eq_some_iff.mp stepped
    obtain ⟨events, turned⟩ := Solver.turn_of_advance
      (p := ⟨⟨t, .start {} 4 s.store⟩, .propagating, []⟩) nofun nofun ran
    obtain ⟨l, q, decided⟩ := (decides _ (start.turn turned)).2 rfl
    exact ⟨_, l, q, start.turn turned, rfl, decided⟩

end ClauseLearning
