import ClauseLearning.Proofs.PropagationClosure

/-! Nothing is left to do below the current level. The literals of the lower levels
falsify no living clause, and where they falsify all literals of a clause but one, that
one is among them. It holds while a conflict is pending, of clauses that were learned
after the level was left and of those that outlived a restart; going back can
therefore forget what waits without looking at any clause. -/
namespace ClauseLearning

/-- The literal is on the trail, at this level or a lower one. -/
def Trail.TrueUpTo (t : Trail) (k : Nat) (l : Literal) : Prop :=
  l ∈ t.literals ∧ ∃ j ≤ k, t.level? l = some j

/-- The assignment of the levels up to this one falsifies no living clause, and it is
closed under the unit rule. -/
structure State.FinishedUpTo (s : State) (k : Nat) : Prop where
  unfalsified : ∀ c, s.Living c → ¬ ∀ m ∈ c, s.trail.TrueUpTo k m.negate
  closed : ClosedUnder s.Living (s.trail.TrueUpTo k)

variable {s : State} {t : Trail}

/-- Going back to a level leaves exactly the literals up to it. -/
theorem Trail.Coherent.trueUpTo_iff (coherent : t.Coherent) (reach : k ≤ t.level) :
    t.TrueUpTo k l ↔ l ∈ (t.backTo k).literals := by
  rw [(coherent.backTo_coherent reach).mem_literals_iff_value?, value?_eq_true_iff]
  constructor
  · rintro ⟨onTrail, j, bound, level⟩
    have holds := true_at_of_level? (coherent.mem_literals_iff_value?.mp onTrail) level
    exact ⟨j, (coherent.true_at_backTo reach).mpr ⟨holds, bound⟩⟩
  · rintro ⟨j, kept⟩
    obtain ⟨holds, bound⟩ := (coherent.true_at_backTo reach).mp kept
    have onTrail := coherent.mem_literals_iff_value?.mpr (value?_of_true_at holds)
    exact ⟨onTrail, j, bound, level?_of_true_at holds⟩

/-- A state that went back to a lower level has the same clauses, nothing waits in it
and it overlooks nothing; so its trail is closed. -/
theorem State.Coherent.finishedUpTo (coherent : s.Coherent) (below : k < s.level) :
    s.FinishedUpTo k := by
  have reach : k ≤ s.level := Nat.le_of_lt below
  have coherent' := backtrack_coherent coherent reach
  have quiet := backtrack_quiet coherent below
  have same : s.trail.TrueUpTo k = (· ∈ (s.backtrack k).trail.literals) :=
    funext fun _ => propext (coherent.trail.trueUpTo_iff reach)
  constructor
  · rintro _ ⟨i, c, living, rfl⟩ all
    rw [same] at all
    apply quiet.not_falsified coherent' rfl (i := i)
    exact ⟨c, living, fun m member => coherent'.value?_of_negate_mem (all m member)⟩
  · rw [same]
    exact quiet.closedUnder coherent' rfl

variable {f : Formula} {o : Options} {numbers : List Int} {assumed : List Literal}

/-- In every state of a run, with a conflict pending or not, the levels below the
current one miss no implication. -/
theorem lower_levels_are_finished
    (accepted : numbers.mapM (Solver.assumption f.numVariables) = .ok assumed) :
    ∀ phase s, Occurs f o assumed phase s → ∀ k < s.level, s.FinishedUpTo k := by
  intro phase s occurs k below
  have invariant := occurs.invariant (Solver.declared_of_accepted accepted)
  exact invariant.coherent.finishedUpTo below

/-- With a conflict pending at level 2, level 1 is finished. The clause learned from
it outlives the restart, and when level 2 is open again it implied its literal at level 1. -/
theorem lower_levels_are_finished_exclusive :
    [4].mapM (Solver.assumption exclusive.numVariables) = .ok [⟨3, true⟩] ∧
    (∃ i s, Occurs exclusive {} [⟨3, true⟩] (.analyzing i) s ∧ 1 < s.level ∧ s.FinishedUpTo 1) ∧
    ∃ phase s, Occurs exclusive { conflictsLimit := 1 } [⟨3, true⟩] phase s ∧
      (s.trail.literals = [⟨3, true⟩, ⟨0, true⟩, ⟨1, false⟩, ⟨2, true⟩] ∧ s.level = 2 ∧
        s.statistics.restarts = 1 ∧
        s.store.clause? 2 = some ⟨[⟨1, false⟩, ⟨0, false⟩], .learned 2⟩) ∧
      s.trail.TrueUpTo 1 ⟨1, false⟩ := by
  refine ⟨exclusive_accepted, ?_, ?_⟩
  · obtain ⟨phase, s, reached, shown⟩ := exists_exclusive
      (p := fun phase s => phase = .analyzing 1 ∧ 1 < s.level) 5 (by decide +kernel)
    obtain ⟨rfl, above⟩ := of_decide_eq_true shown
    exact ⟨1, s, .turn reached, above,
      lower_levels_are_finished exclusive_accepted _ s (.turn reached) 1 above⟩
  · obtain ⟨phase, s, reached, shown⟩ := @exists_reachable
      exclusive { conflictsLimit := 1 } [⟨3, true⟩]
      (fun _ s => (s.trail.literals = [⟨3, true⟩, ⟨0, true⟩, ⟨1, false⟩, ⟨2, true⟩] ∧
          s.level = 2 ∧ s.statistics.restarts = 1 ∧
          s.store.clause? 2 = some ⟨[⟨1, false⟩, ⟨0, false⟩], .learned 2⟩) ∧
        s.trail.level? ⟨0, true⟩ = some 1)
      [none, some ⟨0, true⟩, none, some ⟨1, true⟩, none, none, none, none, some ⟨0, true⟩, none,
        some ⟨2, true⟩] (by decide +kernel)
    obtain ⟨facts, level⟩ := of_decide_eq_true shown
    have finished :=
      lower_levels_are_finished exclusive_accepted phase s (.turn reached) 1 (by omega)
    refine ⟨phase, s, .turn reached, facts, ?_⟩
    apply finished.closed _ ⟨2, _, facts.2.2.2, rfl⟩ _ List.mem_cons_self
    intro m member different
    obtain rfl : m = ⟨0, false⟩ := by simpa [different] using member
    exact ⟨by simp [facts.1, Literal.negate], 1, Nat.le_refl 1, level⟩

end ClauseLearning
