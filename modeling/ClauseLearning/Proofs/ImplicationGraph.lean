import ClauseLearning.Proofs.RunStates
import ClauseLearning.Proofs.TrailPositions

/-! The trail as an implication graph. In every state of a run the trail lists the
true literals, a literal's level is that of its position, a level starts with its
decision, and each of its other literals was implied by a living clause whose other
literals became false before, one of them at the same level. -/
namespace ClauseLearning

/-- The trail lists the true literals once, cut into levels: the level of a literal is
the number of levels opened where it stands or before, and a level above 0 starts
with its only literal that has no antecedent. -/
structure Trail.Ordered (t : Trail) : Prop where
  distinct : (t.literals.map Literal.var).Nodup
  listed : ∀ l, l ∈ t.literals ↔ t.value? l = some true
  offsets : t.levelOffsets.length = t.level
  levels : ∀ (p : Nat) l, t.literals[p]? = some l →
    t.level? l = some (t.levelOffsets.countP (· ≤ p))
  monotone : ∀ (p q : Nat) l m j k, p ≤ q → t.literals[p]? = some l → t.literals[q]? = some m →
    t.level? l = some j → t.level? m = some k → j ≤ k
  decisions : ∀ d, 0 < d → d ≤ t.level → ∃ offset l, t.levelOffsets[d - 1]? = some offset ∧
    t.literals[offset]? = some l ∧ t.level? l = some d ∧
    ∀ (q : Nat) m, t.literals[q]? = some m → t.level? m = some d →
      offset ≤ q ∧ (t.reason m = none ↔ m = l)

/-- The antecedent of a literal lives and contains it, and all its other literals
became false earlier. Above level 0 the literal has the highest of their levels. -/
def State.Derived (s : State) : Prop :=
  ∀ (p : Nat) l i, s.trail.literals[p]? = some l → s.trail.reason l = some i →
    ∃ c, s.store.clause? i = some c ∧ l ∈ c.literals ∧
      (∀ m ∈ c.literals, m ≠ l → s.trail.value? m = some false ∧
        ∃ q < p, s.trail.literals[q]? = some m.negate) ∧
      ∀ d, 0 < d → s.trail.level? l = some d →
        (∀ m ∈ c.literals, m ≠ l → ∃ k ≤ d, s.trail.level? m = some k) ∧
        ∃ m ∈ c.literals, m ≠ l ∧ s.trail.level? m = some d

variable {t : Trail} {s : State}

theorem Trail.Coherent.true_at_of_literals {p : Nat} (coherent : t.Coherent)
    (found : t.literals[p]? = some l) : ∃ k, t.TrueAt l k :=
  coherent.true_at_of_mem ((mem_literals_iff t l).mp (List.mem_of_getElem? found))

/-- The stored level of a literal on the trail is the one it is true at. -/
theorem Trail.Coherent.true_at_of_found {p : Nat} (coherent : t.Coherent)
    (found : t.literals[p]? = some l) (level : t.level? l = some k) : t.TrueAt l k :=
  true_at_of_level? (value?_eq_true_iff.mpr (coherent.true_at_of_literals found)) level

theorem Trail.Layered.ordered (layered : t.Layered) (coherent : t.Coherent) : t.Ordered where
  distinct := by
    rw [literals, List.map_reverse, List.nodup_reverse]
    exact coherent.distinct
  listed := fun l => coherent.mem_literals_iff_value?
  offsets := length_levelOffsets t
  levels := by
    intro p l found
    obtain ⟨k, holds⟩ := coherent.true_at_of_literals found
    rw [← coherent.level_eq_countP found holds]
    exact level?_of_true_at holds
  monotone := by
    intro p q l m j k before first second lower upper
    apply coherent.level_mono before first second
    · exact coherent.true_at_of_found first lower
    · exact coherent.true_at_of_found second upper
  decisions := by
    intro d positive opened
    obtain ⟨offset, l, starts, found, holds, free, first⟩ :=
      layered.decision coherent positive opened
    refine ⟨offset, l, starts, found, level?_of_true_at holds, fun q m found' level => ?_⟩
    obtain ⟨after, only⟩ := first q m found' (coherent.true_at_of_found found' level)
    exact ⟨after, only, fun same => same ▸ free⟩

theorem State.Coherent.derived (coherent : s.Coherent) : s.Derived := by
  intro p l i found known
  obtain ⟨newer, older, split, rfl⟩ := Trail.getElem?_literals_iff.mp found
  obtain ⟨c, living, inside, earlier, peer⟩ := coherent.explained newer l older i split known
  have negated : ∀ m ∈ c.literals, m ≠ l → ∃ k, s.trail.TrueAt m.negate k := by
    intro m member different
    apply coherent.trail.true_at_of_mem
    exact Trail.mem_newestFirst_of_mem_older split (earlier m member different)
  refine ⟨c, living, inside, fun m member different => ?_, fun d positive level => ?_⟩
  · exact ⟨Trail.value?_eq_false_iff.mpr (negated m member different),
      Trail.exists_position_of_mem_older split (earlier m member different)⟩
  · have holds := coherent.trail.true_at_of_found found level
    constructor
    · -- the other literals stand earlier, so their levels are not higher
      intro m member different
      obtain ⟨k, fails⟩ := negated m member different
      have before := earlier m member different
      exact ⟨k, coherent.trail.level_le_of_mem_older split before fails holds,
        Trail.level?_of_false_at fails⟩
    · obtain ⟨m, member, different, fails⟩ := peer d positive holds
      exact ⟨m, member, different, Trail.level?_of_false_at fails⟩

variable {f : Formula} {o : Options} {numbers : List Int} {assumed : List Literal}

/-- In every state of a run the trail is ordered by levels, and every antecedent
implied its literal from earlier ones. -/
theorem trail_is_implication_graph
    (accepted : numbers.mapM (Solver.assumption f.numVariables) = .ok assumed) :
    ∀ phase s, Occurs f o assumed phase s → s.trail.Ordered ∧ s.Derived := by
  intro phase s occurs
  have invariant := occurs.invariant (Solver.declared_of_accepted accepted)
  exact ⟨invariant.layered.ordered invariant.coherent.trail, invariant.coherent.derived⟩

/-- After the conflict the learned clause implies a literal at the level of its other one. -/
theorem trail_is_implication_graph_exclusive :
    [4].mapM (Solver.assumption exclusive.numVariables) = .ok [⟨3, true⟩] ∧
    ∃ phase s, Occurs exclusive {} [⟨3, true⟩] phase s ∧
      (s.trail.literals = [⟨3, true⟩, ⟨0, true⟩, ⟨1, false⟩] ∧ s.trail.levelOffsets = [1] ∧
        s.trail.reason ⟨1, false⟩ = some 2) ∧
      s.trail.Ordered ∧ s.Derived := by
  obtain ⟨phase, s, reached, shown⟩ := exists_exclusive
    (p := fun _ s => s.trail.literals = [⟨3, true⟩, ⟨0, true⟩, ⟨1, false⟩] ∧
      s.trail.levelOffsets = [1] ∧ s.trail.reason ⟨1, false⟩ = some 2)
    8 (by decide +kernel)
  exact ⟨exclusive_accepted, phase, s, .turn reached, of_decide_eq_true shown,
    trail_is_implication_graph exclusive_accepted phase s (.turn reached)⟩

end ClauseLearning
