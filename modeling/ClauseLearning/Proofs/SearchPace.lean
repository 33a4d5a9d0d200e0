import Mathlib.Tactic.Linarith
import ClauseLearning.Proofs.SearchSteps
import ClauseLearning.Proofs.TrailWeight

/-! The search makes progress with every step. Between two restarts the trail only
gets heavier from conflict to conflict, so there are no more conflicts than its
greatest weight; then the limit on conflicts cannot be reached any more once it
exceeds that weight, and every restart raises it. One number counts all this
down. -/
namespace ClauseLearning.State

/-- No trail over so many variables is heavier than this. -/
def ceiling (n : Nat) : Nat :=
  (n + 1) ^ (n + 1)

/-- The weight of the trail. -/
def weight (s : State) : Nat :=
  s.trail.weight s.numVariables

/-- The weight that the literal waiting first adds to the trail. -/
def owed (s : State) : Nat :=
  match nextUnit s.trail.value? s.queue with
  | .assign _ _ _ => Trail.unitWeight s.numVariables s.level
  | _ => 0

/-- The weight that the trail has as soon as the phase comes to its end. -/
def potential (s : State) : Phase → Nat
  | .propagating => s.weight + s.owed
  | _ => s.weight

/-- The conflicts since the last restart are paid for by the weight of the trail,
up to the one being answered. -/
def Paced (s : State) : Phase → Prop
  | .backjumping _ => s.schedule.conflicts ≤ s.weight + 1
  | .restarting _ => s.schedule.conflicts ≤ s.weight + 1 ∧
      s.schedule.conflictsLimit ≤ s.schedule.conflicts
  | phase => s.schedule.conflicts ≤ s.potential phase

/-- How many phases may come before the trail gets heavier. -/
def urgency : Phase → Nat
  | .propagating => 3
  | .analyzing _ => 2
  | .backjumping _ => 1
  | .restarting _ => 1
  | _ => 0

/-- The number that every step makes smaller. -/
def rank (s : State) (phase : Phase) : Nat :=
  (ceiling s.numVariables + 2 - s.schedule.conflictsLimit) * (4 * ceiling s.numVariables + 8)
    + 4 * (ceiling s.numVariables - s.potential phase) + urgency phase

variable {s t : State} {phase next : Phase}

theorem owed_of_ready (ready : s.Ready) :
    s.owed = Trail.unitWeight s.numVariables s.level := by
  obtain ⟨i, l, rest, asked⟩ := ready
  rw [owed, asked]

theorem owed_of_not_ready (idle : ¬ s.Ready) : s.owed = 0 := by
  unfold owed
  split
  · rename_i i l rest asked
    exact absurd ⟨i, l, rest, asked⟩ idle
  · rfl

theorem weight_le_potential (s : State) (phase : Phase) : s.weight ≤ s.potential phase := by
  cases phase <;> simp [potential]

theorem potential_le_ceiling (coherent : s.Coherent) (phase : Phase) :
    s.potential phase ≤ ceiling s.numVariables := by
  have most := Trail.weight_add_le coherent.trail coherent.declared s.level
  have owed : s.owed ≤ Trail.unitWeight s.numVariables s.level := by
    by_cases ready : s.Ready
    · exact Nat.le_of_eq (owed_of_ready ready)
    · rw [owed_of_not_ready ready]
      exact Nat.zero_le _
  have within : s.weight + s.owed ≤ ceiling s.numVariables :=
    Nat.le_trans (Nat.add_le_add_left owed _) most
  cases phase with
  | propagating => exact within
  | _ => exact Nat.le_trans (Nat.le_add_right _ _) within

/-! ## How steps change the weight -/

/-- Propagating adds at least what is owed. -/
theorem Advanced.potential_le (advanced : s.Advanced .propagating t next) :
    s.potential .propagating ≤ t.weight := by
  obtain ⟨-, ⟨added, some_, leveled⟩, -⟩ := advanced.moves
  have grown : t.weight
      = added.length * Trail.unitWeight s.numVariables s.level + s.weight := by
    unfold weight Trail.weight
    rw [advanced.keeps.numVariables, leveled, Trail.totalWeight_append, Trail.totalWeight_level]
  have sum : s.potential .propagating = s.weight + s.owed := rfl
  by_cases ready : s.Ready
  · have positive := List.length_pos_iff.mpr (some_ ready)
    have one := Nat.mul_le_mul_right (Trail.unitWeight s.numVariables s.level) positive
    rw [sum, owed_of_ready ready, grown]
    omega
  · rw [sum, owed_of_not_ready ready, grown]
    omega

theorem Advanced.weight_lt_of_deciding (advanced : s.Advanced .deciding t next) :
    s.weight < t.weight := by
  obtain ⟨-, ⟨l, leveled⟩, -⟩ := advanced.moves
  have positive := Trail.unitWeight_pos s.numVariables (s.level + 1)
  unfold weight Trail.weight
  rw [advanced.keeps.numVariables, leveled, Trail.totalWeight_cons]
  exact Nat.lt_add_of_pos_left positive

/-- A backjump drops levels, but owes a literal that outweighs them. -/
theorem Advanced.weight_lt_of_backjumping (poised : s.Poised (.backjumping l))
    (advanced : s.Advanced (.backjumping l) t next) : s.weight < t.potential .propagating := by
  obtain ⟨-, trail, ready, -⟩ := advanced.moves
  obtain ⟨coherent, layered, fits, -⟩ := poised
  have reach : l.returnLevel ≤ s.trail.level := Nat.le_of_lt fits.below
  have shallow : l.returnLevel < s.numVariables :=
    Nat.lt_of_lt_of_le fits.below (Trail.level_le coherent.trail layered coherent.declared)
  have heavier := Trail.weight_lt_backTo coherent.trail coherent.declared reach shallow
  have level : t.level = l.returnLevel := by
    rw [State.level, trail]
    exact Trail.level_backTo_of_le reach
  unfold potential weight
  rw [owed_of_ready ready, advanced.keeps.numVariables, level, trail]
  exact heavier

theorem Advanced.weight_eq_of_analyzing (advanced : s.Advanced (.analyzing index) t next) :
    t.weight = s.weight := by
  obtain ⟨trail, -⟩ := advanced.moves
  rw [weight, trail, advanced.keeps.numVariables, weight]

/-! ## Pace and rank -/

/-- A restart is due only if the limit is reached. -/
theorem conflictsLimit_le_of_due {schedule : Schedule} (due : schedule.countConflict.1 = true) :
    schedule.countConflict.2.conflictsLimit ≤ schedule.countConflict.2.conflicts := by
  simpa [Schedule.countConflict] using due

theorem conflictsLimit_lt_relax (schedule : Schedule) :
    schedule.conflictsLimit < schedule.relax.conflictsLimit := by
  unfold Schedule.relax
  exact Nat.lt_of_lt_of_le (Nat.lt_succ_self _) (Nat.le_max_right _ _)

theorem Advanced.paced (advanced : s.Advanced phase t next) (poised : s.Poised phase)
    (paced : s.Paced phase) : t.Paced next := by
  cases phase with
  | propagating =>
    have heavier := advanced.potential_le
    obtain ⟨schedule, -, phases⟩ := advanced.moves
    have conflicts : t.schedule.conflicts ≤ t.weight := by
      rw [schedule]
      exact Nat.le_trans paced heavier
    rcases phases with rfl | rfl | ⟨index, rfl⟩ <;> exact conflicts
  | deciding =>
    have heavier := advanced.weight_lt_of_deciding
    obtain ⟨schedule, -, phases⟩ := advanced.moves
    have conflicts : t.schedule.conflicts ≤ t.weight := by
      rw [schedule]
      exact Nat.le_trans paced (Nat.le_of_lt heavier)
    rcases phases with rfl | ⟨index, rfl⟩
    · exact Nat.le_trans conflicts (weight_le_potential t _)
    · exact conflicts
  | analyzing index =>
    have same := advanced.weight_eq_of_analyzing
    obtain ⟨-, ⟨rfl, schedule⟩ | ⟨l, rfl, schedule⟩⟩ := advanced.moves
    · unfold Paced potential
      rw [same, schedule]
      exact paced
    · have counted : t.schedule.conflicts = s.schedule.conflicts + 1 := by
        rw [schedule]
        rfl
      have conflicts : t.schedule.conflicts ≤ t.weight + 1 := by
        rw [counted, same]
        exact Nat.succ_le_succ paced
      cases due : s.schedule.countConflict.1 with
      | true =>
        refine ⟨conflicts, ?_⟩
        rw [schedule]
        exact conflictsLimit_le_of_due due
      | false => exact conflicts
  | backjumping l =>
    have heavier := advanced.weight_lt_of_backjumping poised
    obtain ⟨schedule, -, -, rfl⟩ := advanced.moves
    unfold Paced
    rw [schedule]
    exact Nat.le_trans paced heavier
  | restarting l =>
    obtain ⟨schedule, rfl⟩ := advanced.moves
    unfold Paced
    rw [schedule]
    exact Nat.zero_le _
  | satisfied =>
    obtain ⟨rfl, rfl⟩ := advanced.moves
    exact paced
  | unsatisfiable =>
    obtain ⟨rfl, rfl⟩ := advanced.moves
    exact paced

/-- As long as the limit on conflicts stays the same, more weight or less urgency
lowers the rank. -/
theorem rank_lt_of_schedule (sized : t.numVariables = s.numVariables)
    (schedule : t.schedule.conflictsLimit = s.schedule.conflictsLimit)
    (progress : 4 * (ceiling s.numVariables - t.potential next) + urgency next
      < 4 * (ceiling s.numVariables - s.potential phase) + urgency phase) :
    t.rank next < s.rank phase := by
  unfold rank
  rw [sized, schedule]
  omega

/-- A restart gives up the weight of the trail, but the limit it raises outweighs it. -/
theorem Advanced.rank_lt_of_restarting (advanced : s.Advanced (.restarting l) t next)
    (poised : s.Poised (.restarting l)) (paced : s.Paced (.restarting l)) :
    t.rank next < s.rank (.restarting l) := by
  have light := potential_le_ceiling poised.coherent (.restarting l)
  obtain ⟨schedule, rfl⟩ := advanced.moves
  obtain ⟨conflicts, due⟩ := paced
  have same : s.potential (.restarting l) = s.weight := rfl
  have raised : s.schedule.conflictsLimit < t.schedule.conflictsLimit := by
    rw [schedule]
    exact conflictsLimit_lt_relax _
  have fewer : ceiling s.numVariables + 2 - t.schedule.conflictsLimit + 1
      ≤ ceiling s.numVariables + 2 - s.schedule.conflictsLimit := by omega
  have saved := Nat.mul_le_mul_right (4 * ceiling s.numVariables + 8) fewer
  rw [Nat.succ_mul] at saved
  unfold rank
  rw [advanced.keeps.numVariables]
  simp only [urgency]
  omega

/-- Every step before the end lowers the rank. -/
theorem Advanced.rank_lt (advanced : s.Advanced phase t next) (poised : s.Poised phase)
    (paced : s.Paced phase) (unsolved : phase ≠ .satisfied) (unrefuted : phase ≠ .unsatisfiable) :
    t.rank next < s.rank phase := by
  have sized := advanced.keeps.numVariables
  have most := potential_le_ceiling advanced.poised.coherent next
  rw [sized] at most
  cases phase with
  | propagating =>
    have heavier := advanced.potential_le
    obtain ⟨schedule, -, phases⟩ := advanced.moves
    apply rank_lt_of_schedule sized (by rw [schedule])
    rcases phases with rfl | rfl | ⟨index, rfl⟩
    · have same : t.potential .deciding = t.weight := rfl
      simp only [urgency]
      omega
    · have same : t.potential .satisfied = t.weight := rfl
      simp only [urgency]
      omega
    · have same : t.potential (.analyzing index) = t.weight := rfl
      simp only [urgency]
      omega
  | deciding =>
    have heavier := advanced.weight_lt_of_deciding
    have counted := weight_le_potential t next
    have same : s.potential .deciding = s.weight := rfl
    obtain ⟨schedule, -, phases⟩ := advanced.moves
    apply rank_lt_of_schedule sized (by rw [schedule])
    rcases phases with rfl | ⟨index, rfl⟩
    · simp only [urgency]
      omega
    · simp only [urgency]
      omega
  | analyzing index =>
    have same : s.potential (.analyzing index) = s.weight := rfl
    have weights := advanced.weight_eq_of_analyzing
    obtain ⟨-, ⟨rfl, schedule⟩ | ⟨l, rfl, schedule⟩⟩ := advanced.moves
    · have same' : t.potential .unsatisfiable = s.weight := weights
      apply rank_lt_of_schedule sized (by rw [schedule])
      simp only [urgency]
      omega
    · apply rank_lt_of_schedule sized (by rw [schedule]; rfl)
      cases due : s.schedule.countConflict.1 with
      | true =>
        have same' : t.potential (.restarting l) = s.weight := weights
        simp only [urgency, if_true]
        omega
      | false =>
        have same' : t.potential (.backjumping l) = s.weight := weights
        simp only [urgency, Bool.false_eq_true, if_false]
        omega
  | backjumping l =>
    have heavier := advanced.weight_lt_of_backjumping poised
    have same : s.potential (.backjumping l) = s.weight := rfl
    obtain ⟨schedule, -, -, rfl⟩ := advanced.moves
    apply rank_lt_of_schedule sized (by rw [schedule])
    simp only [urgency]
    omega
  | restarting l => exact advanced.rank_lt_of_restarting poised paced
  | satisfied => exact absurd rfl unsolved
  | unsatisfiable => exact absurd rfl unrefuted

/-- More steps than a search over so many variables takes. -/
def stepBound (n : Nat) : Nat :=
  4 * ((ceiling n + 3) * (ceiling n + 3))

theorem rank_lt_stepBound (s : State) (phase : Phase) :
    s.rank phase + 1 < stepBound s.numVariables := by
  let top := ceiling s.numVariables
  have urgent : urgency phase ≤ 3 := by cases phase <;> simp [urgency]
  have restarts : (top + 2 - s.schedule.conflictsLimit) * (4 * top + 8)
      ≤ (top + 2) * (4 * top + 8) := Nat.mul_le_mul_right _ (Nat.sub_le _ _)
  have weights : top - s.potential phase ≤ top := Nat.sub_le _ _
  have sum : s.rank phase = (top + 2 - s.schedule.conflictsLimit) * (4 * top + 8)
      + 4 * (top - s.potential phase) + urgency phase := rfl
  have square : (top + 2) * (4 * top + 8) + 4 * top + 5 ≤ 4 * ((top + 3) * (top + 3)) := by
    nlinarith
  change s.rank phase + 1 < 4 * ((top + 3) * (top + 3))
  omega

/-- The conflicts since the last restart are not more than a trail can pay for. -/
theorem Paced.conflicts_le (paced : s.Paced phase) (coherent : s.Coherent) :
    s.schedule.conflicts ≤ ceiling s.numVariables + 1 := by
  have light : s.potential phase ≤ ceiling s.numVariables := potential_le_ceiling coherent phase
  have weighed := weight_le_potential s phase
  cases phase with
  | backjumping l => exact Nat.le_trans paced (by omega)
  | restarting l => exact Nat.le_trans paced.1 (by omega)
  | _ => exact Nat.le_trans paced (by omega)

end ClauseLearning.State
