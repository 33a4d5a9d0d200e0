import Mathlib.Tactic.Ring
import ClauseLearning.Proofs.TrailOrder

/-! The weight of a trail. A literal weighs so much more than one of the next level
that one literal more on a level outweighs every literal above it. So a backjump
that drops levels and adds one literal below them makes the trail heavier,
although it has fewer literals than before. -/
namespace ClauseLearning.Trail

/-- The weight of a literal of the given level, with `n` variables. -/
def unitWeight (n k : Nat) : Nat :=
  (n + 1) ^ (n - k)

/-- The sum of the weights of literals with levels. -/
def totalWeight (n : Nat) (xs : List (Literal × Nat)) : Nat :=
  (xs.map fun x => unitWeight n x.2).sum

/-- The weight of a trail. -/
def weight (n : Nat) (t : Trail) : Nat :=
  totalWeight n t.leveled

theorem unitWeight_pos (n k : Nat) : 0 < unitWeight n k :=
  Nat.pow_pos (Nat.succ_pos n)

theorem unitWeight_antitone (deeper : j ≤ k) : unitWeight n k ≤ unitWeight n j :=
  Nat.pow_le_pow_right (Nat.succ_pos n) (by omega)

theorem totalWeight_append (n : Nat) (xs ys : List (Literal × Nat)) :
    totalWeight n (xs ++ ys) = totalWeight n xs + totalWeight n ys := by
  simp [totalWeight]

theorem totalWeight_cons (n : Nat) (x : Literal × Nat) (xs : List (Literal × Nat)) :
    totalWeight n (x :: xs) = unitWeight n x.2 + totalWeight n xs := by
  simp [totalWeight]

/-- As many literals weigh at most as much as if all were of the lowest level. -/
theorem totalWeight_le (xs : List (Literal × Nat)) (lowest : ∀ x ∈ xs, k ≤ x.2) :
    totalWeight n xs ≤ xs.length * unitWeight n k := by
  induction xs with
  | nil => simp [totalWeight]
  | cons x rest ih =>
    have first : unitWeight n x.2 ≤ unitWeight n k := unitWeight_antitone (lowest x (by simp))
    have others := ih fun y member => lowest y (List.mem_cons_of_mem _ member)
    rw [totalWeight_cons, List.length_cons, Nat.succ_mul]
    omega

theorem totalWeight_level (n k : Nat) (added : List Literal) :
    totalWeight n (added.map fun l => (l, k)) = added.length * unitWeight n k := by
  induction added with
  | nil => simp [totalWeight]
  | cons l rest ih =>
    rw [List.map_cons, totalWeight_cons, ih, List.length_cons, Nat.succ_mul]
    exact Nat.add_comm _ _

/-- Fewer literals than variables and one are outweighed by one of the level below. -/
theorem mul_unitWeight_lt (few : count ≤ n) (shallow : k < n) :
    count * unitWeight n (k + 1) < unitWeight n k := by
  have split : unitWeight n k = (n + 1) * unitWeight n (k + 1) := by
    have exponent : n - k = n - (k + 1) + 1 := by omega
    unfold unitWeight
    rw [exponent, Nat.pow_succ, Nat.mul_comm]
  rw [split]
  exact Nat.mul_lt_mul_of_pos_right (by omega) (unitWeight_pos n (k + 1))

/-- Going back cuts literals of higher levels off the new end. -/
theorem leveled_eq_append_backTo {t : Trail} (reach : target ≤ t.level) :
    ∃ dropped, t.leveled = dropped ++ (t.backTo target).leveled ∧
      ∀ x ∈ dropped, target < x.2 := by
  have cut : ∀ (levels : List (List Literal)) (count : Nat), count ≤ levels.length →
      ∃ dropped, leveledFrom t.root levels = dropped ++ leveledFrom t.root (levels.drop count) ∧
        ∀ x ∈ dropped, levels.length - count < x.2 := by
    intro levels
    induction levels with
    | nil =>
      intro count _
      exact ⟨[], by simp, by simp⟩
    | cons top below ih =>
      intro count bound
      cases count with
      | zero => exact ⟨[], rfl, by simp⟩
      | succ count =>
        obtain ⟨dropped, split, higher⟩ := ih count (by simpa using bound)
        refine ⟨top.map (·, below.length + 1) ++ dropped, ?_, fun x member => ?_⟩
        · rw [List.drop_succ_cons, List.append_assoc, ← split]
          rfl
        · rw [List.length_cons, Nat.add_sub_add_right]
          rcases List.mem_append.mp member with here | later
          · obtain ⟨l, -, rfl⟩ := List.mem_map.mp here
            simp only
            omega
          · exact higher x later
  have depth : t.levels.length - (t.level - target) = target := by
    unfold Trail.level at reach ⊢
    omega
  have bound : t.level - target ≤ t.levels.length := Nat.sub_le _ _
  obtain ⟨dropped, split, higher⟩ := cut t.levels (t.level - target) bound
  exact ⟨dropped, split, fun x member => depth ▸ higher x member⟩

variable {t : Trail} {n : Nat}

/-- One literal more at the level gone back to outweighs all that was dropped. -/
theorem weight_lt_backTo (coherent : t.Coherent) (sized : t.assignment.numVariables = n)
    (reach : target ≤ t.level) (shallow : target < n) :
    t.weight n < (t.backTo target).weight n + unitWeight n target := by
  obtain ⟨dropped, split, higher⟩ := leveled_eq_append_backTo reach
  have few : dropped.length ≤ n := by
    have lengths := congrArg List.length split
    rw [length_leveled, List.length_append] at lengths
    have size := coherent.size_le
    omega
  have light : totalWeight n dropped ≤ dropped.length * unitWeight n (target + 1) :=
    totalWeight_le dropped higher
  have outweighed := mul_unitWeight_lt few shallow
  unfold weight
  rw [split, totalWeight_append]
  omega

/-- Every level is opened by a decision, so there are no more than variables. -/
theorem level_le (coherent : t.Coherent) (layered : t.Layered)
    (sized : t.assignment.numVariables = n) : t.level ≤ n := by
  have filled : ∀ levels : List (List Literal), (∀ block ∈ levels, block ≠ []) →
      levels.length ≤ levels.flatten.length := by
    intro levels
    induction levels with
    | nil => simp
    | cons block rest ih =>
      intro nonempty
      have here := List.length_pos_iff.mpr (nonempty block (by simp))
      have others := ih fun other member => nonempty other (List.mem_cons_of_mem _ member)
      rw [List.length_cons, List.flatten_cons, List.length_append]
      omega
  have levels := filled t.levels fun block member => (layered block member).ne_nil
  have size := coherent.size_le
  unfold Trail.size Trail.newestFirst at size
  rw [List.length_append] at size
  unfold Trail.level
  omega

/-- No trail, with one literal more, is heavier than this. -/
theorem weight_add_le (coherent : t.Coherent) (sized : t.assignment.numVariables = n) (k : Nat) :
    t.weight n + unitWeight n k ≤ (n + 1) ^ (n + 1) := by
  have heaviest : t.weight n ≤ t.leveled.length * unitWeight n 0 :=
    totalWeight_le _ fun _ _ => Nat.zero_le _
  have few : t.leveled.length ≤ n := by
    rw [length_leveled]
    exact sized ▸ coherent.size_le
  have one : unitWeight n k ≤ unitWeight n 0 := unitWeight_antitone (Nat.zero_le k)
  have scaled : t.leveled.length * unitWeight n 0 ≤ n * unitWeight n 0 :=
    Nat.mul_le_mul_right _ few
  have total : (n + 1) ^ (n + 1) = n * unitWeight n 0 + unitWeight n 0 := by
    unfold unitWeight
    rw [Nat.sub_zero]
    ring
  omega

end ClauseLearning.Trail
