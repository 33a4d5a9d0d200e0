import ClauseLearning.Proofs.TrailOrder

/-! What going back restores. Opening a level, pushing a free literal and going back
leave the levels below exactly as they were, with their entries; so a trail recalls, for
every level below its own, the trail on which the next level was opened last. -/
namespace ClauseLearning

namespace Assignment

/-- Assignments differ in the entry of a variable, or not at all. -/
theorem eq_of_find? {a b : Assignment} (sized : a.numVariables = b.numVariables)
    (same : ∀ var, a.find? var = b.find? var) : a = b := by
  cases a with
  | mk xs =>
    cases b with
    | mk ys =>
      have sized' : xs.size = ys.size := sized
      congr
      apply Array.ext sized'
      intro i first second
      simpa [find?, first, second] using same i

theorem clear_set {a : Assignment} (free : a.find? var = none) (declared : var < a.numVariables) :
    (a.set var e).clear var = a := by
  apply eq_of_find?
  · rw [numVariables_clear, numVariables_set]
  · intro other
    rw [find?_clear, find?_set _ _ _ _ declared]
    by_cases same : other = var
    · rw [if_pos same, same, free]
    · rw [if_neg same, if_neg same]

end Assignment

namespace Trail

variable {t u v : Trail}

theorem backTo_push (free : t.assignment.find? l.var = none)
    (declared : l.var < t.assignment.numVariables) (below : target < t.level) :
    (t.push l antecedent).backTo target = t.backTo target := by
  obtain ⟨assignment, root, levels⟩ := t
  cases levels with
  | nil => cases below
  | cons top rest =>
    have positive : rest.length + 1 - target = rest.length - target + 1 := by
      have bound : target < rest.length + 1 := below
      omega
    simp [Trail.backTo, Trail.push, Trail.level, positive, Assignment.clear_set free declared]

theorem backTo_openLevel (reach : target ≤ t.level) :
    t.openLevel.backTo target = t.backTo target := by
  have more : t.levels.length + 1 - target = t.levels.length - target + 1 := by
    have bound : target ≤ t.levels.length := reach
    omega
  simp [Trail.backTo, Trail.openLevel, Trail.level, more]

/-- Going back twice comes to the lower level. -/
theorem backTo_backTo (lower : target ≤ middle) :
    (t.backTo middle).backTo target = t.backTo target := by
  rcases Nat.le_total t.level middle with reach | reach
  · rw [backTo_eq_self reach]
  · obtain ⟨assignment, root, levels⟩ := t
    have reach' : middle ≤ levels.length := reach
    have whole : levels.length - target = (levels.length - middle) + (middle - target) := by omega
    have rest : levels.length - (levels.length - middle) - target = middle - target := by omega
    simp only [Trail.backTo, Trail.level, List.length_drop, rest, List.drop_drop, Trail.mk.injEq,
      true_and]
    rw [whole, List.take_add, List.flatten_append, List.foldl_append]
    exact ⟨rfl, rfl⟩

/-- One trail goes on from another. The levels below the current ones of both are the
same, and at most one more level is open, with all of the other trail below it. -/
structure Continues (t u : Trail) (opening : Prop) : Prop where
  lower : ∀ k < t.level, k < u.level → u.backTo k = t.backTo k
  opened : t.level < u.level → opening ∧ u.level = t.level + 1 ∧ u.backTo t.level = t

theorem Continues.of_level_eq_zero (ground : u.level = 0) : Continues t u opening where
  lower := by
    intro k _ below
    omega
  opened := by
    intro above
    omega

theorem Continues.refl (t : Trail) : Continues t t opening :=
  ⟨fun _ _ _ => rfl, fun above => absurd above (Nat.lt_irrefl _)⟩

theorem Continues.push (free : t.assignment.find? l.var = none)
    (declared : l.var < t.assignment.numVariables) :
    Continues t (t.push l antecedent) opening where
  lower := fun _ below _ => backTo_push free declared below
  opened := by
    intro above
    rw [level_push] at above
    exact absurd above (Nat.lt_irrefl _)

theorem Continues.openLevel (t : Trail) (opens : opening) : Continues t t.openLevel opening where
  lower := fun _ below _ => backTo_openLevel (Nat.le_of_lt below)
  opened := by
    refine fun _ => ⟨opens, rfl, ?_⟩
    rw [backTo_openLevel (Nat.le_refl _), backTo_eq_self (Nat.le_refl _)]

theorem Continues.backTo (t : Trail) (level : Nat) : Continues t (t.backTo level) opening where
  lower := by
    intro k _ below
    rw [level_backTo] at below
    exact backTo_backTo (by omega)
  opened := by
    intro above
    rw [level_backTo] at above
    omega

/-- Going on at the same level does not change what a trail goes on from. -/
theorem Continues.extended (first : Continues t u opening) (level : v.level = u.level)
    (same : ∀ k < u.level, v.backTo k = u.backTo k) : Continues t v opening where
  lower := by
    intro k below below'
    rw [level] at below'
    exact (same k below').trans (first.lower k below below')
  opened := by
    intro above
    rw [level] at above
    obtain ⟨opening, one, restored⟩ := first.opened above
    exact ⟨opening, level.trans one, (same _ above).trans restored⟩

/-- Among past moments, the newest first, the trail knows for every level below its own
the last one at which the next level was opened, and going back comes to the trail of
that moment. Since then the trail was above the level. -/
def Recalls (trailOf : α → Trail) (opening : α → Prop) (past : List α) (t : Trail) : Prop :=
  ∀ k < t.level, ∃ later moment earlier, past = later ++ moment :: earlier ∧ opening moment ∧
    (trailOf moment).level = k ∧ (∀ since ∈ later, k < (trailOf since).level) ∧
    t.backTo k = trailOf moment

theorem recalls_of_level_eq_zero {trailOf : α → Trail} {opening : α → Prop} {past : List α}
    (ground : t.level = 0) : Recalls trailOf opening past t := by
  intro k below
  omega

/-- A trail that goes on from one that recalls its past recalls it too. -/
theorem Recalls.step {trailOf : α → Trail} {opening : α → Prop} {past : List α} {moment : α}
    (recalls : Recalls trailOf opening past (trailOf moment))
    (continues : Continues (trailOf moment) t (opening moment)) :
    Recalls trailOf opening (moment :: past) t := by
  intro k below
  rcases Nat.lt_or_ge k (trailOf moment).level with lower | reach
  · obtain ⟨later, opener, earlier, rfl, opened, level, since, restored⟩ := recalls k lower
    refine ⟨moment :: later, opener, earlier, rfl, opened, level, ?_,
      (continues.lower k lower below).trans restored⟩
    exact List.forall_mem_cons.mpr ⟨lower, since⟩
  · -- the level above was opened at this moment
    obtain ⟨opened, one, restored⟩ := continues.opened (Nat.lt_of_le_of_lt reach below)
    obtain rfl : k = (trailOf moment).level := by omega
    exact ⟨[], moment, past, rfl, opened, rfl, by simp, restored⟩

end Trail

end ClauseLearning
