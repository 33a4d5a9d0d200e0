import ClauseLearning.Proofs.RunStates
import ClauseLearning.Proofs.TrailPositions

/-! Going back in the light of what came before. A run, or a trail on its own, is followed
with all its past moments. Going back to a level comes to the trail as it was when the next
level was opened last, entry by entry, also if that level was left and opened several times. -/
namespace ClauseLearning

namespace Trail

/-- What can happen to a trail. -/
inductive Move where
  | opened
  | pushed (l : Literal) (antecedent : Option Nat)
  | reverted (level : Nat)

/-- Only a literal without a value is pushed. -/
def Move.Legal (t : Trail) : Move → Prop
  | .pushed l _ => l.var < t.assignment.numVariables ∧ t.assignment.find? l.var = none
  | .opened | .reverted _ => True

/-- The trail after a move. -/
def Move.run (t : Trail) : Move → Trail
  | .opened => t.openLevel
  | .pushed l antecedent => t.push l antecedent
  | .reverted level => (t.revert level).2

/-- The empty trail came to this one by these moves, the newest first, each with the trail
before it. -/
inductive History (numVariables : Nat) : List (Move × Trail) → Trail → Prop where
  | start : History numVariables [] (.start numVariables)
  | step (history : History numVariables past t) (legal : move.Legal t) :
      History numVariables ((move, t) :: past) (move.run t)

/-- One trail has exactly the literals and entries that the other one has up to a level. -/
structure UpTo (t : Trail) (k : Nat) (u : Trail) : Prop where
  literals : u.literals <+: t.literals
  entries : ∀ var, u.assignment.find? var = (t.assignment.find? var).filter (·.level ≤ k)

variable {t u : Trail} {past : List (Move × Trail)}

theorem Coherent.upTo (coherent : t.Coherent) (reach : k ≤ t.level) : t.UpTo k (t.backTo k) where
  literals := List.reverse_prefix.mpr (newestFirst_backTo_suffix t k)
  entries := fun _ => coherent.find?_backTo_eq_filter reach

theorem revert_snd (t : Trail) (k : Nat) : (t.revert k).2 = t.backTo k := by
  rcases Nat.lt_or_ge k t.level with below | reach
  · rw [revert_of_lt below]
  · rw [revert_of_le reach, backTo_eq_self reach]

theorem Move.continues {move : Move} (legal : move.Legal t) :
    t.Continues (move.run t) (move = .opened) := by
  cases move with
  | opened => exact .openLevel t rfl
  | pushed l antecedent => exact .push legal.2 legal.1
  | reverted level =>
    rw [Move.run, revert_snd]
    exact .backTo t level

theorem Move.coherent {move : Move} (legal : move.Legal t) (coherent : t.Coherent) :
    (move.run t).Coherent := by
  cases move with
  | opened => exact openLevel_coherent coherent
  | pushed l antecedent => exact push_coherent coherent legal.2 legal.1
  | reverted level =>
    rw [Move.run, revert_snd]
    rcases Nat.le_total level t.level with reach | reach
    · exact coherent.backTo_coherent reach
    · rwa [backTo_eq_self reach]

theorem History.coherent (history : History n past t) : t.Coherent := by
  induction history with
  | start => exact start_coherent n
  | step _ legal ih => exact Move.coherent legal ih

theorem History.recalls (history : History n past t) :
    Recalls Prod.snd (fun moment => moment.1 = .opened) past t := by
  induction history with
  | start => exact recalls_of_level_eq_zero rfl
  | step _ legal ih => exact ih.step (Move.continues legal)

end Trail

/-- The search came to this phase and state through these, the newest first. -/
inductive RunHistory (f : Formula) (o : Options) (assumed : List Literal) :
    List (Phase × State) → Phase → State → Prop where
  | start (loaded : State.ofFormula f o = .ok s) (nonempty : s.hasEmptyClause = false)
      (held : { s with assumptions := assumed }.assume = .ok (.held, t)) :
      RunHistory f o assumed [] .propagating t
  | step (history : RunHistory f o assumed past phase s) (allowed : s.Allows phase choice)
      (advanced : s.advance choice phase = .ok (next, t)) :
      RunHistory f o assumed ((phase, s) :: past) next t

variable {f : Formula} {o : Options} {assumed : List Literal} {numbers : List Int}
  {past earlier later : List (Phase × State)} {phase phase' : Phase} {s s' : State}

theorem reachable_iff_history :
    Reachable f o assumed phase s ↔ ∃ past, RunHistory f o assumed past phase s := by
  constructor
  · intro reached
    induction reached with
    | start loaded nonempty held => exact ⟨[], .start loaded nonempty held⟩
    | step _ allowed advanced ih =>
      obtain ⟨past, history⟩ := ih
      exact ⟨_, .step history allowed advanced⟩
  · rintro ⟨past, history⟩
    induction history with
    | start loaded nonempty held => exact .start loaded nonempty held
    | step _ allowed advanced ih => exact .step ih allowed advanced

/-- Every past moment has its own history. -/
theorem RunHistory.of_append
    (history : RunHistory f o assumed (later ++ (phase', s') :: earlier) phase s) :
    RunHistory f o assumed earlier phase' s' := by
  induction later generalizing phase s with
  | nil =>
    cases history with
    | step history => exact history
  | cons moment later ih =>
    cases history with
    | step history => exact ih history

theorem RunHistory.recalls (history : RunHistory f o assumed past phase s)
    (declared : ∀ l ∈ assumed, l.var < f.numVariables) :
    s.trail.Recalls (fun moment => moment.2.trail) (fun moment => moment.1 = .deciding) past := by
  induction history with
  | start loaded nonempty held =>
    exact Trail.recalls_of_level_eq_zero (begun_of_assume loaded declared held).ground
  | step history allowed ran ih =>
    obtain ⟨poised, -⟩ := (reachable_iff_history.mpr ⟨_, history⟩).invariant declared
    exact ih.step (poised.advanced allowed ran).continues

/-- In every run, going back to a lower level restores the trail of the last decision made
at that level, with nothing waiting, then as now. The same holds of a trail that is opened,
pushed to and reverted in any order, and reverting it tells how many literals go. -/
theorem backtracking_restores
    (accepted : numbers.mapM (Solver.assumption f.numVariables) = .ok assumed) :
    (∀ past phase s, RunHistory f o assumed past phase s → ∀ k < s.level,
      ∃ later u earlier, past = later ++ (.deciding, u) :: earlier ∧ u.level = k ∧
        (∀ since ∈ later, k < since.2.level) ∧ (s.backtrack k).trail = u.trail ∧
        (s.backtrack k).queue = [] ∧ u.queue = [] ∧ s.trail.UpTo k u.trail) ∧
    ∀ n past t, Trail.History n past t →
      (∀ k < t.level, ∃ later u earlier removed, past = later ++ (.opened, u) :: earlier ∧
        u.level = k ∧ (∀ since ∈ later, k < since.2.level) ∧ t.revert k = (removed, u) ∧
        t.literals.length = u.literals.length + removed ∧ t.UpTo k u) ∧
      ∀ k, t.level ≤ k → t.revert k = (0, t) := by
  have declared := Solver.declared_of_accepted accepted
  constructor
  · intro past phase s history k below
    obtain ⟨later, ⟨_, u⟩, earlier, rfl, rfl, level, since, restored⟩ :=
      history.recalls declared k below
    have here := reachable_iff_history.mpr ⟨_, history.of_append⟩
    obtain ⟨⟨-, -, -, empty, -⟩, -⟩ := here.invariant declared
    obtain ⟨poised, -⟩ := (reachable_iff_history.mpr ⟨_, history⟩).invariant declared
    have upTo := poised.coherent.trail.upTo (Nat.le_of_lt below)
    rw [restored] at upTo
    exact ⟨later, u, earlier, rfl, level, since, restored, rfl, empty, upTo⟩
  · intro n past t history
    refine ⟨fun k below => ?_, fun k reach => Trail.revert_of_le reach⟩
    obtain ⟨later, ⟨_, u⟩, earlier, rfl, rfl, level, since, restored⟩ := history.recalls k below
    have upTo := history.coherent.upTo (Nat.le_of_lt below)
    have reverted := Trail.revert_of_lt below
    rw [restored] at upTo reverted
    refine ⟨later, u, earlier, _, rfl, level, since, reverted, ?_, upTo⟩
    have shorter := upTo.literals.length_le
    simp only [Trail.literals, List.length_reverse, Trail.size] at shorter ⊢
    omega

/-- After the conflict of the first two variables level 1 has one more literal. Level 2 was
opened before the conflict and is opened again; going back comes to the second time. -/
theorem backtracking_restores_exclusive :
    [4].mapM (Solver.assumption exclusive.numVariables) = .ok [⟨3, true⟩] ∧
    ∃ past phase s, RunHistory exclusive {} [⟨3, true⟩] past phase s ∧ s.level = 2 ∧
      (s.backtrack 1).trail.literals = [⟨3, true⟩, ⟨0, true⟩, ⟨1, false⟩] ∧
      ∃ later u earlier, past = later ++ (.deciding, u) :: earlier ∧ u.level = 1 ∧
        (s.backtrack 1).trail = u.trail := by
  obtain ⟨phase, s, reached, shown⟩ := @exists_reachable exclusive {} [⟨3, true⟩]
    (fun _ s => s.level = 2 ∧
      (s.backtrack 1).trail.literals = [⟨3, true⟩, ⟨0, true⟩, ⟨1, false⟩])
    [none, some ⟨0, true⟩, none, some ⟨1, true⟩, none, none, none, none, some ⟨2, true⟩]
    (by decide +kernel)
  obtain ⟨level, literals⟩ := of_decide_eq_true shown
  obtain ⟨past, history⟩ := reachable_iff_history.mp reached
  obtain ⟨restores, -⟩ := backtracking_restores (o := {}) exclusive_accepted
  obtain ⟨later, u, earlier, split, before, -, restored, -⟩ :=
    restores past phase s history 1 (by omega)
  exact ⟨exclusive_accepted, past, phase, s, history, level, literals, later, u, earlier, split,
    before, restored⟩

end ClauseLearning
