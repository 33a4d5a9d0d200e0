import Mathlib.Data.List.Dedup
import ClauseLearning.Proofs.ImplicationPoints
import ClauseLearning.Proofs.RunStates

/-! What analysis learns from a conflict above level 0. The literals are distinct and
false, sorted by level; one of them is of the current level, where its negation is the
first unique implication point, and the level to return to is the lowest that keeps the
others false. The clause follows from no more than what the conflict was derived from. -/
namespace ClauseLearning

/-- What analysis promises of the clause learned from the falsified clause at this index. -/
structure State.Explains (s : State) (i : Nat) (l : Learned) : Prop where
  distinct : l.literals.Nodup
  falsified : ∀ m ∈ l.literals, s.trail.value? m = some false
  positive : ∀ m ∈ l.literals, ∃ k, 0 < k ∧ s.trail.level? m = some k
  asserting : ∀ m ∈ l.literals, s.trail.level? m = some s.level ↔ m = l.asserting
  point : s.FirstPoint i l.asserting.negate
  ordered : l.literals.Pairwise fun x y => ∀ j k, s.trail.level? x = some j →
    s.trail.level? y = some k → k < j ∨ j = k ∧ x.code < y.code
  second : l.returnLevel = (l.literals[1]?.bind s.trail.level?).getD 0
  lowest : ∀ k, (∀ m ∈ l.others, (s.backtrack k).trail.value? m = some false) ↔ l.returnLevel ≤ k
  distance : l.blockDistance = (l.literals.filterMap s.trail.level?).dedup.length
  fact : l.blockDistance = 1 ↔ l.literals.length = 1
  follows : ∀ w, s.AdmitsConflict i w → ClauseHolds w l.literals

namespace Learned

variable {t : Trail} {l : Learned}

/-- Of the literals of a learned clause only the asserting one is of the current level. -/
theorem Fits.level?_eq_level_iff (fits : l.Fits t) (member : m ∈ l.literals) :
    t.level? m = some t.level ↔ m = l.asserting := by
  constructor
  · intro level
    refine (List.mem_cons.mp member).resolve_right fun other => ?_
    obtain ⟨k, -, bound, fails⟩ := fits.others m other
    have same := (Trail.level?_of_false_at fails).symm.trans level
    have below := fits.below
    rw [Option.some.injEq] at same
    omega
  · rintro rfl
    exact Trail.level?_of_false_at fits.asserting

/-- The literals stand by falling level, those of one level by rising code. -/
theorem Fits.literals_ordered (fits : l.Fits t) : l.literals.Pairwise fun x y =>
    ∀ j k, t.level? x = some j → t.level? y = some k → k < j ∨ j = k ∧ x.code < y.code := by
  refine List.pairwise_cons.mpr ⟨fun y other j k first second => ?_, ?_⟩
  · obtain ⟨k', -, bound, fails⟩ := fits.others y other
    have here := (Trail.level?_of_false_at fits.asserting).symm.trans first
    have there := (Trail.level?_of_false_at fails).symm.trans second
    have below := fits.below
    simp only [Option.some.injEq] at here there
    omega
  · refine fits.ordered.imp fun {x y} before j k first second => ?_
    simpa [Resolvent.before, show t.assignment.level? x.var = some j from first,
      show t.assignment.level? y.var = some k from second, Literal.precedes] using before

theorem Fits.returnLevel_eq (fits : l.Fits t) :
    l.returnLevel = (l.literals[1]?.bind t.level?).getD 0 := by
  cases shape : l.others with
  | nil => simp [literals, shape, fits.alone shape]
  | cons m rest =>
    have level := Trail.level?_of_false_at (fits.deepest m rest shape)
    simp [literals, shape, level]

/-- Going back keeps the other literals false exactly down to the return level. -/
theorem Fits.returnLevel_le_iff (fits : l.Fits t) (coherent : t.Coherent) :
    (∀ m ∈ l.others, (t.backTo k).value? m = some false) ↔ l.returnLevel ≤ k := by
  rcases Nat.le_total k t.level with reach | reach
  · simp only [Trail.value?_eq_false_iff, coherent.true_at_backTo reach]
    constructor
    · intro kept
      cases shape : l.others with
      | nil => simp [fits.alone shape]
      | cons m rest =>
        obtain ⟨j, fails, bound⟩ := kept m (by simp [shape])
        rwa [Trail.true_at_unique fails (fits.deepest m rest shape)] at bound
    · intro low m member
      obtain ⟨j, -, bound, fails⟩ := fits.others m member
      exact ⟨j, fails, bound.trans low⟩
  · rw [Trail.backTo_eq_self reach]
    refine iff_of_true (fun m member => ?_) (fits.below.le.trans reach)
    obtain ⟨j, -, -, fails⟩ := fits.others m member
    exact Trail.value?_eq_false_iff.mpr ⟨j, fails⟩

/-- The block distance counts the levels of the literals. -/
theorem Fits.blockDistance_eq (fits : l.Fits t) :
    l.blockDistance = (l.literals.filterMap t.level?).dedup.length := by
  have connected : ∀ a b : Nat, decide (a < b) = false → decide (b < a) = false → a = b := by
    intro a b first second
    simp only [decide_eq_false_iff_not] at first second
    omega
  have transitive : ∀ a b c : Nat, decide (a < b) = true → decide (b < c) = true →
      decide (a < c) = true := by
    intro a b c first second
    simp only [decide_eq_true_eq] at first second ⊢
    omega
  let levels := l.literals.filterMap t.level?
  have distinct : (SortedSet.ofList (fun x y => decide (x < y)) levels).Nodup :=
    (SortedSet.ofList_pairwise levels connected transitive).imp fun less =>
      Nat.ne_of_lt (of_decide_eq_true less)
  rw [fits.distance]
  refine ((List.perm_ext_iff_of_nodup distinct (List.nodup_dedup levels)).mpr fun k => ?_).length_eq
  rw [SortedSet.mem_ofList connected, List.mem_dedup]

/-- A clause with a second literal spans another level than that of the asserting one. -/
theorem Fits.blockDistance_eq_one_iff (fits : l.Fits t) :
    l.blockDistance = 1 ↔ l.literals.length = 1 := by
  have level := Trail.level?_of_false_at fits.asserting
  rw [fits.blockDistance_eq]
  constructor
  · intro single
    obtain ⟨k, shape⟩ := List.length_eq_one_iff.mp single
    have only : ∀ m ∈ l.literals, ∀ j, t.level? m = some j → j = k := by
      intro m member j here
      have listed : j ∈ (l.literals.filterMap t.level?).dedup :=
        List.mem_dedup.mpr (List.mem_filterMap.mpr ⟨m, member, here⟩)
      rwa [shape, List.mem_singleton] at listed
    cases others : l.others with
    | nil => simp [literals, others]
    | cons m rest =>
      obtain ⟨j, -, bound, fails⟩ := fits.others m (by simp [others])
      have same := only m (by simp [literals, others]) j (Trail.level?_of_false_at fails)
      have same' := only l.asserting (by simp [literals]) t.level level
      have below := fits.below
      omega
  · intro single
    have alone : l.others = [] := by simpa [literals] using single
    simp [literals, alone, level]

end Learned

/-- Analysing a falsified clause above level 0 gives a clause with all of these properties. -/
theorem State.Coherent.exists_explains {s : State} (coherent : s.Coherent)
    (layered : s.trail.Layered) (falsified : s.Falsified i) (above : 0 < s.level) :
    ∃ l, analyze s.store s.trail i = .ok (some l) ∧ s.Explains i l := by
  have kept := (State.Cuts.kept coherent layered above (i := i)).and
    (Resolvent.kept_follows coherent.trail)
  obtain ⟨l, passed, remaining, last, ran, fits, walked, single, lower, cuts, follows⟩ :=
    kept.analyze coherent layered falsified above
  refine ⟨l, ran, ?_⟩
  exact {
    distinct := fits.nodup
    falsified := by
      intro m member
      obtain ⟨k, -, fails⟩ := fits.falseAt member
      exact Trail.value?_eq_false_iff.mpr ⟨k, fails⟩
    positive := by
      intro m member
      obtain ⟨k, positive, fails⟩ := fits.falseAt member
      exact ⟨k, positive, Trail.level?_of_false_at fails⟩
    asserting := fun _ => fits.level?_eq_level_iff
    point := cuts.firstPoint coherent layered above walked single
    ordered := fits.literals_ordered
    second := fits.returnLevel_eq
    lowest := fun _ => fits.returnLevel_le_iff coherent.trail
    distance := fits.blockDistance_eq
    fact := fits.blockDistance_eq_one_iff
    follows := by
      intro w admits
      have holds := follows w admits
      rwa [single, lower] at holds }

variable {f : Formula} {o : Options} {numbers : List Int} {assumed : List Literal}

/-- In every run, every conflict above level 0 is analysed, and the clause learned from it
explains it by its first unique implication point. -/
theorem conflicts_are_explained
    (accepted : numbers.mapM (Solver.assumption f.numVariables) = .ok assumed) :
    ∀ i s, Occurs f o assumed (.analyzing i) s → 0 < s.level →
      ∃ l, analyze s.store s.trail i = .ok (some l) ∧ s.Explains i l := by
  intro i s occurs above
  cases occurs with
  | turn reached =>
    obtain ⟨⟨coherent, layered, falsified⟩, -⟩ :=
      reached.invariant (Solver.declared_of_accepted accepted)
    exact coherent.exists_explains layered falsified above

/-- The first two variables lead to the second pair, which excludes the last one. -/
def forking : Formula :=
  .ofClauses 4 [[⟨0, false⟩, ⟨1, true⟩], [⟨1, false⟩, ⟨3, false⟩, ⟨2, true⟩],
    [⟨1, false⟩, ⟨3, false⟩, ⟨2, false⟩]]

/-- The decision at level 2 is not the first unique implication point: what it implied
already explains the conflict. -/
theorem conflicts_are_explained_forking :
    [].mapM (Solver.assumption forking.numVariables) = .ok [] ∧
    ∃ i s, Occurs forking {} [] (.analyzing i) s ∧ 0 < s.level ∧
      s.trail.decision? s.level = some ⟨0, true⟩ ∧
      analyze s.store s.trail i = .ok (some ⟨⟨1, false⟩, [⟨3, false⟩], 1, 2⟩) ∧
      s.Explains i ⟨⟨1, false⟩, [⟨3, false⟩], 1, 2⟩ := by
  have accepted : [].mapM (Solver.assumption forking.numVariables) = .ok [] := rfl
  obtain ⟨phase, s, reached, shown⟩ := @exists_reachable forking {} []
    (fun phase s => phase = .analyzing 2 ∧ 0 < s.level ∧
      s.trail.decision? s.level = some ⟨0, true⟩ ∧
      (analyze s.store s.trail 2).toOption = some (some ⟨⟨1, false⟩, [⟨3, false⟩], 1, 2⟩))
    [none, some ⟨3, true⟩, none, some ⟨0, true⟩, none] (by decide +kernel)
  obtain ⟨rfl, above, decision, learned⟩ := of_decide_eq_true shown
  obtain ⟨l, ran, explains⟩ := conflicts_are_explained accepted 2 s (.turn reached) above
  rw [ran] at learned
  cases learned
  exact ⟨accepted, 2, s, .turn reached, above, decision, ran, explains⟩

end ClauseLearning
