import ClauseLearning.Proofs.LearnedClauses
import ClauseLearning.Proofs.LimitGrowth
import ClauseLearning.Proofs.LowerLevels

/-! Restarts. What is left is level 0 of the trail, the clauses of the formula and the
learned clauses within the limit; an antecedent goes with its clause. Under valid options
the limit is never below one, and a learned clause without a second literal has block
distance one, so it is kept and waits: no learned fact is lost. -/
namespace ClauseLearning

/-! ## The limit along a run -/

/-- The limit on block distances is one or more, and its growth does not shrink it. -/
structure Schedule.Ample (s : Schedule) : Prop where
  limit : 1.0 ≤ s.lbdLimit
  growth : 1.0 ≤ s.growth

theorem Options.Valid.ample {o : Options} (valid : o.Valid) :
    (Schedule.start o.conflictsLimit o.lbdLimit o.growth).Ample := by
  unfold Options.Valid Options.problem? at valid
  split at valid
  · cases valid
  · split at valid
    · cases valid
    · rename_i limit
      split at valid
      · cases valid
      · rename_i growth
        exact ⟨not_not.mp limit, one_le_of_one_lt (not_not.mp growth)⟩

theorem Schedule.Ample.countConflict {s : Schedule} (ample : s.Ample) : s.countConflict.2.Ample :=
  ⟨ample.limit, ample.growth⟩

theorem Schedule.Ample.relax {s : Schedule} (ample : s.Ample) : s.relax.Ample :=
  ⟨one_le_mul ample.limit ample.growth, ample.growth⟩

theorem Schedule.Ample.keeps_one {s : Schedule} (ample : s.Ample) : s.keeps 1 = true := by
  have same : Float.ofNat 1 = 1.0 := by decide
  rw [Schedule.keeps, same]
  exact decide_eq_true ample.limit

variable {s t : State} {phase next : Phase} {f : Formula} {o : Options} {assumed : List Literal}
  {numbers : List Int} {l : Learned}

theorem State.Advanced.ample (advanced : s.Advanced phase t next) (ample : s.schedule.Ample) :
    t.schedule.Ample := by
  have moves := advanced.moves
  cases phase with
  | propagating | deciding | backjumping => rwa [moves.1]
  | analyzing =>
    obtain ⟨-, ⟨-, same⟩ | ⟨l, -, counted⟩⟩ := moves
    · rwa [same]
    · rw [counted]
      exact ample.countConflict
  | restarting =>
    rw [moves.1]
    exact ample.relax
  | satisfied | unsatisfiable => rwa [moves.1]

/-- In every state that a run under valid options reaches the limit is one or more. -/
theorem Reachable.ample (reachable : Reachable f o assumed phase s)
    (declared : ∀ l ∈ assumed, l.var < f.numVariables) (valid : o.Valid) : s.schedule.Ample := by
  refine reachable.kept (P := fun s => s.schedule.Ample) declared ?_ ?_
  · intro s t loaded begun
    rw [begun.schedule, State.schedule_of_ofFormula loaded]
    exact valid.ample
  · intro phase s next t _ advanced ample
    exact advanced.ample ample

/-! ## What a restart leaves -/

/-- What comes from a state by a restart, if the learned clause was stored at this index
before clauses were deleted. -/
structure State.Restarted (f : Formula) (o : Options) (s : State) (l : Learned) (index : Nat)
    (t : State) : Prop where
  level : t.level = 0
  trail : t.trail.literals <+: s.trail.literals
  onTrail : ∀ m, m ∈ t.trail.literals ↔ m ∈ s.trail.literals ∧ s.trail.level? m = some 0
  facts : ∀ m, s.trail.level? m = some 0 →
    t.trail.value? m = s.trail.value? m ∧ t.trail.level? m = some 0
  others : ∀ m, s.trail.level? m ≠ some 0 → t.trail.value? m = none
  new : s.store.clause? index = none
  learned : ∀ j c, t.store.clause? j = some c ∧ c.isLearned = true ↔
    (s.store.clause? j = some c ∧ c.isLearned = true ∨ j = index ∧ c = l.clause) ∧
      Float.ofNat c.blockDistance ≤ s.schedule.lbdLimit
  listed : ∀ j, j ∈ t.store.learned ↔ ∃ c, t.store.clause? j = some c ∧ c.isLearned = true
  inputs : ∀ j c, c.isLearned = false → (t.store.clause? j = some c ↔ s.store.clause? j = some c)
  given : ∀ clause ∈ f.clauses, isTautology (normalForm clause) = true ∨
    ∃ j c, t.store.clause? j = some c ∧ c.isLearned = false ∧ ∀ m, m ∈ c.literals ↔ m ∈ clause
  antecedents : ∀ m ∈ t.trail.literals, ∀ j, s.trail.reason m = some j →
    ∃ c, s.store.clause? j = some c ∧
      (t.store.clause? j = some c ∧ t.trail.reason m = some j ∨
        t.store.clause? j = none ∧ t.trail.reason m = none)
  unexplained : ∀ m ∈ t.trail.literals, s.trail.reason m = none → t.trail.reason m = none
  fact : o.Valid → l.returnLevel = 0 →
    t.store.clause? index = some l.clause ∧ t.queue = [(index, l.asserting)]
  waiting : 0 < l.returnLevel → t.queue = []
  schedule : t.schedule = s.schedule.relax

namespace State

variable {index : Nat}

theorem Coherent.reason_living (coherent : s.Coherent) (onTrail : m ∈ s.trail.literals)
    (known : s.trail.reason m = some j) : ∃ c, s.store.clause? j = some c := by
  obtain ⟨newer, older, split⟩ := List.append_of_mem ((Trail.mem_literals_iff _ _).mp onTrail)
  obtain ⟨c, living, -⟩ := coherent.explained newer m older j split known
  exact ⟨c, living⟩

/-- The clauses after a restart: those before and the new one, the learned ones among them
only within the limit. -/
theorem StartsOver.clause?_eq_some_iff (starts : s.StartsOver l index t) :
    t.store.clause? j = some c ↔
      (s.store.clause? j = some c ∨ j = index ∧ c = l.clause) ∧
        (c.isLearned = true → s.schedule.keeps c.blockDistance = true) := by
  have passes : (!c.isLearned || s.schedule.keeps c.blockDistance) = true ↔
      (c.isLearned = true → s.schedule.keeps c.blockDistance = true) := by
    cases c.isLearned <;> simp
  rw [starts.clauses, Option.filter_eq_some_iff, passes]
  refine and_congr_left fun _ => ?_
  by_cases here : j = index
  · simp [here, starts.absent, eq_comm]
  · simp [here]

theorem StartsOver.mem_literals_iff (starts : s.StartsOver l index t) (coherent : s.Coherent) :
    m ∈ t.trail.literals ↔ m ∈ s.trail.literals ∧ s.trail.level? m = some 0 := by
  obtain ⟨deleted, trail, -⟩ := starts.trail
  rw [trail]
  apply (coherent.trail.trueUpTo_iff (Nat.zero_le _)).symm.trans
  simp [Trail.TrueUpTo]

/-- An antecedent stays exactly if its clause does. -/
theorem StartsOver.reason (starts : s.StartsOver l index t) (coherent : s.Coherent)
    (onTrail : m ∈ t.trail.literals) :
    t.trail.reason m = (s.trail.reason m).filter fun j => (t.store.clause? j).isSome := by
  obtain ⟨deleted, trail, doomed⟩ := starts.trail
  have before := ((starts.mem_literals_iff coherent).mp onTrail).1
  have kept : m ∈ (s.trail.backTo 0).newestFirst := by
    rw [trail] at onTrail
    exact (Trail.mem_literals_iff _ m).mp onTrail
  rw [trail, Trail.reason_forget, coherent.trail.reason_backTo (Nat.zero_le _) kept]
  cases known : s.trail.reason m with
  | none => rfl
  | some j =>
    obtain ⟨c, living⟩ := coherent.reason_living before known
    have elsewhere : j ≠ index := by
      rintro rfl
      rw [starts.absent] at living
      cases living
    have gone : j ∈ deleted ↔ t.store.clause? j = none := by
      rw [doomed, starts.clauses, if_neg elsewhere, living]
      cases c.isLearned <;> cases kept : s.schedule.keeps c.blockDistance <;>
        simp [Option.filter_some, kept]
    simp only [Option.filter_some, decide_not, gone]
    cases t.store.clause? j <;> rfl

/-- A learned clause without a second literal is within every limit that is not below one. -/
theorem StartsOver.fact (starts : s.StartsOver l index t) (fits : l.Fits s.trail)
    (ample : s.schedule.Ample) (ground : l.returnLevel = 0) :
    t.store.clause? index = some l.clause ∧ t.queue = [(index, l.asserting)] := by
  have alone : l.literals.length = 1 := by
    cases others : l.others with
    | nil => simp [Learned.literals, others]
    | cons m rest =>
      obtain ⟨k, positive, bound, -⟩ := fits.others m (by simp [others])
      omega
  have keeps : s.schedule.keeps l.clause.blockDistance = true := by
    rw [show l.clause.blockDistance = 1 from fits.blockDistance_eq_one_iff.mpr alone]
    exact ample.keeps_one
  have living : t.store.clause? index = some l.clause :=
    starts.clause?_eq_some_iff.mpr ⟨.inr ⟨rfl, rfl⟩, fun _ => keeps⟩
  exact ⟨living, by rw [starts.queue, if_pos ⟨ground, by rw [living]; rfl⟩]⟩

/-- With all that is known of the step and of the run, this is the whole result of a restart. -/
theorem StartsOver.restarted (starts : s.StartsOver l index t) (coherent : s.Coherent)
    (coherent' : t.Coherent) (founded : Founded f assumed t) (fits : l.Fits s.trail)
    (schedule : t.schedule = s.schedule.relax) (ample : o.Valid → s.schedule.Ample) :
    s.Restarted f o l index t where
  level := by
    obtain ⟨deleted, trail, -⟩ := starts.trail
    rw [State.level, trail]
    exact Trail.level_backTo_of_le (Nat.zero_le _)
  trail := by
    obtain ⟨deleted, trail, -⟩ := starts.trail
    rw [trail]
    exact List.reverse_prefix.mpr (Trail.newestFirst_backTo_suffix s.trail 0)
  onTrail := fun _ => starts.mem_literals_iff coherent
  facts := by
    intro m level
    obtain ⟨deleted, trail, -⟩ := starts.trail
    obtain ⟨e, found, ground⟩ := Option.map_eq_some_iff.mp level
    have kept : (s.trail.backTo 0).assignment.find? m.var = some e :=
      (coherent.trail.find?_backTo_eq_some_iff (Nat.zero_le _)).mpr ⟨found, Nat.le_of_eq ground⟩
    rw [trail, Trail.value?_forget, Trail.level?_forget]
    simp [Trail.value?, Assignment.value?, Trail.level?, Assignment.level?, kept, found, ground]
  others := by
    intro m level
    obtain ⟨deleted, trail, -⟩ := starts.trail
    rw [trail, Trail.value?_forget, Trail.value?_eq_none_iff,
      coherent.trail.find?_backTo_eq_filter (Nat.zero_le _), Option.filter_eq_none_iff]
    intro e found ground
    apply level
    simp [Trail.level?, Assignment.level?, found, Nat.le_zero.mp (of_decide_eq_true ground)]
  new := starts.absent
  learned := by
    intro j c
    constructor
    · rintro ⟨living, learned⟩
      obtain ⟨source, within⟩ := starts.clause?_eq_some_iff.mp living
      exact ⟨source.imp_left fun before => ⟨before, learned⟩, of_decide_eq_true (within learned)⟩
    · rintro ⟨source, within⟩
      have learned : c.isLearned = true := by
        rcases source with ⟨-, learned⟩ | ⟨-, rfl⟩
        · exact learned
        · rfl
      exact ⟨starts.clause?_eq_some_iff.mpr
        ⟨source.imp_left And.left, fun _ => decide_eq_true within⟩, learned⟩
  listed := coherent'.store.learned
  inputs := by
    intro j c input
    rw [starts.clause?_eq_some_iff]
    constructor
    · rintro ⟨before | ⟨-, rfl⟩, -⟩
      · exact before
      · cases input
    · intro before
      refine ⟨.inl before, fun learned => ?_⟩
      rw [input] at learned
      cases learned
  given := founded.clauses
  antecedents := by
    intro m onTrail j known
    have before := ((starts.mem_literals_iff coherent).mp onTrail).1
    obtain ⟨c, living⟩ := coherent.reason_living before known
    refine ⟨c, living, ?_⟩
    rw [starts.reason coherent onTrail, known, Option.filter_some]
    cases kept : t.store.clause? j with
    | none => exact .inr ⟨rfl, rfl⟩
    | some d =>
      rcases (starts.clause?_eq_some_iff.mp kept).1 with same | ⟨rfl, -⟩
      · rw [living] at same
        exact .inl ⟨same.symm, rfl⟩
      · rw [starts.absent] at living
        cases living
  unexplained := by
    intro m onTrail free
    rw [starts.reason coherent onTrail, free]
    rfl
  fact := fun valid => starts.fact fits (ample valid)
  waiting := by
    intro above
    rw [starts.queue, if_neg fun both => Nat.ne_of_gt above both.1]
  schedule := schedule

end State

/-- In every run, every conflict that calls for a restart is answered by one, and what it
leaves is exactly this. -/
theorem restarts_are_exact
    (accepted : numbers.mapM (Solver.assumption f.numVariables) = .ok assumed) :
    ∀ l s, Occurs f o assumed (.restarting l) s →
      ∃ index t, s.startOver l = .ok (.propagating, t) ∧ s.Restarted f o l index t := by
  have declared := Solver.declared_of_accepted accepted
  intro l s occurs
  cases occurs with
  | turn reached =>
    obtain ⟨poised, -, founded⟩ := reached.invariant declared
    have allowed : s.Allows (.restarting l) none := nofun
    obtain ⟨next, t, ran, advanced⟩ := State.advance_spec poised allowed
    obtain ⟨schedule, rfl⟩ := advanced.moves
    obtain ⟨index, starts⟩ := advanced.stores
    refine ⟨index, t, ran, ?_⟩
    exact starts.restarted poised.coherent advanced.poised.coherent
      (founded.keep advanced.keeps advanced.admits) poised.suits.fits schedule
      fun valid => reached.ample declared valid

/-- The first variable contradicts itself, and the last one is a fact. -/
def absurdity : Formula :=
  .ofClauses 3 [[⟨2, true⟩], [⟨0, false⟩, ⟨1, true⟩], [⟨0, false⟩, ⟨1, false⟩]]

/-- After a restart at the first conflict the learned fact waits to be assigned. -/
theorem restarts_are_exact_absurdity :
    [].mapM (Solver.assumption absurdity.numVariables) = .ok [] ∧
    ∃ l s index t, Occurs absurdity { conflictsLimit := 1 } [] (.restarting l) s ∧
      s.startOver l = .ok (.propagating, t) ∧
      s.Restarted absurdity { conflictsLimit := 1 } l index t ∧
      t.store.clause? index = some ⟨[⟨0, false⟩], .learned 1⟩ ∧
      t.queue = [(index, ⟨0, false⟩)] := by
  have accepted : [].mapM (Solver.assumption absurdity.numVariables) = .ok [] := rfl
  obtain ⟨phase, s, reached, shown⟩ := @exists_reachable absurdity { conflictsLimit := 1 } []
    (fun phase _ => phase = .restarting ⟨⟨0, false⟩, [], 0, 1⟩)
    [none, some ⟨0, true⟩, none, none] (by decide +kernel)
  obtain rfl := of_decide_eq_true shown
  obtain ⟨index, t, ran, restarted⟩ := restarts_are_exact accepted _ s (.turn reached)
  have valid : Options.Valid { conflictsLimit := 1 } := by decide
  obtain ⟨living, waits⟩ := restarted.fact valid rfl
  exact ⟨accepted, _, s, index, t, .turn reached, ran, restarted, living, waits⟩

end ClauseLearning
