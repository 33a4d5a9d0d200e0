import ClauseLearning.Proofs.ClauseStoring
import ClauseLearning.Proofs.ConflictAnalysis
import ClauseLearning.Search.Phase

/-! Answering a conflict. Going back restores the invariant without looking at
any clause; the learned clause then has one open literal or none that is false
at the level gone back to. A restart deletes learned clauses only and leaves no
antecedent behind that was deleted. -/
namespace ClauseLearning

namespace State

variable {s t : State} {l : Learned} {target : Nat}

/-! ## Going back -/

theorem backtrack_coherent (coherent : s.Coherent) (reach : target ≤ s.level) :
    (s.backtrack target).Coherent where
  declared := (Trail.numVariables_backTo).trans coherent.declared
  trail := coherent.trail.backTo_coherent reach
  store := coherent.store
  explained := by
    intro newer m older index split known
    obtain ⟨dropped, whole⟩ := Trail.newestFirst_backTo_suffix s.trail target
    have split' : s.trail.newestFirst = (dropped ++ newer) ++ m :: older := by
      rw [← whole, List.append_assoc]
      exact congrArg (dropped ++ ·) split
    have onTrail : m ∈ (s.trail.backTo target).newestFirst := by
      have member : m ∈ newer ++ m :: older := by simp
      exact split ▸ member
    have known' : s.trail.reason m = some index :=
      (coherent.trail.reason_backTo reach onTrail).symm.trans known
    obtain ⟨c, living, inside, earlier, peer⟩ :=
      coherent.explained _ m older index split' known'
    refine ⟨c, living, inside, earlier, fun k positive holds => ?_⟩
    obtain ⟨holds, bound⟩ := (coherent.trail.true_at_backTo reach).mp holds
    obtain ⟨o, among, different, fails⟩ := peer k positive holds
    exact ⟨o, among, different, (coherent.trail.true_at_backTo reach).mpr ⟨fails, bound⟩⟩
  guarded := by
    intro i c w k living watched fails below
    obtain ⟨fails, bound⟩ := (coherent.trail.true_at_backTo reach).mp fails
    have level : (s.backtrack target).level = target := Trail.level_backTo_of_le reach
    rw [level] at below
    obtain ⟨o, other, j, le, holds⟩ :=
      coherent.guarded i c w k living watched fails (Nat.lt_of_lt_of_le below reach)
    exact ⟨o, other, j, le, (coherent.trail.true_at_backTo reach).mpr ⟨holds, by omega⟩⟩
  facts := by
    intro above i c m living single
    have level : (s.backtrack target).level = target := Trail.level_backTo_of_le reach
    rw [level] at above
    have fact := coherent.facts (Nat.lt_of_lt_of_le above reach) i c m living single
    exact (coherent.trail.true_at_backTo reach).mpr ⟨fact, Nat.zero_le _⟩

/-- Below the level of a conflict every false watch was made up for, so after
going back nothing is overlooked, whatever waited before. -/
theorem backtrack_quiet (coherent : s.Coherent) (lower : target < s.level) :
    (s.backtrack target).Quiet where
  attended := by
    intro i c w living watched fails
    have reach : target ≤ s.level := Nat.le_of_lt lower
    have level : (s.backtrack target).level = target := Trail.level_backTo_of_le reach
    rw [level] at fails
    obtain ⟨fails, bound⟩ := (coherent.trail.true_at_backTo reach).mp fails
    obtain ⟨o, other, j, le, holds⟩ := coherent.guarded i c w target living watched fails lower
    have kept := (coherent.trail.true_at_backTo reach).mpr ⟨holds, le⟩
    exact .inl ⟨o, other, Trail.value?_of_true_at kept⟩
  units := by
    intro _ i c m living single
    have fact := coherent.facts (Nat.zero_lt_of_lt lower) i c m living single
    exact .inl ((coherent.trail.true_at_backTo (Nat.le_of_lt lower)).mpr ⟨fact, Nat.zero_le _⟩)
  queued := by
    intro i m member
    cases member

theorem backtrack_keeps (coherent : s.Coherent) (reach : target ≤ s.level) :
    s.Keeps (s.backtrack target) where
  numVariables := rfl
  inputs := fun _ c living _ => ⟨c, living, .refl c⟩
  facts := fun _ fact => (coherent.trail.true_at_backTo reach).mpr ⟨fact, Nat.zero_le _⟩

theorem backtrack_admits (coherent : s.Coherent) (reach : target ≤ s.level)
    (admits : s.Admits w) : (s.backtrack target).Admits w :=
  ⟨admits.1, fun m fact => admits.2 m ((coherent.trail.true_at_backTo reach).mp fact).1⟩

/-! ## Storing the learned clause -/

variable {learned : Learned}

/-- Of a learned clause, only the asserting literal is open at the return level. -/
theorem asserting_open (coherent : s.Coherent) (fits : learned.Fits s.trail) :
    (s.trail.backTo learned.returnLevel).value? learned.asserting = none := by
  have open_ := coherent.trail.value?_backTo_of_lt (Nat.le_of_lt fits.below) fits.asserting
    fits.below
  rw [Trail.value?_negate] at open_
  exact Option.map_eq_none_iff.mp open_

theorem others_false (coherent : s.Coherent) (fits : learned.Fits s.trail)
    (member : m ∈ learned.others) :
    (s.trail.backTo learned.returnLevel).value? m = some false := by
  obtain ⟨k, -, bound, fails⟩ := fits.others m member
  have kept := (coherent.trail.true_at_backTo (Nat.le_of_lt fits.below)).mpr ⟨fails, bound⟩
  exact Trail.value?_of_false_at kept

/-- The second watch of a learned clause is false at the return level. -/
theorem watched_learned {trail : Trail} (fits : learned.Fits trail)
    (watched : w ∈ learned.clause.watched) :
    w = learned.asserting ∨ trail.FalseAt w learned.returnLevel := by
  unfold Clause.watched Learned.clause Learned.literals at watched
  cases shape : learned.others with
  | nil =>
    rw [shape] at watched
    exact .inl (by simpa using watched)
  | cons m rest =>
    rw [shape] at watched
    have either : w = learned.asserting ∨ w = m := by simpa using watched
    rcases either with same | rfl
    · exact .inl same
    · exact .inr (fits.deepest w rest shape)

theorem asserting_mem_watched : learned.asserting ∈ learned.clause.watched := by
  simp [Clause.watched, Learned.clause, Learned.literals]

/-- A backjump succeeds. It leaves the asserting literal waiting, open, as the
only entry of the queue, and nothing overlooked. -/
theorem backjump_spec (coherent : s.Coherent) (layered : s.trail.Layered)
    (fits : learned.Fits s.trail) :
    ∃ t, s.backjump learned = .ok (.propagating, t) ∧ t.Coherent ∧ t.Quiet ∧ t.trail.Layered ∧
      s.Keeps t ∧ t.trail = s.trail.backTo learned.returnLevel ∧ t.schedule = s.schedule ∧
      t.Ready ∧ (∃ index, s.store.clause? index = none ∧ ∀ j, t.store.clause? j
        = if j = index then some learned.clause else s.store.clause? j) ∧
      ∀ w, s.Admits w → ClauseHolds w learned.literals → t.Admits w := by
  let counted := { s.statistics with
    backjumps := s.statistics.backjumps + 1
    learnedClauses := s.statistics.learnedClauses + 1 }
  let back : State := { s.backtrack learned.returnLevel with statistics := counted }
  have reach : learned.returnLevel ≤ s.level := Nat.le_of_lt fits.below
  have level : back.level = learned.returnLevel := Trail.level_backTo_of_le reach
  have coherent' : back.Coherent := (backtrack_coherent coherent reach).congr rfl rfl rfl
  have quiet : back.Quiet := (backtrack_quiet coherent fits.below).congr rfl rfl rfl
  have kept : s.Keeps back := by
    obtain ⟨sized, inputs, facts⟩ := backtrack_keeps coherent reach
    exact ⟨sized, inputs, facts⟩
  have open_ : back.trail.value? learned.asserting = none := asserting_open coherent fits
  have implied : ∀ m ∈ learned.clause.literals, m ≠ learned.asserting →
      back.trail.value? m = some false :=
    fun m member different =>
      others_false coherent fits ((List.mem_cons.mp member).resolve_left different)
  have notBelow : ∀ w ∈ learned.clause.watched, ∀ k, back.trail.TrueAt w.negate k →
      ¬ k < back.level := by
    intro w watched k fails
    rcases watched_learned fits watched with rfl | deepest
    · rw [Trail.value?_of_false_at fails] at open_
      cases open_
    · have before := ((coherent.trail.true_at_backTo reach).mp fails).1
      have same := deepest.unique before
      omega
  have several : 0 < back.level → ∀ m, learned.clause.literals ≠ [m] := by
    intro above m single
    have ground := fits.alone (List.cons_eq_cons.mp single).2
    omega
  obtain ⟨index, store, inserted, consistent, absent, clauses⟩ :=
    ClauseStore.insert_consistent coherent'.store (fits.proper coherent.declared)
  have stored := coherent'.stored consistent absent clauses notBelow several
  have attended := quiet.stored clauses absent [(index, learned.asserting)]
    (fun _ _ _ => ⟨_, asserting_mem_watched, by simp, open_, implied⟩)
    (fun _ m single => by
      obtain ⟨rfl, -⟩ := List.cons_eq_cons.mp single
      simp)
    (fun i m member => by
      obtain ⟨rfl, rfl⟩ : i = index ∧ m = learned.asserting := by simpa using member
      exact ⟨rfl, List.mem_cons_self, implied⟩)
  have inserted' : s.store.insert learned.clause = .ok (index, store) := inserted
  refine ⟨{ back with store := store, queue := [(index, learned.asserting)] }, ?_,
    stored.congr rfl rfl rfl, attended, layered.backTo coherent.trail reach, ?_, rfl, rfl, ?_,
    ⟨index, absent, clauses⟩, fun w admits holds => ?_⟩
  · unfold backjump learn
    simp only [backtrack]
    rw [inserted']
    rfl
  · obtain ⟨sized, inputs, facts⟩ := kept.stored clauses absent
    exact ⟨sized, inputs, facts⟩
  · exact ⟨index, learned.asserting, [], by simp [nextUnit, open_]⟩
  · have admits' : back.Admits w := backtrack_admits coherent reach admits
    exact admits'.stored clauses holds

/-! ## Restarting -/

/-- At level 0 clauses may be deleted, once no antecedent names them. -/
theorem Coherent.pruned {store : ClauseStore} (coherent : s.Coherent) (ground : s.level = 0)
    (consistent : store.Consistent s.numVariables)
    (survive : ∀ i c, s.store.clause? i = some c → i ∉ deleted → store.clause? i = some c) :
    Coherent { s with trail := s.trail.forget deleted, store := store } where
  declared := (Assignment.numVariables_forget _ _).trans coherent.declared
  trail := Trail.forget_coherent coherent.trail
  store := consistent
  explained := by
    intro newer l older index split known
    have known' : (s.trail.reason l).filter (· ∉ deleted) = some index :=
      Trail.reason_forget.symm.trans known
    obtain ⟨known', kept⟩ := Option.filter_eq_some_iff.mp known'
    obtain ⟨c, living, inside, earlier, peer⟩ :=
      coherent.explained newer l older index split known'
    refine ⟨c, survive index c living (by simpa using kept), inside, earlier,
      fun k positive holds => ?_⟩
    obtain ⟨m, among, different, fails⟩ := peer k positive (Trail.true_at_forget.mp holds)
    exact ⟨m, among, different, Trail.true_at_forget.mpr fails⟩
  guarded := by
    intro i c w k _ _ _ below
    have below' : k < s.level := below
    omega
  facts := by
    intro above
    have above' : 0 < s.level := above
    omega

/-- With fewer clauses nothing new is overlooked, as long as the clauses that stay
go on waiting. -/
theorem Quiet.pruned {store : ClauseStore} (quiet : s.Quiet)
    (fewer : ∀ i c, store.clause? i = some c → s.store.clause? i = some c)
    (waiting : List (Nat × Literal))
    (kept : ∀ i c m, store.clause? i = some c → (i, m) ∈ s.queue → (i, m) ∈ waiting)
    (backed : ∀ i m, (i, m) ∈ waiting → (i, m) ∈ s.queue ∧ ∃ c, store.clause? i = some c) :
    Quiet { s with trail := s.trail.forget deleted, store := store, queue := waiting } where
  attended := by
    intro i c w living watched fails
    have fails' : s.trail.TrueAt w.negate s.level := Trail.true_at_forget.mp fails
    simp only [Trail.value?_forget]
    rcases quiet.attended i c w (fewer i c living) watched fails' with
      satisfied | ⟨o, other, waits, open_, others⟩
    · exact .inl satisfied
    · exact .inr ⟨o, other, kept i c o living waits, open_, others⟩
  units := by
    intro ground i c m living single
    rcases quiet.units ground i c m (fewer i c living) single with fact | waits
    · exact .inl (Trail.true_at_forget.mpr fact)
    · exact .inr (kept i c m living waits)
  queued := by
    intro i m member
    obtain ⟨waits, c, living⟩ := backed i m member
    obtain ⟨c', living', inside, others⟩ := quiet.queued i m waits
    cases (fewer i c living).symm.trans living'
    refine ⟨c, living, inside, fun o among different => ?_⟩
    exact Trail.value?_forget.trans (others o among different)

/-- What waits after a restart if the learned clause is stored at this index. -/
def waitingAfter (l : Learned) (index : Nat) : List (Nat × Literal) :=
  if l.returnLevel = 0 then [(index, l.asserting)] else []

theorem mem_waitingAfter_iff :
    (i, m) ∈ waitingAfter l index ↔ l.returnLevel = 0 ∧ i = index ∧ m = l.asserting := by
  by_cases ground : l.returnLevel = 0 <;> simp [waitingAfter, ground]

/-- Going back to level 0 undoes all literals of a learned clause, so that storing
it there overlooks nothing. -/
theorem learned_at_ground {store : ClauseStore} (coherent : s.Coherent)
    (fits : learned.Fits s.trail) (consistent : store.Consistent s.numVariables)
    (absent : s.store.clause? index = none)
    (clauses : ∀ j, store.clause? j
      = if j = index then some learned.clause else s.store.clause? j) :
    Coherent { s.backtrack 0 with store := store } ∧
      Quiet { s.backtrack 0 with store := store, queue := waitingAfter learned index } := by
  have reach : 0 ≤ s.level := Nat.zero_le _
  have level : (s.backtrack 0).level = 0 := Trail.level_backTo_of_le reach
  have notFalse : ∀ w ∈ learned.clause.watched, ∀ k, ¬ (s.backtrack 0).trail.TrueAt w.negate k := by
    intro w watched k fails
    obtain ⟨fails, bound⟩ := (coherent.trail.true_at_backTo reach).mp fails
    obtain ⟨j, positive, fails'⟩ := fits.falseAt (Clause.mem_of_mem_watched watched)
    have same := fails'.unique fails
    omega
  refine ⟨(backtrack_coherent coherent reach).stored consistent absent clauses
    (fun w watched k fails => absurd fails (notFalse w watched k)) (by omega), ?_⟩
  refine (backtrack_quiet coherent (Nat.zero_lt_of_lt fits.below)).stored clauses absent
    (waitingAfter learned index) (fun w watched fails => absurd fails (notFalse w watched _))
    (fun _ m single => ?_) (fun i m member => ?_)
  · obtain ⟨rfl, alone⟩ := List.cons_eq_cons.mp single
    exact mem_waitingAfter_iff.mpr ⟨fits.alone alone, rfl, rfl⟩
  · obtain ⟨ground, rfl, rfl⟩ := mem_waitingAfter_iff.mp member
    refine ⟨rfl, List.mem_cons_self, fun o among different => ?_⟩
    obtain ⟨k, positive, bound, -⟩ :=
      fits.others o ((List.mem_cons.mp among).resolve_left different)
    omega

/-- One state comes from another by a restart, and the learned clause was stored at this
index on the way: the trail is back at level 0, clauses beyond the limit are deleted and
no antecedent any more, and a fact that was learned waits. -/
structure StartsOver (s : State) (l : Learned) (index : Nat) (t : State) : Prop where
  absent : s.store.clause? index = none
  clauses : ∀ j, t.store.clause? j
    = (if j = index then some l.clause else s.store.clause? j).filter
      fun c => !c.isLearned || s.schedule.keeps c.blockDistance
  trail : ∃ deleted, t.trail = (s.trail.backTo 0).forget deleted ∧ ∀ j, j ∈ deleted ↔
    ∃ c, (if j = index then some l.clause else s.store.clause? j) = some c ∧
      c.isLearned = true ∧ s.schedule.keeps c.blockDistance = false
  queue : t.queue = if l.returnLevel = 0 ∧ (t.store.clause? index).isSome = true
    then [(index, l.asserting)] else []

/-- A restart succeeds. It leaves the facts, the clauses of the formula and those
learned clauses that are to be kept. -/
theorem startOver_spec (coherent : s.Coherent) (fits : learned.Fits s.trail) :
    ∃ t, s.startOver learned = .ok (.propagating, t) ∧ t.Coherent ∧ t.Quiet ∧ t.level = 0 ∧
      s.Keeps t ∧ t.schedule = s.schedule.relax ∧ (∃ index, s.StartsOver learned index t) ∧
      ∀ w, s.Admits w → ClauseHolds w learned.literals → t.Admits w := by
  have reach : 0 ≤ s.level := Nat.zero_le _
  have level : (s.backtrack 0).level = 0 := Trail.level_backTo_of_le reach
  obtain ⟨index, store, inserted, consistent, absent, clauses⟩ :=
    ClauseStore.insert_consistent coherent.store (fits.proper coherent.declared)
  obtain ⟨stored, attended⟩ := learned_at_ground coherent fits consistent absent clauses
  let keep := fun c : Clause => s.schedule.keeps c.blockDistance
  let pruned := (store.prune keep).2
  let deleted := (store.prune keep).1
  let waiting := if learned.returnLevel = 0 ∧ (pruned.clause? index).isSome = true
    then [(index, learned.asserting)] else []
  let counted := { s.statistics with
    learnedClauses := s.statistics.learnedClauses + 1
    restarts := s.statistics.restarts + 1
    deletedClauses := s.statistics.deletedClauses + deleted.length }
  let t : State := { s with
    trail := (s.trail.backTo 0).forget deleted
    store := pruned
    queue := waiting
    schedule := s.schedule.relax
    statistics := counted }
  have coherent' := stored.pruned level (ClauseStore.prune_consistent consistent keep).1
    fun i c living kept => ClauseStore.clause?_prune_of_notMem consistent living kept
  have fewer : ∀ i c, pruned.clause? i = some c → store.clause? i = some c :=
    fun i c living => ClauseStore.of_clause?_prune consistent living
  have stays : ∀ i c m, pruned.clause? i = some c → (i, m) ∈ waitingAfter learned index →
      (i, m) ∈ waiting := by
    intro i c m living waits
    obtain ⟨ground, rfl, rfl⟩ := mem_waitingAfter_iff.mp waits
    simp [waiting, ground, living]
  have backed : ∀ i m, (i, m) ∈ waiting →
      (i, m) ∈ waitingAfter learned index ∧ ∃ c, pruned.clause? i = some c := by
    intro i m member
    simp only [waiting] at member
    split at member
    · rename_i both
      obtain ⟨rfl, rfl⟩ : i = index ∧ m = learned.asserting := by simpa using member
      exact ⟨mem_waitingAfter_iff.mpr ⟨both.1, rfl, rfl⟩, Option.isSome_iff_exists.mp both.2⟩
    · cases member
  have quiet : t.Quiet := (attended.pruned fewer waiting stays backed).congr rfl rfl rfl
  have kept := (backtrack_keeps coherent reach).stored clauses absent
  refine ⟨t, ?_, coherent'.congr rfl rfl rfl, quiet, level, ?_, rfl, ⟨index, ?_⟩,
    fun w admits holds => ?_⟩
  · unfold startOver learn restart
    rw [inserted]
    by_cases revives : learned.returnLevel = 0 ∧ (pruned.clause? index).isSome = true
    · simp [backtrack, enqueue, t, waiting, revives, pruned, keep, deleted, counted]
    · simp [backtrack, t, waiting, revives, pruned, keep, deleted, counted]
  · refine ⟨rfl, fun i c living input => ?_, fun l fact => ?_⟩
    · obtain ⟨c', living', same⟩ := kept.inputs i c living input
      have input' : c'.isLearned = false := same.isLearned_eq ▸ input
      exact ⟨c', ClauseStore.clause?_prune_of_input consistent living' input', same⟩
    · exact Trail.true_at_forget.mpr (kept.facts l fact)
  · exact {
      absent := absent
      clauses := fun j => by
        rw [← clauses]
        exact (ClauseStore.prune_consistent consistent keep).2 j
      trail := ⟨deleted, rfl, fun j => by
        rw [← clauses]
        exact ClauseStore.mem_prune_iff consistent.toInStep keep⟩
      queue := rfl }
  · have admits' := (backtrack_admits coherent reach admits).stored clauses holds
    refine ⟨fun i c living => ?_, fun m fact => admits'.2 m (Trail.true_at_forget.mp fact)⟩
    exact admits'.1 i c (ClauseStore.of_clause?_prune consistent living)

end State

end ClauseLearning
