import ClauseLearning.Proofs.Assigning

/-! Propagation, decisions and assumptions. Each of them succeeds on a coherent
state in which nothing is overlooked, adds literals at one level only, and ends
either in such a state again or at a clause that is really falsified. -/
namespace ClauseLearning

namespace State

variable {s t u : State} {value : Literal → Option Bool} {l : Literal}
  {queue rest : List (Nat × Literal)}

/-! ## The front of the queue -/

theorem nextUnit_eq_none (ended : nextUnit value queue = .none) :
    ∀ e ∈ queue, value e.2 = some true := by
  induction queue with
  | nil => simp
  | cons first rest ih =>
    obtain ⟨i, l⟩ := first
    unfold nextUnit at ended
    cases known : value l with
    | none => simp [known] at ended
    | some b =>
      cases b with
      | false => simp [known] at ended
      | true =>
        simp only [known] at ended
        intro e member
        rcases List.mem_cons.mp member with rfl | member
        · exact known
        · exact ih ended e member

/-- What the queue asks for is its first entry whose literal is not true. -/
theorem nextUnit_split (asked : nextUnit value queue = next) (notEnd : next ≠ .none) :
    ∃ passed i l rest, queue = passed ++ (i, l) :: rest ∧
      (∀ e ∈ passed, value e.2 = some true) ∧
      ((value l = some false ∧ next = .conflict i rest) ∨
        (value l = none ∧ next = .assign i l rest)) := by
  induction queue with
  | nil => exact absurd asked.symm notEnd
  | cons first later ih =>
    obtain ⟨i, l⟩ := first
    unfold nextUnit at asked
    cases known : value l with
    | none =>
      simp only [known] at asked
      exact ⟨[], i, l, later, rfl, by simp, .inr ⟨known, asked.symm⟩⟩
    | some b =>
      cases b with
      | false =>
        simp only [known] at asked
        exact ⟨[], i, l, later, rfl, by simp, .inl ⟨known, asked.symm⟩⟩
      | true =>
        simp only [known] at asked
        obtain ⟨passed, j, m, rest, rfl, passedTrue, found⟩ := ih asked
        refine ⟨(i, l) :: passed, j, m, rest, rfl, ?_, found⟩
        intro e member
        rcases List.mem_cons.mp member with rfl | member
        · exact known
        · exact passedTrue e member

/-- True literals at the front of the queue are of no use any more. -/
theorem Quiet.drop (quiet : s.Quiet) (trail : s.trail.Coherent)
    (split : s.queue = passed ++ rest) (passedTrue : ∀ e ∈ passed, s.trail.value? e.2 = some true) :
    Quiet { s with queue := rest } where
  attended := by
    intro i c w living watched fails
    rcases quiet.attended i c w living watched fails with
      satisfied | ⟨o, other, queued, open_, others⟩
    · exact .inl satisfied
    · rw [split, List.mem_append] at queued
      rcases queued with before | kept
      · have known : s.trail.value? o = some true := passedTrue _ before
        rw [open_] at known
        cases known
      · exact .inr ⟨o, other, kept, open_, others⟩
  units := by
    intro ground i c m living single
    rcases quiet.units ground i c m living single with fact | queued
    · exact .inl fact
    · rw [split, List.mem_append] at queued
      rcases queued with before | kept
      · exact .inl (trail.fact_of_true ground (passedTrue _ before))
      · exact .inr kept
  queued := by
    intro i m member
    exact quiet.queued i m (by rw [split]; exact List.mem_append_right _ member)

/-- The literal that the queue asks to assign is open, and its clause implies it. -/
theorem Quiet.implies_of_asked (quiet : s.Quiet)
    (asked : nextUnit s.trail.value? s.queue = .assign i l rest) :
    s.Implies i l ∧ s.trail.value? l = none := by
  obtain ⟨passed, j, m, later, split, -, found⟩ := nextUnit_split asked (by simp)
  obtain ⟨open_, same⟩ := found.resolve_left (by simp)
  cases same
  exact ⟨quiet.queued i l (by simp [split]), open_⟩

/-- The literal of a clause of one literal is a fact or waits to become one. -/
theorem Quiet.fact_or_queued (quiet : s.Quiet) (coherent : s.Coherent)
    (living : s.store.clause? i = some c) (single : c.literals = [l]) :
    s.trail.TrueAt l 0 ∨ (i, l) ∈ s.queue := by
  rcases Nat.eq_zero_or_pos s.level with ground | above
  · exact quiet.units ground i c l living single
  · exact .inl (coherent.facts above i c l living single)

/-- When nothing waits, a true watch makes up for a false one. -/
theorem Quiet.exists_true_watch (quiet : s.Quiet) (coherent : s.Coherent) (empty : s.queue = [])
    (living : s.store.clause? i = some c) (watched : w ∈ c.watched)
    (fails : s.trail.TrueAt w.negate k) : ∃ o ∈ c.watched, ∃ j, j ≤ k ∧ s.trail.TrueAt o j := by
  have bound : k ≤ s.level := coherent.trail.le_level fails
  rcases Nat.lt_or_eq_of_le bound with below | rfl
  · exact coherent.guarded i c w k living watched fails below
  · rcases quiet.attended i c w living watched fails with ⟨o, other, holds⟩ | ⟨_, _, queued, _⟩
    · obtain ⟨j, holds⟩ := Trail.value?_eq_true_iff.mp holds
      exact ⟨o, other, j, coherent.trail.le_level holds, holds⟩
    · rw [empty] at queued
      cases queued

/-! ## What implies a waiting literal -/

/-- Only the variables, the trail and the store matter to coherence. -/
theorem Coherent.congr (coherent : s.Coherent) (sized : t.numVariables = s.numVariables)
    (trail : t.trail = s.trail) (store : t.store = s.store) : t.Coherent := by
  obtain ⟨_, _, _, trail', store', _, _, _⟩ := t
  simp only at sized trail store
  subst sized trail store
  exact ⟨coherent.declared, coherent.trail, coherent.store, coherent.explained, coherent.guarded,
    coherent.facts⟩

theorem Quiet.congr (quiet : s.Quiet) (trail : t.trail = s.trail) (store : t.store = s.store)
    (queue : t.queue = s.queue) : t.Quiet := by
  obtain ⟨_, _, _, trail', store', queue', _, _⟩ := t
  simp only at trail store queue
  subst trail store queue
  exact ⟨quiet.attended, quiet.units, quiet.queued⟩

/-- Above level 0 a clause that implies an open literal has another watch, which
became false at the current level. -/
theorem Coherent.peer (coherent : s.Coherent) (above : 0 < s.level)
    (living : s.store.clause? i = some c) (member : l ∈ c.literals)
    (others : ∀ m ∈ c.literals, m ≠ l → s.trail.value? m = some false)
    (open_ : s.trail.value? l = none) :
    ∃ m ∈ c.literals, m ≠ l ∧ s.trail.TrueAt m.negate s.level := by
  have several : ∃ w ∈ c.watched, w ≠ l := by
    rcases (coherent.store.proper i c living).eq_singleton_or_watches member with single | several
    · have fact := coherent.facts above i c l living single
      rw [Trail.value?_of_true_at fact] at open_
      cases open_
    · exact several
  obtain ⟨w, watched, different⟩ := several
  have inside := Clause.mem_of_mem_watched watched
  obtain ⟨k, fails⟩ := Trail.value?_eq_false_iff.mp (others w inside different)
  have bound : k ≤ s.level := coherent.trail.le_level fails
  rcases Nat.lt_or_eq_of_le bound with below | rfl
  · -- below the current level the clause would be satisfied already
    obtain ⟨o, other, j, -, holds⟩ := coherent.guarded i c w k living watched fails below
    have known := Trail.value?_of_true_at holds
    by_cases same : o = l
    · rw [same, open_] at known
      cases known
    · rw [others o (Clause.mem_of_mem_watched other) same] at known
      cases known
  · exact ⟨w, inside, different, fails⟩

/-- Assigning a waiting literal succeeds, and its clause justifies it; above
level 0 that clause is recorded. -/
theorem assignUnit_pushed (coherent : s.Coherent) (implies : s.Implies i l)
    (open_ : s.trail.value? l = none) :
    ∃ antecedent counted v t, s.assignUnit i l = .ok (v.status, t) ∧
      Pushed { s with statistics := counted } l antecedent v t ∧
      (∀ j, antecedent = some j → s.Justifies j l) ∧ (0 < s.level → antecedent ≠ none) := by
  obtain ⟨c, living, member, others⟩ := implies
  let counted := { s.statistics with unitPropagations := s.statistics.unitPropagations + 1 }
  let antecedent := if 1 < c.literals.length then some i else none
  have declared := (coherent.store.proper i c living).declared l member
  obtain ⟨v, t, ran, pushed⟩ := assign_pushed antecedent
    (coherent.congr (t := { s with statistics := counted }) rfl rfl rfl) declared open_
  refine ⟨antecedent, counted, v, t, ?_, pushed, ?_, ?_⟩
  · rw [assignUnit, ClauseStore.get_eq_ok_iff.mpr living]
    exact ran
  · intro j known
    obtain ⟨-, rfl⟩ : 1 < c.literals.length ∧ i = j := by
      simpa [antecedent] using known
    exact ⟨c, living, member, others, fun above => coherent.peer above living member others open_⟩
  · intro above
    obtain ⟨m, inside, different, -⟩ := coherent.peer above living member others open_
    have long : 1 < c.literals.length := by
      rcases Nat.lt_or_ge 1 c.literals.length with long | short
      · exact long
      · obtain ⟨only, shape⟩ : ∃ only, c.literals = [only] := by
          have positive : 0 < c.literals.length := List.length_pos_of_mem member
          exact List.length_eq_one_iff.mp (by omega)
        rw [shape, List.mem_singleton] at inside member
        exact absurd (inside.trans member.symm) different
    simp [antecedent, long]

/-! ## Propagating -/

/-- One state goes on from another at the same level: clauses are at most
rearranged, the trail gains literals of that level, and those below stay. -/
structure Extends (s t : State) : Prop where
  numVariables : t.numVariables = s.numVariables
  schedule : t.schedule = s.schedule
  rearranged : ClauseStore.Rearranged s.store t.store
  level : t.level = s.level
  grown : ∃ added : List Literal,
    t.trail.leveled = added.map (fun l => (l, s.level)) ++ s.trail.leveled
  lower : ∀ k < s.level, t.trail.backTo k = s.trail.backTo k

theorem Extends.refl (s : State) : s.Extends s where
  numVariables := rfl
  schedule := rfl
  rearranged := .refl s.store
  level := rfl
  grown := ⟨[], rfl⟩
  lower := fun _ _ => rfl

theorem Extends.trans (first : s.Extends t) (second : t.Extends u) : s.Extends u where
  numVariables := second.numVariables.trans first.numVariables
  schedule := second.schedule.trans first.schedule
  rearranged := first.rearranged.trans second.rearranged
  level := second.level.trans first.level
  grown := by
    obtain ⟨added, before⟩ := first.grown
    obtain ⟨added', after⟩ := second.grown
    refine ⟨added' ++ added, ?_⟩
    rw [after, before, first.level, List.map_append, List.append_assoc]
  lower := by
    intro k below
    exact (second.lower k (first.level.symm ▸ below)).trans (first.lower k below)

theorem Extends.true_at (extended : s.Extends t) (before : s.trail.Coherent)
    (after : t.trail.Coherent) (holds : s.trail.TrueAt l k) : t.trail.TrueAt l k := by
  obtain ⟨added, grown⟩ := extended.grown
  rw [after.recorded, grown]
  exact List.mem_append_right _ ((before.recorded l k).mp holds)

theorem Extends.size_le (extended : s.Extends t) : s.trail.size ≤ t.trail.size := by
  obtain ⟨added, grown⟩ := extended.grown
  have lengths := congrArg List.length grown
  rw [List.length_append, Trail.length_leveled, Trail.length_leveled] at lengths
  omega

/-- What every step keeps: the clauses of the formula, up to the order of their
literals, and the facts. -/
structure Keeps (s t : State) : Prop where
  numVariables : t.numVariables = s.numVariables
  inputs : ∀ i c, s.store.clause? i = some c → c.isLearned = false →
    ∃ c', t.store.clause? i = some c' ∧ Clause.Rearranged c c'
  facts : ∀ l, s.trail.TrueAt l 0 → t.trail.TrueAt l 0

theorem Keeps.refl (s : State) : s.Keeps s where
  numVariables := rfl
  inputs := fun _ c living _ => ⟨c, living, .refl c⟩
  facts := fun _ fact => fact

theorem Extends.keeps (extended : s.Extends t) (before : s.trail.Coherent)
    (after : t.trail.Coherent) : s.Keeps t where
  numVariables := extended.numVariables
  inputs := fun _ _ living _ => extended.rearranged.forward living
  facts := fun _ fact => extended.true_at before after fact

theorem Pushed.extends_state (pushed : Pushed s l antecedent v t) : s.Extends t where
  numVariables := by rw [pushed.frame]
  schedule := by rw [pushed.frame]
  rearranged := pushed.rearranged
  level := pushed.level
  grown := ⟨[l], by rw [pushed.trail, Trail.leveled_push]; rfl⟩
  lower := by
    intro k below
    rw [pushed.trail]
    exact Trail.backTo_push pushed.free pushed.declared below

theorem Pushed.layered (pushed : Pushed s l antecedent v t) (layered : s.trail.Layered)
    (trail : s.trail.Coherent) (implied : 0 < s.level → antecedent ≠ none) : t.trail.Layered := by
  rw [pushed.trail]
  exact layered.push trail pushed.free pushed.declared implied

/-- What a clause implies at level 0 holds wherever clauses and facts do. -/
theorem Implies.holds (implies : s.Implies i l) (trail : s.trail.Coherent) (admits : s.Admits w)
    (ground : s.level = 0) : l.Holds w := by
  obtain ⟨c, living, -, others⟩ := implies
  obtain ⟨m, inside, holds⟩ := admits.1 i c living
  by_cases same : m = l
  · exact same ▸ holds
  · have fact := trail.fact_of_false ground (others m inside same)
    exact absurd holds (Literal.holds_negate.mp (admits.2 m.negate fact))

/-- How assigning leaves a state: coherent, and either nothing is overlooked or
a clause is falsified. -/
structure Settled (status : Status) (t : State) : Prop where
  coherent : t.Coherent
  layered : t.trail.Layered
  quiet : status = .consistent → t.Quiet
  falsified : ∀ i, status = .conflict i → t.Falsified i

/-- The next waiting literal is to be assigned. -/
def Ready (s : State) : Prop :=
  ∃ i l rest, nextUnit s.trail.value? s.queue = .assign i l rest

/-- Assigning the first open literal of the queue. -/
theorem assignUnit_spec (coherent : s.Coherent) (quiet : s.Quiet) (layered : s.trail.Layered)
    (asked : nextUnit s.trail.value? s.queue = .assign i l rest) :
    ∃ status t, { s with queue := rest }.assignUnit i l = .ok (status, t) ∧ s.Extends t ∧
      Settled status t ∧ (∀ w, s.Admits w → t.Admits w) ∧ s.trail.size < t.trail.size := by
  obtain ⟨passed, j, m, later, split, passedTrue, found⟩ := nextUnit_split asked (by simp)
  obtain ⟨open_, same⟩ := found.resolve_left (by simp)
  cases same
  have waiting := quiet.drop coherent.trail split passedTrue
  have implies : s.Implies i l := quiet.queued i l (by simp [split])
  have coherent' := coherent.congr (t := { s with queue := rest }) rfl rfl rfl
  obtain ⟨antecedent, counted, v, t, ran, pushed, justified, recorded⟩ :=
    assignUnit_pushed coherent' implies open_
  have coherent'' : Coherent { s with queue := rest, statistics := counted } :=
    coherent.congr rfl rfl rfl
  have extended := pushed.extends_state
  refine ⟨v.status, t, ran, ?_, ?_, fun w admits => ?_, ?_⟩
  · exact ⟨extended.numVariables, extended.schedule, extended.rearranged, extended.level,
      extended.grown, extended.lower⟩
  · exact {
      coherent := pushed.coherent coherent'' justified
      layered := pushed.layered layered coherent.trail recorded
      quiet := fun calm => by
        have quiet' : Quiet { s with queue := (i, l) :: rest, statistics := counted } :=
          waiting.congr rfl rfl rfl
        refine pushed.quiet coherent.store calm quiet' (fun e member => ?_) fun e member => ?_
        · rcases List.mem_cons.mp member with rfl | member
          · exact .inr rfl
          · exact .inl member
        · exact List.mem_cons_of_mem _ member
      falsified := fun j stopped => pushed.falsified stopped }
  · exact pushed.admits (s := { s with queue := rest, statistics := counted }) admits
      fun ground => implies.holds coherent.trail admits ground
  · rw [pushed.trail]
    simp [Trail.size]

/-- Propagation succeeds. It ends with an empty queue and nothing overlooked, or
at a falsified clause. -/
theorem propagate_spec (s : State) (coherent : s.Coherent) (quiet : s.Quiet)
    (layered : s.trail.Layered) :
    ∃ status t, s.propagate = .ok (status, t) ∧ s.Extends t ∧ Settled status t ∧
      (∀ w, s.Admits w → t.Admits w) ∧ (status = .consistent → t.queue = []) ∧
      (s.Ready → s.trail.size < t.trail.size) := by
  fun_induction propagate s with
  | case1 s asked =>
    have drop : Quiet { s with queue := [] } :=
      quiet.drop coherent.trail (List.append_nil _).symm (nextUnit_eq_none asked)
    refine ⟨_, _, rfl, ?_, ⟨coherent.congr rfl rfl rfl, layered, fun _ => drop, ?_⟩,
      fun w admits => admits, fun _ => rfl, ?_⟩
    · exact ⟨rfl, rfl, .refl s.store, rfl, ⟨[], rfl⟩, fun _ _ => rfl⟩
    · intro i stopped
      cases stopped
    · rintro ⟨i, l, rest, asked'⟩
      rw [asked] at asked'
      cases asked'
  | case2 s index rest asked =>
    obtain ⟨passed, j, m, later, split, passedTrue, found⟩ := nextUnit_split asked (by simp)
    obtain ⟨fails, same⟩ := found.resolve_right (by simp)
    cases same
    obtain ⟨c, living, member, others⟩ := quiet.queued index m (by simp [split])
    refine ⟨_, _, rfl, ?_, ⟨coherent.congr rfl rfl rfl, layered, nofun, ?_⟩,
      fun w admits => admits, nofun, ?_⟩
    · exact ⟨rfl, rfl, .refl s.store, rfl, ⟨[], rfl⟩, fun _ _ => rfl⟩
    · intro i stopped
      cases stopped
      refine ⟨c, living, fun o inside => ?_⟩
      by_cases same : o = m
      · exact same ▸ fails
      · exact others o inside same
    · rintro ⟨i, l, rest', asked'⟩
      rw [asked] at asked'
      cases asked'
  | case3 s index l rest asked fault broken =>
    obtain ⟨status, t, ran, -⟩ := assignUnit_spec coherent quiet layered asked
    rw [broken] at ran
    cases ran
  | case4 s index l rest asked clause s' stopped =>
    obtain ⟨status, t, ran, extended, settled, admits, grown⟩ :=
      assignUnit_spec coherent quiet layered asked
    rw [stopped] at ran
    cases ran
    exact ⟨_, _, rfl, extended, settled, admits, nofun, fun _ => grown⟩
  | case5 s index l rest asked s' assigned ih =>
    obtain ⟨status, t, ran, extended, settled, admits, grown⟩ :=
      assignUnit_spec coherent quiet layered asked
    rw [assigned] at ran
    cases ran
    obtain ⟨status, u, ran, extended', settled', admits', emptied, -⟩ :=
      ih settled.coherent (settled.quiet rfl) settled.layered
    refine ⟨status, u, ran, extended.trans extended', settled',
      fun w holds => admits' w (admits w holds), emptied, fun _ => ?_⟩
    exact Nat.lt_of_lt_of_le grown extended'.size_le

/-! ## Deciding -/

/-- Opening a level when nothing waits overlooks nothing: every false watch is now
below the current level, and a true watch makes up for it. -/
theorem openLevel_coherent (coherent : s.Coherent) (quiet : s.Quiet) (empty : s.queue = []) :
    Coherent { s with trail := s.trail.openLevel } where
  declared := coherent.declared
  trail := Trail.openLevel_coherent coherent.trail
  store := coherent.store
  explained := coherent.explained
  guarded := by
    intro i c w k living watched fails _
    exact quiet.exists_true_watch coherent empty living watched fails
  facts := by
    intro _ i c l living single
    rcases quiet.fact_or_queued coherent living single with fact | queued
    · exact fact
    · rw [empty] at queued
      cases queued

theorem openLevel_quiet (coherent : s.Coherent) (empty : s.queue = []) :
    Quiet { s with trail := s.trail.openLevel } where
  attended := by
    intro i c w living watched fails
    have fails' : s.trail.TrueAt w.negate (s.level + 1) := fails
    have bound : s.level + 1 ≤ s.level := coherent.trail.le_level fails'
    omega
  units := by
    intro ground
    have impossible : s.level + 1 = 0 := ground
    omega
  queued := by
    intro i l member
    have member' : (i, l) ∈ s.queue := member
    rw [empty] at member'
    cases member'

/-- A decision on an open literal succeeds and starts a level with it. -/
theorem decide_spec (coherent : s.Coherent) (quiet : s.Quiet) (empty : s.queue = [])
    (layered : s.trail.Layered) (declared : l.var < s.numVariables)
    (open_ : s.trail.value? l = none) :
    ∃ status t, s.decide l = .ok (status, t) ∧
      { s with trail := s.trail.openLevel }.Extends t ∧ Settled status t ∧
      t.trail.leveled = (l, s.level + 1) :: s.trail.leveled ∧
      ∀ w, s.Admits w → t.Admits w := by
  let counted := { s.statistics with decisions := s.statistics.decisions + 1 }
  let opened : State := { s with trail := s.trail.openLevel, statistics := counted }
  have coherent' : opened.Coherent := (openLevel_coherent coherent quiet empty).congr rfl rfl rfl
  have quiet' : opened.Quiet := (openLevel_quiet coherent empty).congr rfl rfl rfl
  obtain ⟨v, t, ran, pushed⟩ := assign_pushed none coherent' declared open_
  have extended := pushed.extends_state
  have unjustified : ∀ i, none = some i → opened.Justifies i l := by
    intro i impossible
    cases impossible
  refine ⟨v.status, t, ran, ?_, ?_, ?_, fun w admits => ?_⟩
  · exact ⟨extended.numVariables, extended.schedule, extended.rearranged, extended.level,
      extended.grown, extended.lower⟩
  · exact {
      coherent := pushed.coherent coherent' unjustified
      layered := by
        rw [pushed.trail]
        exact layered.decide coherent.trail pushed.free pushed.declared
      quiet := fun calm => pushed.quiet coherent'.store calm quiet'
        (fun e member => .inl member) fun e member => member
      falsified := fun i stopped => pushed.falsified stopped }
  · rw [pushed.trail, Trail.leveled_push, Trail.leveled_openLevel]
    rfl
  · exact pushed.admits (s := opened) admits fun ground => by
      have impossible : s.level + 1 = 0 := ground
      omega

/-! ## Assuming -/

/-- What trying to assume literals means for the valuations that make them hold. -/
def Assumed.Means (literals : List Literal) (s t : State) : Assumed → Prop
  | .held => t.Quiet ∧ (∀ l ∈ literals, t.trail.TrueAt l 0) ∧
      ∀ w, s.Admits w → (∀ l ∈ literals, l.Holds w) → t.Admits w
  | .contradicts _ => ∀ w, s.Admits w → ¬ ∀ l ∈ literals, l.Holds w
  | .falsifies _ _ => ∀ w, s.Admits w → ¬ ∀ l ∈ literals, l.Holds w

/-- With one more literal, which became a fact before the others were assumed. -/
theorem Assumed.Means.cons {answer : Assumed} (means : answer.Means literals t u)
    (admitted : ∀ w, s.Admits w → l.Holds w → t.Admits w) (fact : u.trail.TrueAt l 0) :
    answer.Means (l :: literals) s u := by
  have refutes : (∀ w, t.Admits w → ¬ ∀ m ∈ literals, m.Holds w) →
      ∀ w, s.Admits w → ¬ ∀ m ∈ l :: literals, m.Holds w := by
    intro refuted w admits all
    obtain ⟨first, others⟩ := List.forall_mem_cons.mp all
    exact refuted w (admitted w admits first) others
  cases answer with
  | held =>
    obtain ⟨quiet, facts, admits⟩ := means
    refine ⟨quiet, List.forall_mem_cons.mpr ⟨fact, facts⟩, fun w before all => ?_⟩
    obtain ⟨first, others⟩ := List.forall_mem_cons.mp all
    exact admits w (admitted w before first) others
  | contradicts m => exact refutes means
  | falsifies m i => exact refutes means

/-- Assuming literals at level 0 succeeds, and fails to hold them only if no
valuation of the clauses does. -/
theorem assumeAll_spec (literals : List Literal) (coherent : s.Coherent) (quiet : s.Quiet)
    (ground : s.level = 0) (declared : ∀ l ∈ literals, l.var < s.numVariables) :
    ∃ assumed t, assumeAll literals s = .ok (assumed, t) ∧ s.Extends t ∧ t.Coherent ∧
      assumed.Means literals s t := by
  induction literals generalizing s with
  | nil =>
    exact ⟨.held, s, rfl, .refl s, coherent, quiet, by simp, fun w admits _ => admits⟩
  | cons l rest ih =>
    have declared' : ∀ m ∈ rest, m.var < s.numVariables :=
      fun m member => declared m (List.mem_cons_of_mem _ member)
    unfold assumeAll
    cases known : s.trail.value? l with
    | some b =>
      cases b with
      | true =>
        have fact := coherent.trail.fact_of_true ground known
        obtain ⟨assumed, t, ran, extended, coherent', means⟩ := ih coherent quiet ground declared'
        refine ⟨assumed, t, ran, extended, coherent', ?_⟩
        apply means.cons
        · exact fun w admits _ => admits
        · exact extended.true_at coherent.trail coherent'.trail fact
      | false =>
        refine ⟨.contradicts l, s, rfl, .refl s, coherent, fun w admits all => ?_⟩
        have fact := coherent.trail.fact_of_false ground known
        exact Literal.holds_negate.mp (admits.2 _ fact) (all l List.mem_cons_self)
    | none =>
      obtain ⟨v, t, ran, pushed⟩ := assign_pushed none coherent (declared l (by simp)) known
      have coherent' := pushed.coherent coherent (by simp)
      have extended := pushed.extends_state
      have admitted : ∀ w, s.Admits w → l.Holds w → t.Admits w :=
        fun w admits holds => pushed.admits admits fun _ => holds
      rw [ran]
      cases status : v.status with
      | conflict i =>
        refine ⟨.falsifies l i, t, rfl, extended, coherent', fun w admits all => ?_⟩
        exact (pushed.falsified status).not_admits coherent'.trail (pushed.level.trans ground)
          (admitted w admits (all l List.mem_cons_self))
      | consistent =>
        have quiet' := pushed.quiet coherent.store status quiet (fun e member => .inl member)
          fun e member => member
        obtain ⟨assumed, u, ran', extended', coherent'', means⟩ := ih coherent' quiet'
          (pushed.level.trans ground) (extended.numVariables ▸ declared')
        have fact : t.trail.TrueAt l 0 := pushed.true_at_iff.mpr (.inl ⟨rfl, ground.symm⟩)
        refine ⟨assumed, u, ran', extended.trans extended', coherent'', ?_⟩
        apply means.cons admitted
        exact extended'.true_at coherent'.trail coherent''.trail fact

end State

end ClauseLearning
