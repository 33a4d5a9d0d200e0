import ClauseLearning.Proofs.RunStates
import ClauseLearning.Proofs.TrailPositions

/-! The rule for watched literals. While no conflict is pending, a false watched
literal is made up for by the other one: that is true since no later a level, or it
is open, the only literal left, and waits to be assigned. The levels make the rule
survive going back, which repairs no watches. A watch therefore never moves while the
other watch is false. -/
namespace ClauseLearning

/-- A visit may be cut off after some of the waiting clauses. -/
theorem ClauseStore.Taken.first {s : ClauseStore} (taken : Taken s old waiting n)
    (cut : before <+: waiting) : Taken s old before n where
  proper := taken.proper
  sized := taken.sized
  listed := taken.listed
  listedOnce := taken.listedOnce
  watching := fun i member => taken.watching i (cut.subset member)
  watchingOnce := taken.watchingOnce.sublist cut.sublist

namespace State

/-- What must hold of the other watched literal and the rest of a clause when a
watched literal of it is false. -/
def MakesUp (s : State) (i : Nat) (false_ other : Literal) (rest : List Literal) : Prop :=
  s.trail.value? false_ = some false →
    (s.trail.value? other = some true ∧
      ∃ j k, s.trail.level? other = some j ∧ s.trail.level? false_ = some k ∧ j ≤ k) ∨
    (s.trail.value? other = none ∧ (∀ m ∈ rest, s.trail.value? m = some false) ∧
      (i, other) ∈ s.queue)

/-- The watches of every clause are in order, and the literal of a clause of one
literal is a fact or waits to become one. -/
structure Watched (s : State) : Prop where
  pairs : ∀ i first second rest origin,
    s.store.clause? i = some ⟨first :: second :: rest, origin⟩ →
    s.MakesUp i first second rest ∧ s.MakesUp i second first rest
  singles : ∀ i l origin, s.store.clause? i = some ⟨[l], origin⟩ →
    (s.trail.value? l = some true ∧ s.trail.level? l = some 0) ∨ (i, l) ∈ s.queue

/-- While this literal is assigned, the turn of the clause at this index comes and has
this outcome: the visit has come past the watchers before it without a conflict. -/
def Reconsiders (s : State) (l : Literal) (antecedent : Option Nat) (i : Nat) (c : Clause)
    (outcome : Reconsidered) : Prop :=
  ∃ before after v c', (s.store.watchers.take l.negate).1 = before ++ i :: after ∧
    visit (s.trail.push l antecedent).value? l.negate before
      { s.store with watchers := (s.store.watchers.take l.negate).2 } = .ok v ∧
    v.status = .consistent ∧ v.store.clause? i = some c ∧
    c.reconsider (s.trail.push l antecedent).value? l.negate = some (outcome, c')

variable {s t : State}

/-- The rule for one of two watches: the other one can only be the true or waiting watch
that a coherent state with nothing overlooked has. -/
theorem makesUp_of_attended (coherent : s.Coherent) (attended : s.Attended)
    (living : s.store.clause? i = some c) (watched : w ∈ c.watched)
    (two : ∀ x ∈ c.watched, x = w ∨ x = o)
    (inside : ∀ m ∈ rest, m ∈ c.literals ∧ m ≠ o) : s.MakesUp i w o rest := by
  intro fails
  obtain ⟨k, fails⟩ := Trail.value?_eq_false_iff.mp fails
  have level := Trail.level?_of_false_at fails
  have other : ∀ x ∈ c.watched, s.trail.value? x ≠ some false → x = o := by
    intro x member notFalse
    rcases two x member with rfl | same
    · exact absurd (Trail.value?_of_false_at fails) notFalse
    · exact same
  have bound : k ≤ s.level := coherent.trail.le_level fails
  rcases Nat.lt_or_eq_of_le bound with below | rfl
  · obtain ⟨x, member, j, le, holds⟩ := coherent.guarded i c w k living watched fails below
    obtain rfl := other x member (by simp [Trail.value?_of_true_at holds])
    exact .inl ⟨Trail.value?_of_true_at holds, j, k, Trail.level?_of_true_at holds, level, le⟩
  · rcases attended i c w living watched fails with
      ⟨x, member, holds⟩ | ⟨x, member, queued, open_, others⟩
    · obtain rfl := other x member (by simp [holds])
      obtain ⟨j, holds⟩ := Trail.value?_eq_true_iff.mp holds
      exact .inl ⟨Trail.value?_of_true_at holds, j, s.level, Trail.level?_of_true_at holds, level,
        coherent.trail.le_level holds⟩
    · obtain rfl := other x member (by simp [open_])
      exact .inr ⟨open_, fun m member => others m (inside m member).1 (inside m member).2, queued⟩

/-- While nothing is overlooked, the watches are in order. -/
theorem Quiet.watched (quiet : s.Quiet) (coherent : s.Coherent) : s.Watched where
  pairs := by
    intro i first second rest origin living
    have distinct := (coherent.store.proper i _ living).nodup
    simp only [List.nodup_cons, List.mem_cons, not_or] at distinct
    obtain ⟨⟨-, firstOut⟩, secondOut, -⟩ := distinct
    constructor
    · apply makesUp_of_attended coherent quiet.attended living
      · exact List.mem_cons_self
      · simp [Clause.watched]
      · exact fun m member => ⟨by simp [member], fun same => secondOut (same ▸ member)⟩
    · apply makesUp_of_attended coherent quiet.attended living
      · simp [Clause.watched]
      · simp [Clause.watched, or_comm]
      · exact fun m member => ⟨by simp [member], fun same => firstOut (same ▸ member)⟩
  singles := by
    intro i l origin living
    exact (quiet.fact_or_queued coherent living rfl).imp_left fun fact =>
      ⟨Trail.value?_of_true_at fact, Trail.level?_of_true_at fact⟩

/-- The clause whose turn comes is as it was before the visit, and watches the negation. -/
theorem Reconsiders.clause (turn : s.Reconsiders l antecedent i c outcome)
    (consistent : s.store.Consistent n) :
    s.store.clause? i = some c ∧ l.negate ∈ c.watched ∧
      ∃ c', Clause.Decides (s.trail.push l antecedent).value? l.negate c c' outcome := by
  obtain ⟨before, after, v, c', list, ran, -, living, reconsidered⟩ := turn
  have taken := consistent.taken l.negate
  have once := taken.watchingOnce
  rw [list] at once
  have cut : before <+: (s.store.watchers.take l.negate).1 := by
    rw [list]
    exact List.prefix_append _ _
  obtain ⟨v', ran', visited, -⟩ :=
    visit_visited (s.trail.push l antecedent).value? before (taken.first cut)
  cases ran.symm.trans ran'
  have notBefore : i ∉ before := fun member =>
    List.disjoint_of_nodup_append once member List.mem_cons_self
  have living' : s.store.clause? i = some c := (visited.elsewhere i notBefore).symm.trans living
  obtain ⟨d, found, watching⟩ := taken.watching i (by simp [list])
  cases living'.symm.trans found
  have decided := (Clause.reconsider_decides (consistent.proper i c living') reconsidered).2
  exact ⟨living', watching, c', decided⟩

/-- With one watch on the negation of an open literal and the other one false, all
other literals are false, so that none of them can take a watch. -/
theorem Watched.all_false (watched : s.Watched) (open_ : s.trail.value? l = none)
    (living : s.store.clause? i = some c) (watching : l.negate ∈ c.watched)
    (member : o ∈ c.watched) (different : o ≠ l.negate) (fails : s.trail.value? o = some false) :
    ∀ m ∈ c.literals, m ∉ c.watched → s.trail.value? m = some false := by
  intro m inside fresh
  have openNegation : s.trail.value? l.negate = none := by
    rw [Trail.value?_negate, open_]
    rfl
  have left : ∀ rest, s.MakesUp i o l.negate rest → m ∈ rest → s.trail.value? m = some false := by
    intro rest makesUp listed
    rcases makesUp fails with ⟨holds, -⟩ | ⟨-, others, -⟩
    · rw [openNegation] at holds
      cases holds
    · exact others m listed
  obtain ⟨literals, origin⟩ := c
  match literals with
  | [] => cases inside
  | [only] =>
    obtain rfl := List.mem_singleton.mp inside
    exact absurd List.mem_cons_self fresh
  | first :: second :: rest =>
    obtain ⟨forward, backward⟩ := watched.pairs i first second rest origin living
    simp only [Clause.watched, List.take_succ_cons, List.take_zero, List.mem_cons,
      List.not_mem_nil, or_false, not_or] at watching member fresh
    have listed : m ∈ rest := by simpa [fresh] using inside
    rcases watching with rfl | rfl
    · obtain rfl := member.resolve_left different
      exact left rest backward listed
    · obtain rfl := member.resolve_right different
      exact left rest forward listed

/-- When a watch moves, the other one is not false. The literal is assigned in a state
with the same clauses and values, perhaps at a newly opened level. -/
theorem Watched.not_false_of_rewatched (watched : s.Watched) (store : t.store = s.store)
    (values : t.trail.value? = s.trail.value?) (consistent : t.store.Consistent n)
    (declared : l.var < t.trail.assignment.numVariables) (open_ : t.trail.value? l = none)
    (turn : t.Reconsiders l antecedent i c (.rewatched r)) (member : o ∈ c.watched)
    (different : o ≠ l.negate) : (t.trail.push l antecedent).value? o ≠ some false := by
  intro fails
  obtain ⟨living, watching, c', -, inside, fresh, notFalse⟩ := turn.clause consistent
  have free : t.trail.assignment.find? l.var = none := Trail.value?_eq_none_iff.mp open_
  have before : t.trail.value? o = some false := by
    rw [← fails]
    refine (Trail.value?_push_of_var_ne declared fun vars => ?_).symm
    rcases Literal.eq_or_eq_negate vars with rfl | opposite
    · rw [Trail.value?_push_self free declared] at fails
      cases fails
    · exact different opposite
  rw [store] at living
  rw [values] at open_ before
  have known := watched.all_false open_ living watching member different before r inside fresh
  rw [← values] at known
  exact notFalse (Trail.value?_push_of_eq_some free declared known)

end State

/-- A run assigns this literal in this state: the next assumption, a decision at the
level opened for it, or the first open literal of the queue. Counters do not matter. -/
inductive Assigns (f : Formula) (o : Options) (assumed : List Literal) :
    State → Literal → Prop where
  | assumption (loaded : State.ofFormula f o = .ok s) (nonempty : s.hasEmptyClause = false)
      (next : before ++ [l] <+: assumed)
      (held : { s with assumptions := before }.assume = .ok (.held, t))
      (open_ : t.trail.value? l = none) : Assigns f o assumed t l
  | decision (counted : Statistics) (reached : Reachable f o assumed .deciding s)
      (open_ : s.Open l) :
      Assigns f o assumed { s with trail := s.trail.openLevel, statistics := counted } l
  | unit (counted : Statistics) (occurs : Occurs f o assumed .propagating s)
      (asked : State.nextUnit s.trail.value? s.queue = .assign i l rest) :
      Assigns f o assumed { s with queue := rest, statistics := counted } l

variable {f : Formula} {o : Options} {numbers : List Int} {assumed : List Literal} {s t : State}
  {phase : Phase}

theorem RunInvariant.watched (invariant : RunInvariant f assumed phase s)
    (calm : phase.isCalm = true) : s.Watched :=
  (invariant.quiet calm).watched invariant.coherent

/-- A literal is assigned where the watches are in order, and it is open there. -/
theorem Assigns.watched (assigns : Assigns f o assumed t l)
    (declared : ∀ l ∈ assumed, l.var < f.numVariables) :
    ∃ s : State, s.Watched ∧ t.store = s.store ∧ t.trail.value? = s.trail.value? ∧
      t.store.Consistent t.numVariables ∧ l.var < t.trail.assignment.numVariables ∧
      t.trail.value? l = none := by
  cases assigns with
  | assumption loaded nonempty next held open_ =>
    have occurs : Occurs f o assumed .propagating t :=
      .assuming loaded nonempty ((List.prefix_append _ _).trans next) held
    have invariant := occurs.invariant declared
    refine ⟨t, invariant.watched rfl, rfl, rfl, invariant.coherent.store, ?_, open_⟩
    rw [invariant.coherent.declared, invariant.numVariables]
    exact declared l (next.subset (by simp))
  | @decision s _ counted reached open_ =>
    have invariant := (Occurs.turn reached).invariant declared
    refine ⟨s, invariant.watched rfl, rfl, rfl, invariant.coherent.store, ?_, open_.2⟩
    exact invariant.coherent.declared.symm ▸ open_.1
  | @unit s i l rest counted occurs asked =>
    have invariant := occurs.invariant declared
    obtain ⟨⟨c, living, inside, -⟩, open_⟩ := (invariant.quiet rfl).implies_of_asked asked
    refine ⟨s, invariant.watched rfl, rfl, rfl, invariant.coherent.store, ?_, open_⟩
    rw [invariant.coherent.declared]
    exact (invariant.coherent.store.proper i c living).declared l inside

/-- In every state of a run without a pending conflict a false watched literal is made
up for, and when assigning a literal moves a watch, the other one is not false. -/
theorem false_watch_is_made_up_for
    (accepted : numbers.mapM (Solver.assumption f.numVariables) = .ok assumed) :
    (∀ phase s, Occurs f o assumed phase s → phase.isCalm = true → s.Watched) ∧
    ∀ s l, Assigns f o assumed s l → ∀ antecedent i c r,
      s.Reconsiders l antecedent i c (.rewatched r) →
      ∀ other ∈ c.watched, other ≠ l.negate →
        (s.trail.push l antecedent).value? other ≠ some false := by
  have declared := Solver.declared_of_accepted accepted
  refine ⟨fun phase s occurs calm => (occurs.invariant declared).watched calm, ?_⟩
  intro s l assigns antecedent i c r turn other member different
  obtain ⟨s', watched, store, values, consistent, declared', open_⟩ := assigns.watched declared
  exact watched.not_false_of_rewatched store values consistent declared' open_ turn member different

/-- The first decision moves a watch away from its negation; the second one makes the
new pair of watches false and open, and the clause waits with the open one. -/
theorem false_watch_is_made_up_for_exclusive :
    [4].mapM (Solver.assumption exclusive.numVariables) = .ok [⟨3, true⟩] ∧
    (∃ s, Occurs exclusive {} [⟨3, true⟩] .propagating s ∧ s.Watched ∧
      s.store.clause? 0 = some ⟨[⟨2, true⟩, ⟨1, false⟩, ⟨0, false⟩], .input⟩ ∧
      s.trail.value? ⟨1, false⟩ = some false ∧ (0, ⟨2, true⟩) ∈ s.queue) ∧
    ∃ s c, Assigns exclusive {} [⟨3, true⟩] s ⟨0, true⟩ ∧
      s.Reconsiders ⟨0, true⟩ none 0 c (.rewatched ⟨2, true⟩) ∧
      ∀ other ∈ c.watched, other ≠ ⟨0, false⟩ →
        (s.trail.push ⟨0, true⟩ none).value? other ≠ some false := by
  refine ⟨exclusive_accepted, ?_, ?_⟩
  · obtain ⟨phase, s, reached, shown⟩ := exists_exclusive
      (p := fun phase s => phase = .propagating ∧
        s.store.clause? 0 = some ⟨[⟨2, true⟩, ⟨1, false⟩, ⟨0, false⟩], .input⟩ ∧
        s.trail.value? ⟨1, false⟩ = some false ∧ (0, ⟨2, true⟩) ∈ s.queue)
      4 (by decide +kernel)
    obtain ⟨rfl, facts⟩ := of_decide_eq_true shown
    exact ⟨s, .turn reached,
      (false_watch_is_made_up_for exclusive_accepted).1 .propagating s (.turn reached) rfl, facts⟩
  · obtain ⟨phase, s, reached, shown⟩ := exists_exclusive
      (p := fun phase s => phase = .deciding ∧ s.Open ⟨0, true⟩ ∧
        s.store.watchers.of ⟨0, false⟩ = [0, 1] ∧
        s.store.clause? 0 = some ⟨[⟨0, false⟩, ⟨1, false⟩, ⟨2, true⟩], .input⟩ ∧
        Clause.reconsider (s.trail.openLevel.push ⟨0, true⟩ none).value? ⟨0, false⟩
            ⟨[⟨0, false⟩, ⟨1, false⟩, ⟨2, true⟩], .input⟩
          = some (.rewatched ⟨2, true⟩, ⟨[⟨1, false⟩, ⟨2, true⟩, ⟨0, false⟩], .input⟩))
      1 (by decide +kernel)
    obtain ⟨rfl, open_, waiting, living, reconsidered⟩ := of_decide_eq_true shown
    have assigns := Assigns.decision s.statistics reached open_
    have turn : State.Reconsiders { s with trail := s.trail.openLevel } ⟨0, true⟩ none 0
        ⟨[⟨0, false⟩, ⟨1, false⟩, ⟨2, true⟩], .input⟩ (.rewatched ⟨2, true⟩) :=
      ⟨[], [1], ⟨_, [], [], .consistent⟩, _, waiting, rfl, rfl, living, reconsidered⟩
    exact ⟨_, _, assigns, turn,
      (false_watch_is_made_up_for exclusive_accepted).2 _ _ assigns none 0 _ ⟨2, true⟩ turn⟩

end ClauseLearning
