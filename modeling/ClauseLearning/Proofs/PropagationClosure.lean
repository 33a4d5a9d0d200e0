import ClauseLearning.Proofs.RunStates
import ClauseLearning.Proofs.TrailPositions

/-! Propagation computes a closure. The literals on the trail and in the queue have a
least closure under the unit rule over all living clauses, whatever is watched. If it
falsifies no clause and contradicts itself nowhere, propagation ends with exactly its
literals on the trail; otherwise it ends at a falsified clause. So the order of the
queue and of the watch lists does not matter. -/
namespace ClauseLearning

/-- What follows from known literals by the unit rule: if all literals of a clause but
one are negated, that one follows. -/
inductive UnitClosure (clauses : List Literal → Prop) (known : Literal → Prop) :
    Literal → Prop where
  | base (given : known l) : UnitClosure clauses known l
  | unit (clause : clauses c) (member : l ∈ c)
      (others : ∀ m ∈ c, m ≠ l → UnitClosure clauses known m.negate) : UnitClosure clauses known l

/-- The unit rule does not lead out of this set of literals. -/
def ClosedUnder (clauses : List Literal → Prop) (P : Literal → Prop) : Prop :=
  ∀ c, clauses c → ∀ l ∈ c, (∀ m ∈ c, m ≠ l → P m.negate) → P l

/-- The closure is the least set that is closed and contains the known literals. -/
theorem UnitClosure.least {P : Literal → Prop} (follows : UnitClosure clauses known l)
    (contained : ∀ m, known m → P m) (closed : ClosedUnder clauses P) : P l := by
  induction follows with
  | base given => exact contained _ given
  | unit clause member _ ih => exact closed _ clause _ member ih

theorem UnitClosure.closed (clauses : List Literal → Prop) (known : Literal → Prop) :
    ClosedUnder clauses (UnitClosure clauses known) :=
  fun _ clause _ member others => .unit clause member others

namespace State

/-- A clause with these literals lives in the state. -/
def Living (s : State) (literals : List Literal) : Prop :=
  ∃ i c, s.store.clause? i = some c ∧ c.literals = literals

/-- The literal is on the trail or waits in the queue. -/
def Given (s : State) (l : Literal) : Prop :=
  l ∈ s.trail.literals ∨ ∃ i, (i, l) ∈ s.queue

/-- The closure of trail and queue under the unit rule. -/
def Closure (s : State) : Literal → Prop :=
  UnitClosure s.Living s.Given

/-- The closure falsifies no clause and has no literal together with its negation. -/
structure Harmonious (s : State) : Prop where
  unfalsified : ∀ c, s.Living c → ¬ ∀ m ∈ c, s.Closure m.negate
  uncontradicted : ∀ l, s.Closure l → ¬ s.Closure l.negate

/-- Propagation from the one state may end with this answer in the other. -/
structure Completes (s : State) (status : Status) (t : State) : Prop where
  closure : s.Harmonious →
    status = .consistent ∧ t.queue = [] ∧ ∀ l, l ∈ t.trail.literals ↔ s.Closure l
  conflict : ¬ s.Harmonious → ∃ i c, status = .conflict i ∧ t.store.clause? i = some c ∧
    (∀ m ∈ c.literals, t.trail.value? m = some false) ∧
    ∃ m ∈ c.literals, t.trail.level? m = some t.level

/-- The states differ in the order of the queue and of the watch lists only. -/
structure Reordered (s t : State) : Prop where
  numVariables : t.numVariables = s.numVariables
  trail : t.trail = s.trail
  slots : t.store.slots = s.store.slots
  free : t.store.free = s.store.free
  learned : t.store.learned = s.store.learned
  queue : s.queue.Perm t.queue
  sized : t.store.watchers.lists.size = s.store.watchers.lists.size
  watchers : ∀ l, (s.store.watchers.of l).Perm (t.store.watchers.of l)

variable {s t : State} {l : Literal} {P : Literal → Prop}

/-! ## Nothing but the closure is assigned -/

theorem newestFirst_assign {antecedent : Option Nat}
    (ran : s.assign l antecedent = .ok (status, t)) :
    t.trail.newestFirst = l :: s.trail.newestFirst := by
  unfold assign at ran
  split at ran
  · cases ran
  · split at ran
    · cases ran
    · simp only at ran
      split at ran
      · cases ran
      · cases ran
        exact Trail.newestFirst_push _ _ _

theorem newestFirst_assignUnit (ran : s.assignUnit i l = .ok (status, t)) :
    t.trail.newestFirst = l :: s.trail.newestFirst := by
  unfold assignUnit at ran
  cases found : s.store.get i with
  | error fault =>
    rw [found] at ran
    cases ran
  | ok clause =>
    rw [found] at ran
    have grown := newestFirst_assign ran
    exact grown

/-- Whether a set is closed does not depend on the order of the literals in clauses. -/
theorem closedUnder_of_rearranged (same : ClauseStore.Rearranged s.store t.store)
    (closed : ClosedUnder s.Living P) : ClosedUnder t.Living P := by
  rintro _ ⟨i, c', living', rfl⟩ l member others
  obtain ⟨c, living, rearranged⟩ := same.backward living'
  apply closed c.literals ⟨i, c, living, rfl⟩ l (rearranged.mem_iff.mpr member)
  exact fun m inside different => others m (rearranged.mem_iff.mp inside) different

/-- What a clause implies is in every closed set that contains the trail. -/
theorem Implies.mem_closed (implies : s.Implies i l) (coherent : s.Coherent)
    (closed : ClosedUnder s.Living P) (contained : ∀ m ∈ s.trail.literals, P m) : P l := by
  obtain ⟨c, living, member, others⟩ := implies
  apply closed c.literals ⟨i, c, living, rfl⟩ l member
  intro m inside different
  apply contained
  rw [coherent.trail.mem_literals_iff_value?, Trail.value?_negate, others m inside different]
  rfl

/-- Assigning the next waiting literal stays in every closed set that contains the trail. -/
theorem assignUnit_mem_closed (coherent : s.Coherent) (quiet : s.Quiet)
    (closed : ClosedUnder s.Living P) (contained : ∀ m ∈ s.trail.literals, P m)
    (asked : nextUnit s.trail.value? s.queue = .assign i l rest)
    (ran : { s with queue := rest }.assignUnit i l = .ok (status, t)) :
    ∀ m ∈ t.trail.literals, P m := by
  obtain ⟨implies, -⟩ := quiet.implies_of_asked asked
  intro m member
  rw [Trail.mem_literals_iff, newestFirst_assignUnit ran] at member
  rcases List.mem_cons.mp member with rfl | before
  · exact implies.mem_closed coherent closed contained
  · exact contained m ((Trail.mem_literals_iff s.trail m).mpr before)

/-- So does propagation as a whole, whichever way it ends. -/
theorem propagate_mem_closed (s : State) (coherent : s.Coherent) (quiet : s.Quiet)
    (layered : s.trail.Layered) (closed : ClosedUnder s.Living P)
    (contained : ∀ m ∈ s.trail.literals, P m) (ran : s.propagate = .ok (status, t)) :
    ∀ m ∈ t.trail.literals, P m := by
  fun_induction propagate s with
  | case1 s asked =>
    cases ran
    exact contained
  | case2 s index rest asked =>
    cases ran
    exact contained
  | case3 s index l rest asked fault broken => cases ran
  | case4 s index l rest asked clause s' stopped =>
    cases ran
    exact assignUnit_mem_closed coherent quiet closed contained asked stopped
  | case5 s index l rest asked s' assigned ih =>
    obtain ⟨status, u, ran', extended, settled, -⟩ := assignUnit_spec coherent quiet layered asked
    rw [assigned] at ran'
    cases ran'
    apply ih settled.coherent (settled.quiet rfl) settled.layered
    · exact closedUnder_of_rearranged extended.rearranged closed
    · exact assignUnit_mem_closed coherent quiet closed contained asked assigned
    · exact ran

/-! ## All of the closure is assigned -/

theorem Coherent.value?_of_negate_mem (coherent : s.Coherent)
    (member : l.negate ∈ s.trail.literals) : s.trail.value? l = some false := by
  obtain ⟨k, fails⟩ := Trail.value?_eq_true_iff.mp
    (coherent.trail.mem_literals_iff_value?.mp member)
  exact Trail.value?_of_false_at fails

/-- When nothing waits, a clause with all literals but one false has that one true. -/
theorem Quiet.saturated (quiet : s.Quiet) (coherent : s.Coherent) (empty : s.queue = [])
    (implies : s.Implies i l) : s.trail.value? l = some true := by
  obtain ⟨c, living, member, others⟩ := implies
  rcases (coherent.store.proper i c living).eq_singleton_or_watches member with
    single | ⟨w, watched, different⟩
  · rcases quiet.fact_or_queued coherent living single with fact | queued
    · exact Trail.value?_of_true_at fact
    · rw [empty] at queued
      cases queued
  · obtain ⟨k, fails⟩ := Trail.value?_eq_false_iff.mp
      (others w (Clause.mem_of_mem_watched watched) different)
    obtain ⟨o, other, j, -, holds⟩ :=
      quiet.exists_true_watch coherent empty living watched fails
    have known := Trail.value?_of_true_at holds
    by_cases same : o = l
    · exact same ▸ known
    · rw [others o (Clause.mem_of_mem_watched other) same] at known
      cases known

/-- When nothing waits, no clause is falsified. -/
theorem Quiet.not_falsified (quiet : s.Quiet) (coherent : s.Coherent) (empty : s.queue = []) :
    ¬ s.Falsified i := by
  rintro ⟨c, living, all⟩
  obtain ⟨l, rest, shape⟩ := List.exists_cons_of_ne_nil (coherent.store.proper i c living).ne_nil
  have member : l ∈ c.literals := by simp [shape]
  have holds := quiet.saturated coherent empty ⟨c, living, member, fun m inside _ => all m inside⟩
  rw [all l member] at holds
  cases holds

/-- When nothing waits, the trail is closed under the unit rule. -/
theorem Quiet.closedUnder (quiet : s.Quiet) (coherent : s.Coherent) (empty : s.queue = []) :
    ClosedUnder s.Living (· ∈ s.trail.literals) := by
  rintro _ ⟨i, c, living, rfl⟩ l member others
  rw [coherent.trail.mem_literals_iff_value?]
  apply quiet.saturated coherent empty ⟨c, living, member, fun m inside different => ?_⟩
  exact coherent.value?_of_negate_mem (others m inside different)

/-- A literal that was on the trail or in the queue is true once nothing waits. -/
theorem Extends.mem_of_given (extended : s.Extends t) (coherent : s.Coherent) (quiet : s.Quiet)
    (coherent' : t.Coherent) (quiet' : t.Quiet) (empty : t.queue = []) (given : s.Given l) :
    l ∈ t.trail.literals := by
  have kept : ∀ m, s.trail.value? m = some true → t.trail.value? m = some true := by
    intro m known
    obtain ⟨k, holds⟩ := Trail.value?_eq_true_iff.mp known
    exact Trail.value?_of_true_at (extended.true_at coherent.trail coherent'.trail holds)
  rw [coherent'.trail.mem_literals_iff_value?]
  rcases given with onTrail | ⟨i, queued⟩
  · exact kept l (coherent.trail.mem_literals_iff_value?.mp onTrail)
  · obtain ⟨c, living, member, others⟩ := quiet.queued i l queued
    obtain ⟨c', living', same⟩ := extended.rearranged.forward living
    apply quiet'.saturated coherent' empty (i := i)
    refine ⟨c', living', same.mem_iff.mp member, fun m inside different => ?_⟩
    have fails := others m (same.mem_iff.mpr inside) different
    obtain ⟨k, fails⟩ := Trail.value?_eq_false_iff.mp fails
    exact Trail.value?_of_false_at (extended.true_at coherent.trail coherent'.trail fails)

/-! ## Both answers -/

/-- Once nothing waits, the trail is the closure, if it is within it. -/
theorem Extends.mem_iff_closure (extended : s.Extends t) (coherent : s.Coherent) (quiet : s.Quiet)
    (coherent' : t.Coherent) (quiet' : t.Quiet) (empty : t.queue = [])
    (within : ∀ l ∈ t.trail.literals, s.Closure l) (l : Literal) :
    l ∈ t.trail.literals ↔ s.Closure l := by
  have closed : ClosedUnder s.Living (· ∈ t.trail.literals) :=
    closedUnder_of_rearranged extended.rearranged.symm (quiet'.closedUnder coherent' empty)
  refine ⟨within l, fun follows => follows.least (fun m given => ?_) closed⟩
  exact extended.mem_of_given coherent quiet coherent' quiet' empty given

/-- A closure that is the trail of a state where nothing waits has no conflict. -/
theorem Extends.harmonious (extended : s.Extends t) (coherent : t.Coherent) (quiet : t.Quiet)
    (empty : t.queue = []) (same : ∀ l, l ∈ t.trail.literals ↔ s.Closure l) : s.Harmonious where
  unfalsified := by
    rintro _ ⟨i, c, living, rfl⟩ all
    obtain ⟨c', living', rearranged⟩ := extended.rearranged.forward living
    refine quiet.not_falsified coherent empty ⟨c', living', fun m member => ?_⟩
    have negated := (same m.negate).mpr (all m (rearranged.mem_iff.mpr member))
    exact coherent.value?_of_negate_mem negated
  uncontradicted := by
    intro l follows opposite
    have holds := coherent.trail.mem_literals_iff_value?.mp ((same l).mpr follows)
    rw [coherent.value?_of_negate_mem ((same l.negate).mpr opposite)] at holds
    cases holds

/-- A clause falsified by literals of the closure is falsified by the closure. -/
theorem Falsified.not_harmonious (falsified : t.Falsified i) (extended : s.Extends t)
    (coherent : t.Coherent) (within : ∀ l ∈ t.trail.literals, s.Closure l) : ¬ s.Harmonious := by
  intro harmonious
  obtain ⟨c', living', all⟩ := falsified
  obtain ⟨c, living, rearranged⟩ := extended.rearranged.backward living'
  refine harmonious.unfalsified c.literals ⟨i, c, living, rfl⟩ fun m member => within _ ?_
  rw [coherent.trail.mem_literals_iff_value?, Trail.value?_negate,
    all m (rearranged.mem_iff.mp member)]
  rfl

/-- Propagation succeeds and ends as the closure demands. -/
theorem propagate_completes (coherent : s.Coherent) (quiet : s.Quiet) (layered : s.trail.Layered) :
    ∃ status t, s.propagate = .ok (status, t) ∧ s.Completes status t := by
  obtain ⟨status, t, ran, extended, settled, -, emptied, -⟩ :=
    propagate_spec s coherent quiet layered
  have within : ∀ l ∈ t.trail.literals, s.Closure l :=
    propagate_mem_closed s coherent quiet layered (UnitClosure.closed _ _)
      (fun m onTrail => .base (.inl onTrail)) ran
  refine ⟨status, t, ran, ?_⟩
  cases status with
  | consistent =>
    have quiet' := settled.quiet rfl
    have empty := emptied rfl
    have same := extended.mem_iff_closure coherent quiet settled.coherent quiet' empty within
    have harmonious := extended.harmonious settled.coherent quiet' empty same
    exact ⟨fun _ => ⟨rfl, empty, same⟩, fun clash => absurd harmonious clash⟩
  | conflict i =>
    have falsified := settled.falsified i rfl
    have clash := falsified.not_harmonious extended settled.coherent within
    obtain ⟨c, living, all, m, inside, current⟩ := falsified.current settled.coherent
    exact ⟨fun harmonious => absurd harmonious clash, fun _ =>
      ⟨i, c, rfl, living, all, m, inside, Trail.level?_of_false_at current⟩⟩

/-! ## Other orders -/

theorem Reordered.symm (reordered : s.Reordered t) : t.Reordered s where
  numVariables := reordered.numVariables.symm
  trail := reordered.trail.symm
  slots := reordered.slots.symm
  free := reordered.free.symm
  learned := reordered.learned.symm
  queue := reordered.queue.symm
  sized := reordered.sized.symm
  watchers := fun l => (reordered.watchers l).symm

theorem Reordered.clause?_eq (reordered : s.Reordered t) (i : Nat) :
    t.store.clause? i = s.store.clause? i := by
  rw [ClauseStore.clause?, reordered.slots]
  rfl

theorem Reordered.level (reordered : s.Reordered t) : t.level = s.level := by
  rw [State.level, reordered.trail]
  rfl

/-- The order of the lists matters neither to the store nor to what was recorded. -/
theorem Reordered.coherent (reordered : s.Reordered t) (coherent : s.Coherent) : t.Coherent where
  declared := by
    rw [reordered.trail, reordered.numVariables]
    exact coherent.declared
  trail := by
    rw [reordered.trail]
    exact coherent.trail
  store := {
    storable := by
      simp only [reordered.clause?_eq, reordered.numVariables]
      exact coherent.store.storable
    proper := by
      simp only [reordered.clause?_eq, reordered.numVariables]
      exact coherent.store.proper
    spare := by
      simp only [reordered.clause?_eq, reordered.free, reordered.slots]
      exact coherent.store.spare
    spareOnce := by
      rw [reordered.free]
      exact coherent.store.spareOnce
    sized := by
      rw [reordered.sized, reordered.numVariables]
      exact coherent.store.sized
    listed := by
      intro m i
      rw [← (reordered.watchers m).mem_iff, reordered.clause?_eq]
      exact coherent.store.listed m i
    listedOnce := fun m => (reordered.watchers m).nodup_iff.mp (coherent.store.listedOnce m)
    learned := by
      simp only [reordered.clause?_eq, reordered.learned]
      exact coherent.store.learned
    learnedOnce := by
      rw [reordered.learned]
      exact coherent.store.learnedOnce }
  explained := by
    simp only [Explained, reordered.clause?_eq, reordered.trail]
    exact coherent.explained
  guarded := by
    simp only [Guarded, reordered.clause?_eq, reordered.trail, reordered.level]
    exact coherent.guarded
  facts := by
    simp only [reordered.clause?_eq, reordered.trail, reordered.level]
    exact coherent.facts

theorem Reordered.quiet (reordered : s.Reordered t) (quiet : s.Quiet) : t.Quiet where
  attended := by
    simp only [Attended, reordered.clause?_eq, reordered.trail, reordered.level,
      ← reordered.queue.mem_iff]
    exact quiet.attended
  units := by
    simp only [reordered.clause?_eq, reordered.trail, reordered.level, ← reordered.queue.mem_iff]
    exact quiet.units
  queued := by
    simp only [Implies, reordered.clause?_eq, reordered.trail, ← reordered.queue.mem_iff]
    exact quiet.queued

theorem Reordered.closure_iff (reordered : s.Reordered t) : t.Closure l ↔ s.Closure l := by
  have living : t.Living = s.Living := by
    funext c
    simp [Living, reordered.clause?_eq]
  have given : t.Given = s.Given := by
    funext m
    simp [Given, reordered.trail, reordered.queue.mem_iff]
  unfold Closure
  rw [living, given]

theorem Reordered.harmonious (reordered : s.Reordered t) (harmonious : s.Harmonious) :
    t.Harmonious where
  unfalsified := by
    rintro _ ⟨i, c, living, rfl⟩ all
    rw [reordered.clause?_eq] at living
    exact harmonious.unfalsified c.literals ⟨i, c, living, rfl⟩ fun m member =>
      reordered.closure_iff.mp (all m member)
  uncontradicted := fun l follows opposite =>
    harmonious.uncontradicted l (reordered.closure_iff.mp follows)
      (reordered.closure_iff.mp opposite)

/-- Propagation from the reordered state has an answer of the same kind, and a
consistent one comes with the same literals. -/
theorem Completes.reordered (completes : s.Completes status u) (reordered : s.Reordered t)
    (completes' : t.Completes status' u') : (status' = .consistent ↔ status = .consistent) ∧
      (status = .consistent → ∀ l, l ∈ u'.trail.literals ↔ l ∈ u.trail.literals) := by
  by_cases harmonious : s.Harmonious
  · obtain ⟨rfl, -, same⟩ := completes.closure harmonious
    obtain ⟨rfl, -, same'⟩ := completes'.closure (reordered.harmonious harmonious)
    refine ⟨Iff.rfl, fun _ l => ?_⟩
    rw [same, same', reordered.closure_iff]
  · obtain ⟨i, -, rfl, -⟩ := completes.conflict harmonious
    obtain ⟨j, -, rfl, -⟩ :=
      completes'.conflict fun harmonious' => harmonious (reordered.symm.harmonious harmonious')
    exact ⟨by simp, nofun⟩

end State

variable {f : Formula} {o : Options} {numbers : List Int} {assumed : List Literal}

/-- Wherever a run propagates, it ends with exactly the closure on the trail and an
empty queue, or, if the closure has a conflict, at a clause falsified at the current
level. The order of the queue and of the watch lists changes neither the answer nor
the literals. -/
theorem propagation_computes_closure
    (accepted : numbers.mapM (Solver.assumption f.numVariables) = .ok assumed) :
    ∀ s, Reachable f o assumed .propagating s →
      ∃ status t, s.propagate = .ok (status, t) ∧ s.Completes status t ∧
        ∀ s', s.Reordered s' → ∃ status' t', s'.propagate = .ok (status', t') ∧
          (status' = .consistent ↔ status = .consistent) ∧
          (status = .consistent → ∀ l, l ∈ t'.trail.literals ↔ l ∈ t.trail.literals) := by
  intro s reached
  obtain ⟨⟨coherent, layered, quiet⟩, -, -⟩ :=
    reached.invariant (Solver.declared_of_accepted accepted)
  obtain ⟨status, t, ran, completes⟩ := State.propagate_completes coherent quiet layered
  refine ⟨status, t, ran, completes, fun s' reordered => ?_⟩
  have layered' : s'.trail.Layered := by
    rw [reordered.trail]
    exact layered
  obtain ⟨status', t', ran', completes'⟩ :=
    State.propagate_completes (reordered.coherent coherent) (reordered.quiet quiet) layered'
  exact ⟨status', t', ran', completes.reordered reordered completes'⟩

/-- After the second decision a literal waits together with its negation: propagation
meets a conflict, also with the queue turned around. After the backjump the learned
clause completes the closure. -/
theorem propagation_computes_closure_exclusive :
    [4].mapM (Solver.assumption exclusive.numVariables) = .ok [⟨3, true⟩] ∧
    (∃ s i t status' t', Reachable exclusive {} [⟨3, true⟩] .propagating s ∧
      s.queue = [(0, ⟨2, true⟩), (1, ⟨2, false⟩)] ∧ s.propagate = .ok (.conflict i, t) ∧
      { s with queue := s.queue.reverse }.propagate = .ok (status', t') ∧
      status' ≠ .consistent) ∧
    ∃ s, Reachable exclusive {} [⟨3, true⟩] .propagating s ∧
      s.trail.literals = [⟨3, true⟩, ⟨0, true⟩] ∧
      ∀ l, s.Closure l ↔ l ∈ [⟨3, true⟩, ⟨0, true⟩, ⟨1, false⟩] := by
  refine ⟨exclusive_accepted, ?_, ?_⟩
  · obtain ⟨phase, s, reached, shown⟩ := exists_exclusive
      (p := fun phase s => phase = .propagating ∧
        s.queue = [(0, ⟨2, true⟩), (1, ⟨2, false⟩)])
      4 (by decide +kernel)
    obtain ⟨rfl, queue⟩ := of_decide_eq_true shown
    have clash : ¬ s.Harmonious := by
      intro harmonious
      apply harmonious.uncontradicted ⟨2, true⟩
      · exact .base (.inr ⟨0, by simp [queue]⟩)
      · exact .base (.inr ⟨1, by simp [queue, Literal.negate]⟩)
    have reordered : s.Reordered { s with queue := s.queue.reverse } :=
      ⟨rfl, rfl, rfl, rfl, rfl, (List.reverse_perm _).symm, rfl, fun _ => .refl _⟩
    obtain ⟨status, t, ran, completes, others⟩ :=
      propagation_computes_closure exclusive_accepted s reached
    obtain ⟨status', t', ran', same, -⟩ := others _ reordered
    obtain ⟨i, c, rfl, -⟩ := completes.conflict clash
    exact ⟨s, i, t, status', t', reached, queue, ran, ran', by simp [same]⟩
  · obtain ⟨phase, s, reached, shown⟩ := exists_exclusive
      (p := fun phase s => phase = .propagating ∧
        s.trail.literals = [⟨3, true⟩, ⟨0, true⟩] ∧
        (s.propagate.toOption.map fun ended => (ended.1, ended.2.trail.literals))
          = some (.consistent, [⟨3, true⟩, ⟨0, true⟩, ⟨1, false⟩]))
      7 (by decide +kernel)
    obtain ⟨rfl, trail, ends⟩ := of_decide_eq_true shown
    obtain ⟨status, t, ran, completes, -⟩ :=
      propagation_computes_closure exclusive_accepted s reached
    rw [ran] at ends
    obtain ⟨rfl, literals⟩ : status = .consistent ∧
        t.trail.literals = [⟨3, true⟩, ⟨0, true⟩, ⟨1, false⟩] := by
      simpa [Except.toOption] using ends
    have harmonious : s.Harmonious := by
      by_contra clash
      obtain ⟨i, c, stopped, -⟩ := completes.conflict clash
      cases stopped
    obtain ⟨-, -, same⟩ := completes.closure harmonious
    exact ⟨s, reached, trail, fun l => by rw [← same, literals]⟩

end ClauseLearning
