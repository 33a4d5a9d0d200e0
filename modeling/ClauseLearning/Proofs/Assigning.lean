import ClauseLearning.Logic.Semantics
import ClauseLearning.Proofs.TrailSnapshots
import ClauseLearning.Proofs.Visiting

/-! The invariant of the search between its steps, and that assigning a literal
keeps it. The heart is the rule for watches: a false watched literal is made up
for by the other watch, which is true since no later a level. At the current
level a clause may instead wait in the queue with its one open literal. -/
namespace ClauseLearning

namespace State

/-- Every literal of the clause at this index is false. -/
def Falsified (s : State) (i : Nat) : Prop :=
  ∃ c, s.store.clause? i = some c ∧ ∀ m ∈ c.literals, s.trail.value? m = some false

/-- The literal is in the clause at this index and all others there are false. -/
def Implies (s : State) (i : Nat) (l : Literal) : Prop :=
  ∃ c, s.store.clause? i = some c ∧ l ∈ c.literals ∧
    ∀ m ∈ c.literals, m ≠ l → s.trail.value? m = some false

/-- A literal with an antecedent is implied by it: the antecedent lives, and its
other literals became false before. Above level 0 one of them did at the same
level, so that no literal sits higher than it must. -/
def Explained (s : State) : Prop :=
  ∀ newer l older index, s.trail.newestFirst = newer ++ l :: older →
    s.trail.reason l = some index →
    ∃ c, s.store.clause? index = some c ∧ l ∈ c.literals ∧
      (∀ m ∈ c.literals, m ≠ l → m.negate ∈ older) ∧
      ∀ k, 0 < k → s.trail.TrueAt l k → ∃ m ∈ c.literals, m ≠ l ∧ s.trail.TrueAt m.negate k

/-- A watched literal that is false below the current level leaves the clause
satisfied: the other watch is true since that level or an earlier one. -/
def Guarded (s : State) : Prop :=
  ∀ i c w k, s.store.clause? i = some c → w ∈ c.watched → s.trail.TrueAt w.negate k →
    k < s.level → ∃ o ∈ c.watched, ∃ j, j ≤ k ∧ s.trail.TrueAt o j

/-- A watched literal that is false at the current level is made up for by a
true watch, or the clause waits in the queue with the other watch. -/
def Attended (s : State) : Prop :=
  ∀ i c w, s.store.clause? i = some c → w ∈ c.watched → s.trail.TrueAt w.negate s.level →
    (∃ o ∈ c.watched, s.trail.value? o = some true) ∨
    ∃ o ∈ c.watched, (i, o) ∈ s.queue ∧ s.trail.value? o = none ∧
      ∀ m ∈ c.literals, m ≠ o → s.trail.value? m = some false

/-- The clause at this index may be recorded as what implied the literal. -/
def Justifies (s : State) (index : Nat) (l : Literal) : Prop :=
  ∃ c, s.store.clause? index = some c ∧ l ∈ c.literals ∧
    (∀ m ∈ c.literals, m ≠ l → s.trail.value? m = some false) ∧
    (0 < s.level → ∃ m ∈ c.literals, m ≠ l ∧ s.trail.TrueAt m.negate s.level)

/-- A valuation under which all clauses and all literals of level 0 hold. -/
def Admits (s : State) (v : Valuation) : Prop :=
  (∀ i c, s.store.clause? i = some c → ClauseHolds v c.literals) ∧
    ∀ l, s.trail.TrueAt l 0 → l.Holds v

/-- What holds at every step of a search, with a conflict pending or not. -/
structure Coherent (s : State) : Prop where
  declared : s.trail.assignment.numVariables = s.numVariables
  trail : s.trail.Coherent
  store : s.store.Consistent s.numVariables
  explained : s.Explained
  guarded : s.Guarded
  facts : 0 < s.level → ∀ i c l, s.store.clause? i = some c → c.literals = [l] →
    s.trail.TrueAt l 0

/-- What holds besides while no conflict is pending. -/
structure Quiet (s : State) : Prop where
  attended : s.Attended
  units : s.level = 0 → ∀ i c l, s.store.clause? i = some c → c.literals = [l] →
    s.trail.TrueAt l 0 ∨ (i, l) ∈ s.queue
  queued : ∀ i l, (i, l) ∈ s.queue → s.Implies i l

variable {s t : State} {value : Literal → Option Bool} {old l : Literal}

/-! ## Clauses after a visit -/

theorem Fate.watched_of_ne (fate : Fate value old v i c c') (member : o ∈ c.watched)
    (different : o ≠ old) : o ∈ c'.watched := by
  rcases fate with ⟨rfl, -⟩ | ⟨outcome, decided, -⟩
  · exact member
  · cases outcome with
    | rewatched r => exact (decided.1 o).mpr (.inr ⟨member, different⟩)
    | satisfied => exact (decided.1 o).mpr member
    | implied u => exact (decided.1 o).mpr member
    | falsified => exact (decided.1 o).mpr member

theorem Fate.watched_or (fate : Fate value old v i c c') (member : w ∈ c'.watched) :
    w ∈ c.watched ∨ value w ≠ some false := by
  rcases fate with ⟨rfl, -⟩ | ⟨outcome, decided, -⟩
  · exact .inl member
  · cases outcome with
    | rewatched r =>
      rcases (decided.1 w).mp member with rfl | ⟨before, -⟩
      · exact .inr decided.2.2.2
      · exact .inl before
    | satisfied => exact .inl ((decided.1 w).mp member)
    | implied u => exact .inl ((decided.1 w).mp member)
    | falsified => exact .inl ((decided.1 w).mp member)

/-- Putting the kept watchers back makes the store consistent again. -/
theorem Visited.consistent {store : ClauseStore} (consistent : store.Consistent n)
    (covered : old.var < n)
    (visited : Visited value old (store.watchers.take old).1
      { store with watchers := (store.watchers.take old).2 } v)
    (left : v.store.Taken old [] n) :
    ({ v.store with watchers := v.store.watchers.put old v.kept } : ClauseStore).Consistent n := by
  have lists : ∀ l, (v.store.watchers.put old v.kept).of l
      = if l = old then v.kept else v.store.watchers.of l :=
    fun _ => Watchers.of_put ((Watchers.covers_iff left.sized).mpr covered)
  have rearranged : ClauseStore.Rearranged store v.store := visited.rearranged
  exact {
    storable := fun i c living => (left.proper i c living).storable
    proper := left.proper
    spare := by
      intro i
      change i ∈ v.store.free ↔ i < v.store.slots.size ∧ v.store.clause? i = none
      rw [visited.free, visited.slots, rearranged.eq_none_iff]
      exact consistent.spare i
    spareOnce := by
      change v.store.free.Nodup
      rw [visited.free]
      exact consistent.spareOnce
    sized := (Watchers.size_put _).trans left.sized
    listed := by
      intro l i
      change i ∈ (v.store.watchers.put old v.kept).of l ↔
        ∃ c, v.store.clause? i = some c ∧ l ∈ c.watched
      rw [lists]
      split
      · rename_i same
        subst same
        rw [visited.kept]
        refine ⟨And.right, fun watching => ⟨?_, watching⟩⟩
        by_cases waiting : i ∈ (store.watchers.take l).1
        · exact waiting
        · rw [visited.elsewhere i waiting] at watching
          exact (consistent.listed l i).mpr watching
      · rename_i different
        exact left.listed l i different
    listedOnce := by
      intro l
      change ((v.store.watchers.put old v.kept).of l).Nodup
      rw [lists]
      split
      · exact visited.keptOnce
      · rename_i different
        exact left.listedOnce l different
    learned := by
      intro i
      change i ∈ v.store.learned ↔ ∃ c, v.store.clause? i = some c ∧ c.isLearned = true
      rw [visited.learned, rearranged.learned_iff]
      exact consistent.learned i
    learnedOnce := by
      change v.store.learned.Nodup
      rw [visited.learned]
      exact consistent.learnedOnce }

/-! ## Assigning -/

/-- One state follows another by pushing an open literal and visiting the
watchers of its negation. -/
structure Pushed (s : State) (l : Literal) (antecedent : Option Nat) (v : Visit)
    (t : State) : Prop where
  free : s.trail.assignment.find? l.var = none
  declared : l.var < s.trail.assignment.numVariables
  visited : Visited (s.trail.push l antecedent).value? l.negate
    (s.store.watchers.take l.negate).1
    { s.store with watchers := (s.store.watchers.take l.negate).2 } v
  trail : t.trail = s.trail.push l antecedent
  clauses : ∀ i, t.store.clause? i = v.store.clause? i
  store : t.store.Consistent s.numVariables
  queue : t.queue = s.queue ++ v.implied
  frame : t = { s with trail := t.trail, store := t.store, queue := t.queue }

variable {antecedent : Option Nat} {v : Visit}

theorem Pushed.level (pushed : Pushed s l antecedent v t) : t.level = s.level := by
  unfold State.level
  rw [pushed.trail, Trail.level_push]

theorem Pushed.true_at_iff (pushed : Pushed s l antecedent v t) :
    t.trail.TrueAt m k ↔ (m = l ∧ k = s.level) ∨ s.trail.TrueAt m k := by
  rw [pushed.trail]
  exact Trail.true_at_push pushed.free pushed.declared

theorem Pushed.extends (pushed : Pushed s l antecedent v t) (known : s.trail.value? m = some b) :
    t.trail.value? m = some b := by
  rw [pushed.trail]
  exact Trail.value?_push_of_eq_some pushed.free pushed.declared known

theorem Pushed.value?_self (pushed : Pushed s l antecedent v t) :
    t.trail.value? l = some true := by
  rw [pushed.trail]
  exact Trail.value?_push_self pushed.free pushed.declared

theorem Pushed.value?_negate (pushed : Pushed s l antecedent v t) :
    t.trail.value? l.negate = some false := by
  rw [Trail.value?_negate, pushed.value?_self]
  rfl

theorem Pushed.open_of_ne (pushed : Pushed s l antecedent v t) (open_ : s.trail.value? m = none)
    (notSelf : m ≠ l) (notNegation : m ≠ l.negate) : t.trail.value? m = none := by
  rw [pushed.trail, Trail.value?_push_of_var_ne pushed.declared, open_]
  intro vars
  rcases Literal.eq_or_eq_negate vars with same | opposite
  · exact notSelf same
  · exact notNegation opposite

/-- A literal with a value before the push is not the negation of the pushed one. -/
theorem Pushed.ne_negate (pushed : Pushed s l antecedent v t)
    (known : s.trail.value? m = some b) : m ≠ l.negate := by
  rintro rfl
  have open_ : s.trail.value? l.negate = none := Trail.value?_eq_none_iff.mpr pushed.free
  rw [open_] at known
  cases known

theorem Pushed.rearranged (pushed : Pushed s l antecedent v t) :
    ClauseStore.Rearranged s.store t.store := by
  intro i
  rw [pushed.clauses]
  exact pushed.visited.rearranged i

/-- A clause after the push, with the same clause before it: no watch is lost but
one on the negation, and no new watch is false. -/
theorem Pushed.clause (pushed : Pushed s l antecedent v t)
    (found : t.store.clause? i = some c') :
    ∃ c, s.store.clause? i = some c ∧ Clause.Rearranged c c' ∧
      (∀ o ∈ c.watched, o ≠ l.negate → o ∈ c'.watched) ∧
      ∀ w ∈ c'.watched, w ∈ c.watched ∨ t.trail.value? w ≠ some false := by
  rw [pushed.clauses] at found
  obtain ⟨c, before, same⟩ := pushed.visited.rearranged.backward found
  refine ⟨c, before, same, ?_⟩
  by_cases waiting : i ∈ (s.store.watchers.take l.negate).1
  · have fate := pushed.visited.each i waiting c c' before found
    rw [pushed.trail]
    exact ⟨fun o => fate.watched_of_ne, fun w => fate.watched_or⟩
  · rw [pushed.visited.elsewhere i waiting] at found
    cases before.symm.trans found
    exact ⟨fun o member _ => member, fun w member => .inl member⟩

/-- In a visit that met no falsified clause, every watcher of the negation was
reconsidered. -/
theorem Pushed.decided (pushed : Pushed s l antecedent v t)
    (consistent : s.store.Consistent n) (quiet : v.status = .consistent)
    (before : s.store.clause? i = some c) (found : t.store.clause? i = some c')
    (watching : l.negate ∈ c.watched) :
    ∃ outcome, Clause.Decides t.trail.value? l.negate c c' outcome ∧
      (∀ u, outcome = .implied u → (i, u) ∈ t.queue) ∧ outcome ≠ .falsified := by
  rw [pushed.clauses] at found
  have waiting : i ∈ (s.store.watchers.take l.negate).1 :=
    (consistent.listed l.negate i).mpr ⟨c, before, watching⟩
  rcases pushed.visited.each i waiting c c' before found with
    ⟨-, stopped⟩ | ⟨outcome, decided, implied, falsified⟩
  · exact absurd quiet stopped
  · rw [← pushed.trail] at decided
    refine ⟨outcome, decided, fun u is => ?_, fun is => ?_⟩
    · rw [pushed.queue]
      exact List.mem_append_right _ (implied u is)
    · rw [falsified is] at quiet
      cases quiet

theorem Pushed.implies (pushed : Pushed s l antecedent v t) (implies : s.Implies i m) :
    t.Implies i m := by
  obtain ⟨c, found, member, others⟩ := implies
  obtain ⟨c', found', same⟩ := pushed.rearranged.forward found
  exact ⟨c', found', same.mem_iff.mp member,
    fun o inside different => pushed.extends (others o (same.mem_iff.mpr inside) different)⟩

/-- Assigning an open literal keeps every clause that was made up for at a lower
level made up for: the watch that moves away was not true. -/
theorem Pushed.guarded (pushed : Pushed s l antecedent v t) (guarded : s.Guarded) : t.Guarded := by
  intro i c' w k found member false_ below
  rw [pushed.level] at below
  rw [pushed.true_at_iff] at false_
  have before : s.trail.TrueAt w.negate k := by
    rcases false_ with ⟨-, rfl⟩ | holds
    · exact absurd below (Nat.lt_irrefl _)
    · exact holds
  obtain ⟨c, living, same, kept, notFalse⟩ := pushed.clause found
  have watched : w ∈ c.watched := by
    refine (notFalse w member).resolve_right fun notFalse => notFalse ?_
    exact pushed.extends (Trail.value?_of_false_at before)
  obtain ⟨o, other, j, le, holds⟩ := guarded i c w k living watched before below
  refine ⟨o, kept o other ?_, j, le, pushed.true_at_iff.mpr (.inr holds)⟩
  exact pushed.ne_negate (Trail.value?_of_true_at holds)

/-- A clause that watched the negation and still does is made up for: its watches
stayed, so it is satisfied or its other watch is implied. -/
theorem Pushed.attended_of_negation (pushed : Pushed s l antecedent v t)
    (consistent : s.store.Consistent n) (quiet : v.status = .consistent)
    (living : s.store.clause? i = some c) (found : t.store.clause? i = some c')
    (same : Clause.Rearranged c c') (watched : l.negate ∈ c.watched)
    (member : l.negate ∈ c'.watched) :
    (∃ o ∈ c'.watched, t.trail.value? o = some true) ∨
    ∃ o ∈ c'.watched, (i, o) ∈ t.queue ∧ t.trail.value? o = none ∧
      ∀ m ∈ c'.literals, m ≠ o → t.trail.value? m = some false := by
  obtain ⟨outcome, decided, implied, notFalsified⟩ :=
    pushed.decided consistent quiet living found watched
  cases outcome with
  | satisfied =>
    obtain ⟨watches, o, other, -, holds⟩ := decided
    exact .inl ⟨o, (watches o).mpr other, holds⟩
  | rewatched r =>
    rcases (decided.1 _).mp member with rfl | ⟨-, different⟩
    · exact absurd watched decided.2.2.1
    · exact absurd rfl different
  | implied u =>
    obtain ⟨watches, other, different, open_, others⟩ := decided
    refine .inr ⟨u, (watches u).mpr other, implied u rfl, open_, fun m inside notOther => ?_⟩
    rcases others m (same.mem_iff.mpr inside) notOther with rfl | fails
    · exact pushed.value?_negate
    · exact fails
  | falsified => exact absurd rfl notFalsified

/-- A clause whose only literal that is not false is the negation would be falsified. -/
theorem Pushed.not_all_false (pushed : Pushed s l antecedent v t)
    (consistent : s.store.Consistent n) (quiet : v.status = .consistent)
    (living : s.store.clause? i = some c) (found : t.store.clause? i = some c')
    (watched : l.negate ∈ c.watched) :
    ¬ ∀ m ∈ c.literals, m ≠ l.negate → t.trail.value? m = some false := by
  intro fails
  obtain ⟨outcome, decided, -, notFalsified⟩ :=
    pushed.decided consistent quiet living found watched
  cases outcome with
  | satisfied =>
    obtain ⟨-, u, inside, different, holds⟩ := decided
    rw [fails u (Clause.mem_of_mem_watched inside) different] at holds
    cases holds
  | rewatched r =>
    obtain ⟨-, inside, fresh, notFalse⟩ := decided
    refine absurd (fails r inside ?_) notFalse
    rintro rfl
    exact fresh watched
  | implied u =>
    obtain ⟨-, inside, different, open_, -⟩ := decided
    rw [fails u (Clause.mem_of_mem_watched inside) different] at open_
    cases open_
  | falsified => exact absurd rfl notFalsified

/-- The same at the current level, when the visit met no falsified clause. -/
theorem Pushed.attended (pushed : Pushed s l antecedent v t) (consistent : s.store.Consistent n)
    (quiet : v.status = .consistent) (attended : Attended { s with queue := waiting })
    (covered : ∀ e ∈ waiting, e ∈ s.queue ∨ e.2 = l) : t.Attended := by
  intro i c' w found member false_
  obtain ⟨c, living, same, kept, notFalse⟩ := pushed.clause found
  rw [pushed.level, pushed.true_at_iff] at false_
  have known : t.trail.value? w = some false := by
    rcases false_ with ⟨rfl, -⟩ | before
    · have value := pushed.value?_negate
      rwa [Literal.negate_negate] at value
    · exact pushed.extends (Trail.value?_of_false_at before)
  have watched : w ∈ c.watched := (notFalse w member).resolve_right fun notFalse => notFalse known
  by_cases negation : w = l.negate
  · subst negation
    exact pushed.attended_of_negation consistent quiet living found same watched member
  · have before : s.trail.TrueAt w.negate s.level := by
      rcases false_ with ⟨same, -⟩ | before
      · rw [← same, Literal.negate_negate] at negation
        exact absurd rfl negation
      · exact before
    rcases attended i c w living watched before with
      ⟨o, other, holds⟩ | ⟨o, other, queued, open_, others⟩
    · exact .inl ⟨o, kept o other (pushed.ne_negate holds), pushed.extends holds⟩
    · by_cases turned : o = l.negate
      · -- the open literal became false, which a consistent visit rules out
        subst turned
        refine absurd ?_ (pushed.not_all_false consistent quiet living found other)
        exact fun m inside different => pushed.extends (others m inside different)
      · by_cases here : o = l
        · subst here
          exact .inl ⟨o, kept o other turned, pushed.value?_self⟩
        · refine .inr ⟨o, kept o other turned, ?_, pushed.open_of_ne open_ here turned, ?_⟩
          · rw [pushed.queue]
            exact List.mem_append_left _ ((covered _ queued).resolve_right here)
          · exact fun m inside different =>
              pushed.extends (others m (same.mem_iff.mpr inside) different)

/-- What the visit found implied is implied. -/
theorem Pushed.implies_of_found (pushed : Pushed s l antecedent v t) (found : (i, m) ∈ v.implied) :
    t.Implies i m := by
  obtain ⟨c, living, inside, others⟩ := pushed.visited.implied i m found
  rw [← pushed.clauses] at living
  refine ⟨c, living, inside, fun o member different => ?_⟩
  rcases others o member different with rfl | fails
  · exact pushed.value?_negate
  · rwa [pushed.trail]

theorem Pushed.falsified (pushed : Pushed s l antecedent v t) (stopped : v.status = .conflict i) :
    t.Falsified i := by
  obtain ⟨c, living, all⟩ := pushed.visited.falsified i stopped
  rw [← pushed.clauses] at living
  refine ⟨c, living, fun m member => ?_⟩
  rcases all m member with rfl | fails
  · exact pushed.value?_negate
  · rwa [pushed.trail]

/-- Explanations survive the push, and the pushed literal comes with its own. -/
theorem Pushed.explained (pushed : Pushed s l antecedent v t) (trail : s.trail.Coherent)
    (explained : s.Explained) (justified : ∀ i, antecedent = some i → s.Justifies i l) :
    t.Explained := by
  intro newer m older index split known
  rw [pushed.trail, Trail.newestFirst_push] at split
  rw [pushed.trail] at known
  rcases List.cons_eq_append_iff.mp split with ⟨rfl, here⟩ | ⟨newer', rfl, rest⟩
  · -- the pushed literal itself: its other literals were false before
    obtain ⟨rfl, rfl⟩ := List.cons_eq_cons.mp here
    rw [Trail.reason_push_self pushed.declared] at known
    obtain ⟨c, living, inside, others, peer⟩ := justified index known
    obtain ⟨c', living', same⟩ := pushed.rearranged.forward living
    refine ⟨c', living', same.mem_iff.mp inside, fun o member different => ?_, ?_⟩
    · obtain ⟨_, fails⟩ := Trail.value?_eq_false_iff.mp
        (others o (same.mem_iff.mpr member) different)
      exact trail.mem_of_true_at fails
    · intro k positive holds
      rw [pushed.true_at_iff] at holds
      rcases holds with ⟨-, rfl⟩ | before
      · obtain ⟨o, member, different, fails⟩ := peer positive
        exact ⟨o, same.mem_iff.mp member, different, pushed.true_at_iff.mpr (.inr fails)⟩
      · obtain ⟨e, found, -⟩ := before
        rw [pushed.free] at found
        cases found
  · have onTrail : m ∈ s.trail.newestFirst := by rw [rest]; simp
    rw [Trail.reason_push_of_mem trail pushed.free pushed.declared onTrail] at known
    obtain ⟨c, living, inside, others, peer⟩ := explained newer' m older index rest known
    obtain ⟨c', living', same⟩ := pushed.rearranged.forward living
    refine ⟨c', living', same.mem_iff.mp inside,
      fun o member => others o (same.mem_iff.mpr member), fun k positive holds => ?_⟩
    have before : s.trail.TrueAt m k := by
      rcases pushed.true_at_iff.mp holds with ⟨rfl, -⟩ | before
      · obtain ⟨_, _, found, -⟩ := trail.true_at_of_mem onTrail
        rw [pushed.free] at found
        cases found
      · exact before
    obtain ⟨o, member, different, fails⟩ := peer k positive before
    exact ⟨o, same.mem_iff.mp member, different, pushed.true_at_iff.mpr (.inr fails)⟩

theorem Pushed.coherent (pushed : Pushed s l antecedent v t) (coherent : s.Coherent)
    (justified : ∀ i, antecedent = some i → s.Justifies i l) : t.Coherent where
  declared := by
    rw [pushed.frame, pushed.trail, Trail.assignment_push, Assignment.numVariables_set]
    exact coherent.declared
  trail := by
    rw [pushed.trail]
    exact Trail.push_coherent coherent.trail pushed.free pushed.declared
  store := by
    have same : t.numVariables = s.numVariables := by rw [pushed.frame]
    rw [same]
    exact pushed.store
  explained := pushed.explained coherent.trail coherent.explained justified
  guarded := pushed.guarded coherent.guarded
  facts := by
    intro above i c' m living single
    rw [pushed.level] at above
    obtain ⟨c, living', same⟩ := pushed.rearranged.backward living
    have fact := coherent.facts above i c m living' (same.eq_singleton_iff.mpr single)
    exact pushed.true_at_iff.mpr (.inr fact)

/-- After a visit that met no falsified clause nothing is overlooked, if nothing
was before; the pushed literal may have come from the queue. -/
theorem Pushed.quiet (pushed : Pushed s l antecedent v t) (consistent : s.store.Consistent n)
    (calm : v.status = .consistent) (quiet : Quiet { s with queue := waiting })
    (covered : ∀ e ∈ waiting, e ∈ s.queue ∨ e.2 = l) (remaining : ∀ e ∈ s.queue, e ∈ waiting) :
    t.Quiet where
  attended := pushed.attended consistent calm quiet.attended covered
  units := by
    intro ground i c' m living single
    rw [pushed.level] at ground
    obtain ⟨c, living', same⟩ := pushed.rearranged.backward living
    rcases quiet.units ground i c m living' (same.eq_singleton_iff.mpr single) with
      fact | queued
    · exact .inl (pushed.true_at_iff.mpr (.inr fact))
    · rcases covered _ queued with left | rfl
      · rw [pushed.queue]
        exact .inr (List.mem_append_left _ left)
      · exact .inl (pushed.true_at_iff.mpr (.inl ⟨rfl, ground.symm⟩))
  queued := by
    intro i m member
    rw [pushed.queue, List.mem_append] at member
    rcases member with before | found
    · exact pushed.implies (quiet.queued i m (remaining _ before))
    · exact pushed.implies_of_found found

/-- At level 0 a falsified clause shows that nothing satisfies clauses and facts. -/
theorem Falsified.not_admits (falsified : s.Falsified i) (trail : s.trail.Coherent)
    (ground : s.level = 0) : ¬ s.Admits u := by
  rintro ⟨clauses, facts⟩
  obtain ⟨c, living, all⟩ := falsified
  obtain ⟨m, member, holds⟩ := clauses i c living
  have fact := trail.fact_of_false ground (all m member)
  exact Literal.holds_negate.mp (facts m.negate fact) holds

theorem Pushed.admits (pushed : Pushed s l antecedent v t) (admits : s.Admits u)
    (holds : s.level = 0 → l.Holds u) : t.Admits u := by
  refine ⟨fun i c' living => ?_, fun m fact => ?_⟩
  · obtain ⟨c, living', same⟩ := pushed.rearranged.backward living
    obtain ⟨m, member, satisfied⟩ := admits.1 i c living'
    exact ⟨m, same.mem_iff.mp member, satisfied⟩
  · rcases pushed.true_at_iff.mp fact with ⟨rfl, ground⟩ | before
    · exact holds ground.symm
    · exact admits.2 m before

/-- Assigning an open literal over a declared variable succeeds. -/
theorem assign_pushed (antecedent : Option Nat) (coherent : s.Coherent)
    (declared : l.var < s.numVariables) (open_ : s.trail.value? l = none) :
    ∃ v t, s.assign l antecedent = .ok (v.status, t) ∧ Pushed s l antecedent v t := by
  have declared' : l.var < s.trail.assignment.numVariables := coherent.declared ▸ declared
  have free : s.trail.assignment.find? l.var = none := Trail.value?_eq_none_iff.mp open_
  have unassigned : s.trail.assignment.assigns l.var = false :=
    Assignment.assigns_eq_false_iff.mpr free
  obtain ⟨v, ran, visited, left⟩ := visit_visited (s.trail.push l antecedent).value?
    _ (coherent.store.taken l.negate)
  have covered : l.negate.var < s.numVariables := declared
  have consistent := visited.consistent coherent.store covered left
  unfold assign
  rw [if_neg (Nat.not_le.mpr declared'), if_neg (by simp [unassigned])]
  simp only [Watchers.take] at ran ⊢
  rw [ran]
  exact ⟨v, _, rfl, {
    free := free
    declared := declared'
    visited := visited
    trail := rfl
    clauses := fun _ => rfl
    store := consistent
    queue := rfl
    frame := rfl }⟩

end State

end ClauseLearning
