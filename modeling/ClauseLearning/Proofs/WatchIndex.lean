import ClauseLearning.Proofs.WatchedPairs

/-! The watch lists are an exact index of the clauses: a clause is on the list of a
literal once if it lives and watches the literal, and not at all otherwise. Every
assignment of a run keeps the index exact, wherever the visit of the watchers stops,
and so does every deletion of a restart, however many of them are done. -/
namespace ClauseLearning

/-- The list of a literal holds each living clause with that literal among its first
two once, and nothing else. -/
def ClauseStore.Indexed (s : ClauseStore) : Prop :=
  ∀ l i, (s.watchers.of l).count i = if (s.clause? i).any (l ∈ ·.literals.take 2) then 1 else 0

namespace ClauseStore

variable {s : ClauseStore} {n : Nat}

theorem Filed.indexed (filed : s.Filed n) : s.Indexed := by
  intro l i
  have watching : i ∈ s.watchers.of l ↔ (s.clause? i).any (l ∈ ·.literals.take 2) = true := by
    rw [filed.listed l i, Option.any_eq_true]
    simp [Clause.watched]
  rw [(filed.listedOnce l).count]
  simp only [watching]

end ClauseStore

variable {f : Formula} {o : Options} {numbers : List Int} {assumed : List Literal} {s : State}
  {l : Literal}

/-- A literal is assigned in a coherent state, where it is declared and open. -/
theorem Assigns.coherent (assigns : Assigns f o assumed s l)
    (declared : ∀ l ∈ assumed, l.var < f.numVariables) :
    s.Coherent ∧ l.var < s.numVariables ∧ s.trail.value? l = none := by
  obtain ⟨-, -, -, -, -, bound, open_⟩ := assigns.watched declared
  have coherent : s.Coherent := by
    cases assigns with
    | assumption loaded nonempty next held open_ =>
      have occurs : Occurs f o assumed .propagating s :=
        .assuming loaded nonempty ((List.prefix_append _ _).trans next) held
      exact (occurs.invariant declared).coherent
    | decision counted reached open_ =>
      obtain ⟨⟨coherent, -, quiet, empty, -⟩, -⟩ := reached.invariant declared
      exact (State.openLevel_coherent coherent quiet empty).congr rfl rfl rfl
    | unit counted occurs asked =>
      exact (occurs.invariant declared).coherent.congr rfl rfl rfl
  exact ⟨coherent, coherent.declared ▸ bound, open_⟩

/-- In every state of a run the watch lists are an exact index. Assigning a literal
keeps it exact, with a conflict or without; and so does each deletion while a restart,
after it stored the learned clause, deletes clauses one by one. -/
theorem watch_lists_are_exact
    (accepted : numbers.mapM (Solver.assumption f.numVariables) = .ok assumed) :
    (∀ phase s, Occurs f o assumed phase s → s.store.Indexed) ∧
    (∀ s l, Assigns f o assumed s l → ∀ antecedent, ∃ status t,
      s.assign l antecedent = .ok (status, t) ∧ t.store.Indexed) ∧
    ∀ learned s, Reachable f o assumed (.restarting learned) s → ∃ index t,
      s.learn learned = .ok (index, t) ∧ ∀ kept doomed : List Nat,
        (doomed.foldl ClauseStore.delete { t.store with learned := kept }).Indexed := by
  have declared := Solver.declared_of_accepted accepted
  refine ⟨fun phase s occurs => ?_, fun s l assigns antecedent => ?_, fun learned s reached => ?_⟩
  · exact (occurs.invariant declared).coherent.store.toFiled.indexed
  · obtain ⟨coherent, bound, open_⟩ := assigns.coherent declared
    obtain ⟨v, t, ran, pushed⟩ := State.assign_pushed antecedent coherent bound open_
    exact ⟨v.status, t, ran, pushed.store.toFiled.indexed⟩
  · obtain ⟨⟨coherent, -, fits, -⟩, -⟩ := reached.invariant declared
    obtain ⟨index, store, inserted, consistent, -⟩ :=
      ClauseStore.insert_consistent coherent.store (fits.proper coherent.declared)
    refine ⟨index, _, by rw [State.learn, inserted], fun kept doomed => ?_⟩
    exact ((consistent.toFiled.relearned kept).delete_all doomed).indexed

/-- The second assumption meets three watchers of its negation: one moves its watch, the
next is falsified, and the last is not looked at. -/
def crowded : Formula :=
  .ofClauses 4 [[⟨0, false⟩, ⟨2, true⟩, ⟨3, true⟩], [⟨0, false⟩, ⟨1, true⟩],
    [⟨0, false⟩, ⟨2, true⟩]]

/-- A visit that stops at a conflict in the middle leaves an exact index; and after the
first deletion of a restart no list has the deleted clause. -/
theorem watch_lists_are_exact_crowded :
    ([-2, 1].mapM (Solver.assumption crowded.numVariables) = .ok [⟨1, false⟩, ⟨0, true⟩] ∧
      ∃ s t, Assigns crowded {} [⟨1, false⟩, ⟨0, true⟩] s ⟨0, true⟩ ∧
        s.assign ⟨0, true⟩ none = .ok (.conflict 1, t) ∧
        s.store.watchers.of ⟨0, false⟩ = [0, 1, 2] ∧
        t.store.watchers.of ⟨0, false⟩ = [1, 2] ∧ t.store.Indexed) ∧
    [4].mapM (Solver.assumption exclusive.numVariables) = .ok [⟨3, true⟩] ∧
    (∃ i s, Occurs exclusive {} [⟨3, true⟩] (.analyzing i) s ∧ s.store.Indexed) ∧
    ∃ l s t, Reachable exclusive { conflictsLimit := 1, lbdLimit := 1.0 } [⟨3, true⟩]
        (.restarting l) s ∧
      s.learn l = .ok (2, t) ∧ (t.store.delete 2).Indexed ∧
      (t.store.delete 2).watchers.of ⟨1, false⟩ = [0, 1] := by
  have accepted : [-2, 1].mapM (Solver.assumption crowded.numVariables) =
      .ok [⟨1, false⟩, ⟨0, true⟩] := rfl
  refine ⟨⟨accepted, ?_⟩, exclusive_accepted, ?_, ?_⟩
  · have starts : (State.start? crowded {} [⟨1, false⟩]).isSome := by decide +kernel
    obtain ⟨⟨phase, s⟩, started⟩ := Option.isSome_iff_exists.mp starts
    have facts : (State.start? crowded {} [⟨1, false⟩]).any (fun here =>
        here.2.trail.value? ⟨0, true⟩ = none ∧ here.2.store.watchers.of ⟨0, false⟩ = [0, 1, 2] ∧
        (here.2.assign ⟨0, true⟩ none).toOption.any fun visited =>
          visited.1 = .conflict 1 ∧ visited.2.store.watchers.of ⟨0, false⟩ = [1, 2]) = true := by
      decide +kernel
    rw [started, Option.any_some, decide_eq_true_eq] at facts
    obtain ⟨open_, before, visited⟩ := facts
    obtain ⟨-, u, loaded, nonempty, held⟩ := State.start?_eq_some_iff.mp started
    have assigns : Assigns crowded {} [⟨1, false⟩, ⟨0, true⟩] s ⟨0, true⟩ :=
      .assumption loaded nonempty List.prefix_rfl held open_
    obtain ⟨status, t, ran, indexed⟩ :=
      (watch_lists_are_exact accepted).2.1 s _ assigns none
    rw [ran] at visited
    obtain ⟨rfl, after⟩ := of_decide_eq_true visited
    exact ⟨s, t, assigns, ran, before, after, indexed⟩
  · obtain ⟨phase, s, reached, shown⟩ := exists_exclusive
      (p := fun phase _ => phase = .analyzing 1) 5 (by decide +kernel)
    obtain rfl := of_decide_eq_true shown
    exact ⟨1, s, .turn reached, (watch_lists_are_exact exclusive_accepted).1 _ s (.turn reached)⟩
  · obtain ⟨phase, s, reached, shown⟩ := @exists_reachable
      exclusive { conflictsLimit := 1, lbdLimit := 1.0 } [⟨3, true⟩]
      (fun phase s => phase = .restarting ⟨⟨1, false⟩, [⟨0, false⟩], 1, 2⟩ ∧
        (s.learn ⟨⟨1, false⟩, [⟨0, false⟩], 1, 2⟩).toOption.any fun stored =>
          stored.1 = 2 ∧ (stored.2.store.delete 2).watchers.of ⟨1, false⟩ = [0, 1])
      [none, some ⟨0, true⟩, none, some ⟨1, true⟩, none, none] (by decide +kernel)
    obtain ⟨rfl, stored⟩ := of_decide_eq_true shown
    obtain ⟨index, t, learned, deleted⟩ :=
      (watch_lists_are_exact exclusive_accepted).2.2 _ s reached
    rw [learned] at stored
    obtain ⟨rfl, list⟩ := of_decide_eq_true stored
    exact ⟨_, s, t, reached, learned, deleted t.store.learned [2], list⟩

end ClauseLearning
