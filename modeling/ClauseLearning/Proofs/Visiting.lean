import ClauseLearning.Proofs.StoreConsistency
import ClauseLearning.Search.Propagation

/-! Visiting the watchers of a literal that became false. While its list is
taken out, every other list stays exact; in the end the kept watchers are
exactly the clauses that still watch the literal. Every clause is either
reconsidered or, after a falsified one, left as it was. -/
namespace ClauseLearning

namespace ClauseStore

/-- The store while the watchers of a literal are taken out: the lists of all
other literals are exact, and the clauses still waiting watch the literal. -/
structure Taken (s : ClauseStore) (old : Literal) (waiting : List Nat) (n : Nat) : Prop where
  proper : ∀ i c, s.clause? i = some c → c.Proper n
  sized : s.watchers.lists.size = 2 * n
  listed : ∀ l i, l ≠ old →
    (i ∈ s.watchers.of l ↔ ∃ c, s.clause? i = some c ∧ l ∈ c.watched)
  listedOnce : ∀ l, l ≠ old → (s.watchers.of l).Nodup
  watching : ∀ i ∈ waiting, ∃ c, s.clause? i = some c ∧ old ∈ c.watched
  watchingOnce : waiting.Nodup

variable {s : ClauseStore} {n : Nat}

theorem Consistent.taken (consistent : s.Consistent n) (old : Literal) :
    Taken { s with watchers := (s.watchers.take old).2 } old (s.watchers.take old).1 n := by
  have lists : ∀ l, l ≠ old → ((s.watchers.take old).2).of l = s.watchers.of l := by
    intro l different
    by_cases covered : s.watchers.Covers old
    · exact (Watchers.of_put covered).trans (if_neg different)
    · have beyond : s.watchers.lists.size ≤ old.code := Nat.le_of_not_lt covered
      simp [Watchers.take, Watchers.put, Array.setIfInBounds, Nat.not_lt.mpr beyond]
  exact {
    proper := consistent.proper
    sized := (Watchers.size_put _).trans consistent.sized
    listed := fun l i different => by
      rw [lists l different]
      exact consistent.listed l i
    listedOnce := fun l different => by
      rw [lists l different]
      exact consistent.listedOnce l
    watching := fun i member => (consistent.listed old i).mp member
    watchingOnce := consistent.listedOnce old }

/-- Replacing the first waiting clause by a rearranged one with the same
watches leaves the lists exact. -/
theorem Taken.replace (taken : Taken s old (index :: rest) n) (found : s.clause? index = some c)
    (same : Clause.Rearranged c c') (watches : ∀ x, x ∈ c'.watched ↔ x ∈ c.watched) :
    Taken (s.replace index c') old rest n := by
  have slots : ∀ j, (s.replace index c').clause? j
      = if j = index then some c' else s.clause? j := fun _ => clause?_replace_of_clause? found
  obtain ⟨notAgain, distinct⟩ := List.nodup_cons.mp taken.watchingOnce
  have proper := taken.proper index c found
  exact {
    proper := holds_of_changed taken.proper (same.proper proper) slots
    sized := taken.sized
    listed := by
      intro l j different
      apply (taken.listed l j different).trans
      rw [slots]
      by_cases here : j = index
      · subst here
        simp [found, watches]
      · simp [here]
    listedOnce := taken.listedOnce
    watching := by
      intro j member
      rw [slots, if_neg]
      · exact taken.watching j (List.mem_cons_of_mem _ member)
      · rintro rfl
        exact notAgain member
    watchingOnce := distinct }

/-- A clause whose watch moves goes onto the list of its new watch. -/
theorem Taken.rewatch (taken : Taken s old (index :: rest) n) (found : s.clause? index = some c)
    (same : Clause.Rearranged c c') (moved : Clause.Decides value old c c' (.rewatched r)) :
    Taken { s.replace index c' with
      watchers := (s.replace index c').watchers.add r index } old rest n := by
  have slots : ∀ j, (s.replace index c').clause? j
      = if j = index then some c' else s.clause? j := fun _ => clause?_replace_of_clause? found
  obtain ⟨notAgain, distinct⟩ := List.nodup_cons.mp taken.watchingOnce
  obtain ⟨watches, inside, fresh, -⟩ := moved
  have proper := taken.proper index c found
  have covered : s.watchers.Covers r := (Watchers.covers_iff taken.sized).mpr
    (proper.declared r inside)
  have lists : ∀ l, (s.watchers.add r index).of l
      = if l = r then s.watchers.of r ++ [index] else s.watchers.of l :=
    fun _ => Watchers.of_add covered
  have different : r ≠ old := by
    rintro rfl
    obtain ⟨d, found', watching⟩ := taken.watching index (by simp)
    cases found.symm.trans found'
    exact fresh watching
  have notListed : index ∉ s.watchers.of r := by
    rw [taken.listed r index different]
    rintro ⟨d, found', watching⟩
    cases found.symm.trans found'
    exact fresh watching
  exact {
    proper := holds_of_changed taken.proper (same.proper proper) slots
    sized := (Watchers.size_put _).trans taken.sized
    listed := by
      intro l j notOld
      change j ∈ (s.watchers.add r index).of l ↔
        ∃ d, (s.replace index c').clause? j = some d ∧ l ∈ d.watched
      have before := taken.listed l j notOld
      rw [lists, slots]
      by_cases here : j = index
      · subst here
        by_cases new : l = r
        · subst new
          simp [watches]
        · simp [new, before, found, watches, notOld]
      · by_cases new : l = r
        · subst new
          simp [here, before]
        · simp [new, here, before]
    listedOnce := by
      intro l notOld
      change ((s.watchers.add r index).of l).Nodup
      rw [lists]
      split
      · rename_i new
        subst new
        apply (taken.listedOnce l notOld).append (List.nodup_singleton _)
        exact List.disjoint_singleton.mpr notListed
      · exact taken.listedOnce l notOld
    watching := by
      intro j member
      change ∃ d, (s.replace index c').clause? j = some d ∧ old ∈ d.watched
      rw [slots, if_neg]
      · exact taken.watching j (List.mem_cons_of_mem _ member)
      · rintro rfl
        exact notAgain member
    watchingOnce := distinct }

end ClauseStore

namespace State

open Clause ClauseStore

/-- What became of a clause whose turn in a visit came, or never came because
a clause before it was falsified. -/
def Fate (value : Literal → Option Bool) (old : Literal) (v : Visit) (i : Nat)
    (c c' : Clause) : Prop :=
  (c' = c ∧ v.status ≠ .consistent) ∨
  ∃ outcome, Decides value old c c' outcome ∧
    (∀ l, outcome = .implied l → (i, l) ∈ v.implied) ∧
    (outcome = .falsified → v.status = .conflict i)

/-- What a visit did to the store. -/
structure Visited (value : Literal → Option Bool) (old : Literal) (waiting : List Nat)
    (s : ClauseStore) (v : Visit) : Prop where
  slots : v.store.slots.size = s.slots.size
  free : v.store.free = s.free
  learned : v.store.learned = s.learned
  rearranged : ClauseStore.Rearranged s v.store
  elsewhere : ∀ i, i ∉ waiting → v.store.clause? i = s.clause? i
  each : ∀ i ∈ waiting, ∀ c c', s.clause? i = some c → v.store.clause? i = some c' →
    Fate value old v i c c'
  kept : ∀ i, i ∈ v.kept ↔
    i ∈ waiting ∧ ∃ c, v.store.clause? i = some c ∧ old ∈ c.watched
  keptOnce : v.kept.Nodup
  implied : ∀ i l, (i, l) ∈ v.implied → ∃ c, v.store.clause? i = some c ∧ l ∈ c.literals ∧
    ∀ m ∈ c.literals, m ≠ l → m = old ∨ value m = some false
  falsified : ∀ i, v.status = .conflict i → ∃ c, v.store.clause? i = some c ∧
    ∀ m ∈ c.literals, m = old ∨ value m = some false

variable {value : Literal → Option Bool} {old : Literal} {rest : List Nat} {s t : ClauseStore}

/-- A clause that the visit decided first, before it went on with the others. -/
theorem Visited.cons (found : s.clause? index = some c) (same : Clause.Rearranged c c')
    (decided : Decides value old c c' outcome) (notFalsified : outcome ≠ .falsified)
    (visited : Visited value old rest t v)
    (clauses : ∀ j, t.clause? j = if j = index then some c' else s.clause? j)
    (slots : t.slots.size = s.slots.size) (free : t.free = s.free)
    (learned : t.learned = s.learned) (notAgain : index ∉ rest)
    (kept : ∀ i, i ∈ keeps ↔ (i = index ∧ old ∈ c'.watched) ∨ i ∈ v.kept)
    (keptOnce : keeps.Nodup)
    (implied : ∀ e, e ∈ implies ↔ (∃ l, outcome = .implied l ∧ e = (index, l)) ∨ e ∈ v.implied) :
    Visited value old (index :: rest) s { v with kept := keeps, implied := implies } := by
  have here : v.store.clause? index = some c' := by
    rw [visited.elsewhere index notAgain, clauses, if_pos rfl]
  exact {
    slots := visited.slots.trans slots
    free := visited.free.trans free
    learned := visited.learned.trans learned
    rearranged := (Rearranged.of_changed found same clauses).trans visited.rearranged
    elsewhere := by
      intro i outside
      simp only [List.mem_cons, not_or] at outside
      rw [visited.elsewhere i outside.2, clauses, if_neg outside.1]
    each := by
      intro i member d d' before after
      by_cases first : i = index
      · subst first
        cases found.symm.trans before
        cases here.symm.trans after
        refine .inr ⟨outcome, decided, fun l is => ?_, fun is => absurd is notFalsified⟩
        exact (implied (i, l)).mpr (.inl ⟨l, is, rfl⟩)
      · have member := (List.mem_cons.mp member).resolve_left first
        have before' : t.clause? i = some d := by rw [clauses, if_neg first, before]
        rcases visited.each i member d d' before' after with skipped | ⟨o, tells, queued, status⟩
        · exact .inl skipped
        · exact .inr ⟨o, tells, fun l is => (implied (i, l)).mpr (.inr (queued l is)), status⟩
    kept := by
      intro i
      rw [kept, visited.kept, List.mem_cons]
      by_cases first : i = index
      · subst first
        simp [here, notAgain]
      · simp [first]
    keptOnce := keptOnce
    implied := by
      intro i l member
      rcases (implied (i, l)).mp member with ⟨_, is, pair⟩ | member
      · cases pair
        subst is
        obtain ⟨watches, watched, -, -, others⟩ := decided
        exact ⟨c', here, same.mem_iff.mp (mem_of_mem_watched watched),
          fun m inside => others m (same.mem_iff.mpr inside)⟩
      · exact visited.implied i l member
    falsified := visited.falsified }

/-- A falsified clause ends the visit and leaves the clauses after it alone. -/
theorem Visited.stop (taken : Taken s old (index :: rest) n) (found : s.clause? index = some c)
    (same : Clause.Rearranged c c') (decided : Decides value old c c' .falsified) :
    Visited value old (index :: rest) s
      ⟨s.replace index c', index :: rest, [], .conflict index⟩ := by
  have clauses : ∀ j, (s.replace index c').clause? j
      = if j = index then some c' else s.clause? j := fun _ => clause?_replace_of_clause? found
  have watching := (taken.replace found same decided.1).watching
  obtain ⟨notAgain, -⟩ := List.nodup_cons.mp taken.watchingOnce
  have here : (s.replace index c').clause? index = some c' := by rw [clauses, if_pos rfl]
  have old_mem : old ∈ c'.watched := by
    obtain ⟨d, found', watched⟩ := taken.watching index (by simp)
    cases found.symm.trans found'
    exact (decided.1 old).mpr watched
  have allFalse : ∀ m ∈ c'.literals, m = old ∨ value m = some false :=
    fun m inside => decided.2 m (same.mem_iff.mpr inside)
  exact {
    slots := by simp [ClauseStore.replace]
    free := rfl
    learned := rfl
    rearranged := .of_changed found same clauses
    elsewhere := by
      intro i outside
      simp only [List.mem_cons, not_or] at outside
      rw [clauses, if_neg outside.1]
    each := by
      intro i member d d' before after
      by_cases first : i = index
      · subst first
        cases found.symm.trans before
        cases here.symm.trans after
        exact .inr ⟨.falsified, decided, fun l is => (by cases is), fun _ => rfl⟩
      · rw [clauses, if_neg first, before] at after
        cases after
        exact .inl ⟨rfl, by simp⟩
    kept := by
      intro i
      refine ⟨fun member => ⟨member, ?_⟩, And.left⟩
      rcases List.mem_cons.mp member with first | member
      · exact ⟨c', by rw [first, here], old_mem⟩
      · exact watching i member
    keptOnce := taken.watchingOnce
    implied := fun i l member => by cases member
    falsified := by
      intro i is
      cases is
      exact ⟨c', here, allFalse⟩ }

/-- A visit succeeds, does to each clause what it must, and leaves all lists
but the one taken out exact. -/
theorem visit_visited (value : Literal → Option Bool) (waiting : List Nat)
    (taken : Taken s old waiting n) :
    ∃ v, visit value old waiting s = .ok v ∧ Visited value old waiting s v ∧
      Taken v.store old [] n := by
  induction waiting generalizing s with
  | nil =>
    refine ⟨_, rfl, ?_, taken⟩
    exact {
      slots := rfl
      free := rfl
      learned := rfl
      rearranged := .refl s
      elsewhere := fun _ _ => rfl
      each := fun i member => by cases member
      kept := by simp
      keptOnce := List.nodup_nil
      implied := fun i l member => by cases member
      falsified := fun i is => by cases is }
  | cons index rest ih =>
    obtain ⟨notAgain, -⟩ := List.nodup_cons.mp taken.watchingOnce
    obtain ⟨c, found, watched⟩ := taken.watching index (by simp)
    obtain ⟨outcome, c', reconsidered⟩ := reconsider_isSome value watched
    obtain ⟨same, decided⟩ := reconsider_decides (taken.proper index c found) reconsidered
    have clauses : ∀ j, (s.replace index c').clause? j
        = if j = index then some c' else s.clause? j := fun _ => clause?_replace_of_clause? found
    have size : (s.replace index c').slots.size = s.slots.size := by simp [ClauseStore.replace]
    rw [visit, get_eq_ok_iff.mpr found]
    simp only [reconsidered]
    cases outcome with
    | falsified =>
      have after := taken.replace found same decided.1
      refine ⟨_, rfl, Visited.stop taken found same decided, ?_⟩
      exact ⟨after.proper, after.sized, after.listed, after.listedOnce,
        fun i member => (by cases member), List.nodup_nil⟩
    | rewatched r =>
      obtain ⟨v, ran, visited, left⟩ := ih (taken.rewatch found same decided)
      have moved : old ∉ c'.watched := by
        rw [decided.1 old]
        rintro (rfl | ⟨-, different⟩)
        · exact decided.2.2.1 watched
        · exact different rfl
      refine ⟨v, ran, ?_, left⟩
      exact Visited.cons found same decided (by simp) visited clauses size rfl rfl notAgain
        (by simp [moved]) visited.keptOnce (by simp)
    | satisfied =>
      obtain ⟨v, ran, visited, left⟩ := ih (taken.replace found same decided.1)
      have stays : old ∈ c'.watched := (decided.1 old).mpr watched
      have fresh : index ∉ v.kept := fun member => notAgain ((visited.kept index).mp member).1
      refine ⟨{ v with kept := index :: v.kept }, by rw [ran]; rfl, ?_, left⟩
      exact Visited.cons found same decided (by simp) visited clauses size rfl rfl notAgain
        (by simp [stays]) (List.nodup_cons.mpr ⟨fresh, visited.keptOnce⟩) (by simp)
    | implied u =>
      obtain ⟨v, ran, visited, left⟩ := ih (taken.replace found same decided.1)
      have stays : old ∈ c'.watched := (decided.1 old).mpr watched
      have fresh : index ∉ v.kept := fun member => notAgain ((visited.kept index).mp member).1
      refine ⟨{ v with kept := index :: v.kept, implied := (index, u) :: v.implied },
        by rw [ran]; rfl, ?_, left⟩
      exact Visited.cons found same decided (by simp) visited clauses size rfl rfl notAgain
        (by simp [stays]) (List.nodup_cons.mpr ⟨fresh, visited.keptOnce⟩) (by simp)

end State

end ClauseLearning
