import Mathlib.Data.List.Nodup
import Mathlib.Data.List.Perm.Basic
import ClauseLearning.Proofs.ClauseWatches
import ClauseLearning.Search.ClauseStore

/-! The clause store keeps four structures in step: the slots, the list of free
slots, the list of learned clauses and the watch lists. Storing and deleting
clauses preserve this, and each has one equation for the living clauses. A search
stores proper clauses only; the store itself asks for less. -/
namespace ClauseLearning

namespace Watchers

/-- Moving the last clause into the gap only changes the order. -/
theorem removeFirst_perm_erase (clause : Nat) (clauses : List Nat) :
    (removeFirst clause clauses).Perm (clauses.erase clause) := by
  rcases List.eq_nil_or_concat clauses with rfl | ⟨front, last, rfl⟩
  · simp [removeFirst]
  · simp only [List.concat_eq_append, removeFirst, List.getLast?_append, List.getLast?_singleton,
      Option.some_or]
    split
    · by_cases inside : clause ∈ front
      · obtain ⟨before, after, rfl, fresh⟩ := List.eq_append_cons_of_mem inside
        have gap : List.idxOf clause (before ++ clause :: after ++ [last]) = before.length := by
          rw [List.append_assoc, List.idxOf_append, if_neg fresh]
          simp
        have moved : (before ++ clause :: after ++ [last]).set before.length last
            = before ++ last :: after ++ [last] := by
          simp
        rw [gap, moved, List.dropLast_concat, List.append_assoc, List.erase_append_right _ fresh,
          List.cons_append, List.erase_cons_head]
        exact (List.perm_append_singleton last after).symm.append_left before
      · have here : clause = last := by simp_all
        subst here
        have gap : List.idxOf clause (front ++ [clause]) = front.length := by
          rw [List.idxOf_append, if_neg inside]
          simp
        rw [gap, List.erase_append_right _ inside]
        simp
    · rename_i absent
      rw [List.erase_of_not_mem absent]

theorem mem_removeFirst_iff (once : clauses.Nodup) :
    i ∈ removeFirst clause clauses ↔ i ∈ clauses ∧ i ≠ clause := by
  rw [(removeFirst_perm_erase clause clauses).mem_iff, once.mem_erase_iff, and_comm]

theorem removeFirst_nodup (once : clauses.Nodup) : (removeFirst clause clauses).Nodup :=
  (removeFirst_perm_erase clause clauses).nodup_iff.mpr (once.erase clause)

theorem of_remove {w : Watchers} (covered : w.Covers l) :
    (w.remove l clause).of other
      = if other = l then removeFirst clause (w.of l) else w.of other :=
  of_put covered

theorem size_put (w : Watchers) : (w.put l clauses).lists.size = w.lists.size := by
  simp [put]

theorem covers_iff {w : Watchers} (sized : w.lists.size = 2 * n) : w.Covers l ↔ l.var < n := by
  unfold Covers Literal.code
  rw [sized]
  cases l.positive with
  | false => simp
  | true => simp only [Bool.toNat_true]; omega

theorem of_empty (n : Nat) (l : Literal) : (empty n).of l = [] := by
  simp only [of, empty, Array.getD_eq_getD_getElem?, Array.getElem?_replicate]
  split <;> rfl

/-- A clause that is on none of the lists can be put on all of them. -/
theorem watch_all (ls : List Literal) (w : Watchers) (distinct : ls.Nodup)
    (covered : ∀ l ∈ ls, w.Covers l) (fresh : ∀ l ∈ ls, clause ∉ w.of l) :
    ∃ w', ls.foldlM (fun w l => w.watch l clause) w = .ok w' ∧
      w'.lists.size = w.lists.size ∧
      ∀ l, w'.of l = if l ∈ ls then w.of l ++ [clause] else w.of l := by
  induction ls generalizing w with
  | nil => exact ⟨w, rfl, rfl, by simp⟩
  | cons first rest ih =>
    obtain ⟨notAgain, distinct⟩ := List.nodup_cons.mp distinct
    have ofFirst : ∀ l, (w.add first clause).of l
        = if l = first then w.of first ++ [clause] else w.of l :=
      fun _ => of_add (covered first (by simp))
    have later : ∀ l ∈ rest, (w.add first clause).of l = w.of l := by
      intro l member
      rw [ofFirst, if_neg]
      rintro rfl
      exact notAgain member
    obtain ⟨w', ran, sized, lists⟩ := ih (w.add first clause) distinct
      (fun l member => covers_put.mpr (covered l (by simp [member])))
      (fun l member => by rw [later l member]; exact fresh l (by simp [member]))
    refine ⟨w', ?_, by rw [sized, add, size_put], fun l => ?_⟩
    · rw [List.foldlM_cons, watch, if_neg (fresh first (by simp))]
      exact ran
    · rw [lists]
      by_cases member : l ∈ rest
      · rw [if_pos member, later l member, if_pos (by simp [member])]
      · rw [if_neg member, ofFirst]
        by_cases here : l = first <;> simp [here, member]

/-- A clause is taken off the lists of the given literals and off no other. -/
theorem of_remove_all (ls : List Literal) (w : Watchers) (distinct : ls.Nodup)
    (covered : ∀ l ∈ ls, w.Covers l) :
    (ls.foldl (fun w l => w.remove l clause) w).of other
      = if other ∈ ls then removeFirst clause (w.of other) else w.of other := by
  induction ls generalizing w with
  | nil => simp
  | cons first rest ih =>
    obtain ⟨notAgain, distinct⟩ := List.nodup_cons.mp distinct
    have covered' : ∀ l ∈ rest, (w.remove first clause).Covers l := fun l member =>
      covers_put.mpr (covered l (by simp [member]))
    rw [List.foldl_cons, ih _ distinct covered', of_remove (covered first (by simp))]
    by_cases here : other = first
    · subst here
      simp [notAgain]
    · simp [here]

theorem size_remove_all (ls : List Literal) (w : Watchers) :
    (ls.foldl (fun w l => w.remove l clause) w).lists.size = w.lists.size := by
  induction ls generalizing w with
  | nil => rfl
  | cons first rest ih => rw [List.foldl_cons, ih, remove, size_put]

end Watchers

namespace ClauseStore

/-- The slots, the free list and the watch lists agree. Nothing is said about the
list of learned clauses. -/
structure Filed (s : ClauseStore) (n : Nat) : Prop where
  storable : ∀ i c, s.clause? i = some c → c.Storable n
  spare : ∀ i, i ∈ s.free ↔ i < s.slots.size ∧ s.clause? i = none
  spareOnce : s.free.Nodup
  sized : s.watchers.lists.size = 2 * n
  listed : ∀ l i, i ∈ s.watchers.of l ↔ ∃ c, s.clause? i = some c ∧ l ∈ c.watched
  listedOnce : ∀ l, (s.watchers.of l).Nodup

/-- All four structures agree. -/
structure InStep (s : ClauseStore) (n : Nat) : Prop extends Filed s n where
  learned : ∀ i, i ∈ s.learned ↔ ∃ c, s.clause? i = some c ∧ c.isLearned = true
  learnedOnce : s.learned.Nodup

/-- All four structures agree, and every clause is proper. -/
structure Consistent (s : ClauseStore) (n : Nat) : Prop extends InStep s n where
  proper : ∀ i c, s.clause? i = some c → c.Proper n

/-- Each clause of the one store is in the other at the same index, up to the
order of its literals. -/
def Rearranged (s s' : ClauseStore) : Prop :=
  ∀ i, Option.Rel Clause.Rearranged (s.clause? i) (s'.clause? i)

theorem Rearranged.forward (same : Rearranged s s') (found : s.clause? i = some c) :
    ∃ c', s'.clause? i = some c' ∧ Clause.Rearranged c c' := by
  have related := same i
  rw [found] at related
  cases found' : s'.clause? i with
  | none => rw [found'] at related; cases related
  | some c' =>
    rw [found'] at related
    cases related with
    | some rearranged => exact ⟨c', rfl, rearranged⟩

theorem Rearranged.backward (same : Rearranged s s') (found : s'.clause? i = some c') :
    ∃ c, s.clause? i = some c ∧ Clause.Rearranged c c' := by
  have related := same i
  rw [found] at related
  cases found' : s.clause? i with
  | none => rw [found'] at related; cases related
  | some c =>
    rw [found'] at related
    cases related with
    | some rearranged => exact ⟨c, rfl, rearranged⟩

theorem Rearranged.refl (s : ClauseStore) : Rearranged s s := by
  intro i
  cases s.clause? i with
  | none => exact .none
  | some c => exact .some (.refl c)

theorem Rearranged.trans (first : Rearranged s s') (second : Rearranged s' s'') :
    Rearranged s s'' := by
  intro i
  have before := first i
  have after := second i
  cases middle : s'.clause? i with
  | none =>
    rw [middle] at before after
    cases found : s.clause? i with
    | none => rwa [found] at before
    | some c => rw [found] at before; cases before
  | some c' =>
    obtain ⟨c, found, same⟩ := first.backward middle
    obtain ⟨c'', found', same'⟩ := second.forward middle
    rw [found, found']
    exact .some (same.trans same')

/-- The same slots are free on both sides. -/
theorem Rearranged.eq_none_iff (same : Rearranged s s') :
    s'.clause? i = none ↔ s.clause? i = none := by
  constructor
  · intro absent
    by_contra present
    obtain ⟨c, found⟩ := Option.ne_none_iff_exists'.mp present
    obtain ⟨c', found', -⟩ := same.forward found
    rw [absent] at found'
    cases found'
  · intro absent
    by_contra present
    obtain ⟨c', found'⟩ := Option.ne_none_iff_exists'.mp present
    obtain ⟨c, found, -⟩ := same.backward found'
    rw [absent] at found
    cases found

theorem Rearranged.symm (same : Rearranged s s') : Rearranged s' s := by
  intro i
  cases found : s.clause? i with
  | none =>
    rw [same.eq_none_iff.mpr found]
    exact .none
  | some c =>
    obtain ⟨c', found', rearranged⟩ := same.forward found
    rw [found']
    exact .some rearranged.symm

theorem Rearranged.learned_iff (same : Rearranged s s') :
    (∃ c, s'.clause? i = some c ∧ c.isLearned = true) ↔
      ∃ c, s.clause? i = some c ∧ c.isLearned = true := by
  constructor
  · rintro ⟨c', found', learned⟩
    obtain ⟨c, found, same⟩ := same.backward found'
    exact ⟨c, found, same.isLearned_eq ▸ learned⟩
  · rintro ⟨c, found, learned⟩
    obtain ⟨c', found', same⟩ := same.forward found
    exact ⟨c', found', same.isLearned_eq ▸ learned⟩

/-- A store in which one clause changed is rearranged if that clause is. -/
theorem Rearranged.of_changed (found : s.clause? index = some c) (same : Clause.Rearranged c c')
    (clauses : ∀ j, s'.clause? j = if j = index then some c' else s.clause? j) :
    Rearranged s s' := by
  intro i
  rw [clauses]
  split
  · rename_i here
    rw [here, found]
    exact .some same
  · exact Rearranged.refl s i

/-- What holds of all clauses, and of one clause that is put in at an index, holds
of all clauses afterwards. -/
theorem holds_of_changed {s s' : ClauseStore} {P : Clause → Prop}
    (holds : ∀ i c, s.clause? i = some c → P c) (changed : P c)
    (clauses : ∀ j, s'.clause? j = if j = index then some c else s.clause? j) :
    ∀ i c, s'.clause? i = some c → P c := by
  intro i d living
  rw [clauses] at living
  split at living
  · cases living
    exact changed
  · exact holds i d living

theorem lt_of_clause? {s : ClauseStore} (found : s.clause? i = some c) : i < s.slots.size := by
  by_cases bound : i < s.slots.size
  · exact bound
  · rw [clause?, Array.getElem?_eq_none (Nat.le_of_not_lt bound)] at found
    cases found

variable {s : ClauseStore} {n : Nat}

/-- The living clauses are those in the slots, one by one. -/
theorem clauses_eq_filterMap (s : ClauseStore) :
    s.clauses = (List.range s.capacity).filterMap s.clause? := by
  have slots : s.slots.toList = (List.range s.slots.size).map s.clause? := by
    apply List.ext_getElem
    · simp
    · intro i first second
      have bound : i < s.slots.size := by simpa using first
      simp [clause?, bound]
  rw [clauses, slots, List.filterMap_map]
  rfl

theorem mem_clauses_iff : c ∈ s.clauses ↔ ∃ i, s.clause? i = some c := by
  rw [clauses_eq_filterMap, List.mem_filterMap]
  constructor
  · rintro ⟨i, -, living⟩
    exact ⟨i, living⟩
  · rintro ⟨i, living⟩
    exact ⟨i, List.mem_range.mpr (lt_of_clause? living), living⟩

theorem clause?_replace_of_clause? (found : s.clause? i = some c) :
    (s.replace i c').clause? j = if j = i then some c' else s.clause? j :=
  clause?_replace (lt_of_clause? found)

theorem Filed.covers (filed : s.Filed n) (found : s.clause? i = some c) (member : l ∈ c.literals) :
    s.watchers.Covers l :=
  (Watchers.covers_iff filed.sized).mpr ((filed.storable i c found).declared l member)

/-- The list of learned clauses is no part of what is filed. -/
theorem Filed.relearned (filed : s.Filed n) (learned : List Nat) :
    Filed { s with learned := learned } n :=
  ⟨filed.storable, filed.spare, filed.spareOnce, filed.sized, filed.listed, filed.listedOnce⟩

theorem Filed.not_listed (filed : s.Filed n) (absent : s.clause? i = none) :
    i ∉ s.watchers.of l := by
  intro member
  obtain ⟨c, found, -⟩ := (filed.listed l i).mp member
  rw [absent] at found
  cases found

theorem empty_consistent (n : Nat) : (empty n).Consistent n where
  storable := by simp [clause?, empty]
  spare := by simp [empty]
  spareOnce := by simp [empty]
  sized := by simp [empty, Watchers.empty]
  listed := by
    intro l i
    simp [clause?, empty, Watchers.of_empty]
  listedOnce := by
    intro l
    simp [empty, Watchers.of_empty]
  learned := by simp [clause?, empty]
  learnedOnce := by simp [empty]
  proper := by simp [clause?, empty]

/-! ## Storing -/

theorem clause?_place (filed : s.Filed n) (c : Clause) :
    (s.place c).2.clause? j = if j = (s.place c).1 then some c else s.clause? j := by
  unfold place
  split
  · rename_i index rest spare
    have bound := ((filed.spare index).mp (by simp [spare])).1
    exact clause?_replace bound
  · simp only [clause?, Array.getElem?_push]
    by_cases new : j = s.slots.size <;> simp [new]

/-- A clause is placed where none lives. -/
theorem clause?_place_eq_none (filed : s.Filed n) (c : Clause) :
    s.clause? (s.place c).1 = none := by
  unfold place
  split
  · rename_i index rest spare
    exact ((filed.spare index).mp (by simp [spare])).2
  · simp [clause?]

theorem place_spare (filed : s.Filed n) (c : Clause) :
    (∀ i, i ∈ (s.place c).2.free ↔
      i < (s.place c).2.slots.size ∧ (s.place c).2.clause? i = none) ∧
    (s.place c).2.free.Nodup := by
  have slots := fun j => clause?_place (j := j) filed c
  unfold place at slots ⊢
  split at slots
  · rename_i index rest spare
    have once := filed.spareOnce
    rw [spare, List.nodup_cons] at once
    refine ⟨fun i => ?_, once.2⟩
    have before := filed.spare i
    rw [slots]
    simp only [spare, List.mem_cons] at before ⊢
    by_cases same : i = index
    · subst same
      simp [once.1]
    · simpa [same] using before
  · rename_i spare
    refine ⟨fun i => ?_, filed.spareOnce⟩
    have before := filed.spare i
    rw [slots]
    simp only [spare, List.not_mem_nil, false_iff, Array.size_push] at before ⊢
    by_cases same : i = s.slots.size
    · simp [same]
    · simp only [same, if_false]
      rintro ⟨bound, absent⟩
      exact before ⟨by omega, absent⟩

theorem watchers_place (s : ClauseStore) (c : Clause) : (s.place c).2.watchers = s.watchers := by
  unfold place
  split <;> rfl

theorem learned_place (s : ClauseStore) (c : Clause) : (s.place c).2.learned = s.learned := by
  unfold place
  split <;> rfl

/-- Storing a clause changes the slots as placing it does, and lists it if it is learned. -/
theorem placed_of_insert (stored : s.insert c = .ok (index, t)) :
    index = (s.place c).1 ∧ t.slots = (s.place c).2.slots ∧ t.free = (s.place c).2.free ∧
      t.learned = s.learned ++ if c.isLearned then [index] else [] := by
  have sameLearned := learned_place s c
  unfold insert at stored
  split at stored
  · cases stored
  · generalize s.place c = placed at *
    obtain ⟨i, u⟩ := placed
    simp only at stored sameLearned ⊢
    split at stored
    · cases stored
    · cases stored
      cases c.isLearned <;> simp [sameLearned]

/-- Storing a clause succeeds, at an index where no clause lived, and changes no
other clause. -/
theorem insert_inStep (inStep : s.InStep n) (storable : c.Storable n) :
    ∃ index s', s.insert c = .ok (index, s') ∧ s'.InStep n ∧ s.clause? index = none ∧
      ∀ j, s'.clause? j = if j = index then some c else s.clause? j := by
  have filed := inStep.toFiled
  have slots := fun j => clause?_place (j := j) filed c
  have absent := clause?_place_eq_none filed c
  obtain ⟨spare, spareOnce⟩ := place_spare filed c
  have sameWatchers := watchers_place s c
  have sameLearned := learned_place s c
  have notLearned : (s.place c).1 ∉ s.learned := by
    intro member
    obtain ⟨c', found, -⟩ := (inStep.learned _).mp member
    rw [absent] at found
    cases found
  unfold insert
  rw [if_neg storable.ne_nil]
  generalize s.place c = placed at *
  obtain ⟨index, t⟩ := placed
  simp only at slots absent spare spareOnce sameWatchers sameLearned notLearned ⊢
  obtain ⟨w, watched, sized, lists⟩ := Watchers.watch_all c.watched s.watchers
    storable.watched_nodup
    (fun l member => (Watchers.covers_iff inStep.sized).mpr
      (storable.declared l (Clause.mem_of_mem_watched member)))
    (fun l _ => filed.not_listed absent)
  have learnedApart : (if c.isLearned = true then { t with learned := t.learned ++ [index] } else t)
      = { t with learned := if c.isLearned = true then s.learned ++ [index] else s.learned } := by
    rw [← sameLearned]
    split <;> rfl
  rw [learnedApart, sameWatchers, watched]
  refine ⟨_, _, rfl, ?_, absent, slots⟩
  -- the new clause is the only one at its index, and no list knows the index yet
  exact {
    storable := holds_of_changed inStep.storable storable slots
    spare := spare
    spareOnce := spareOnce
    sized := sized.trans inStep.sized
    listed := by
      intro l i
      change i ∈ w.of l ↔ ∃ c', t.clause? i = some c' ∧ l ∈ c'.watched
      rw [lists, slots]
      have before := inStep.listed l i
      have notListed := filed.not_listed (l := l) absent
      by_cases here : i = index
      · subst here
        by_cases member : l ∈ c.watched <;> simp [member, notListed]
      · by_cases member : l ∈ c.watched <;> simp [member, here, before]
    listedOnce := by
      intro l
      change (w.of l).Nodup
      rw [lists]
      split
      · apply (inStep.listedOnce l).append (List.nodup_singleton _)
        exact List.disjoint_singleton.mpr (filed.not_listed absent)
      · exact inStep.listedOnce l
    learned := by
      intro i
      change (i ∈ if c.isLearned = true then s.learned ++ [index] else s.learned) ↔
        ∃ c', t.clause? i = some c' ∧ c'.isLearned = true
      rw [slots]
      have before := inStep.learned i
      by_cases here : i = index
      · subst here
        by_cases learned : c.isLearned = true <;> simp [learned, notLearned]
      · by_cases learned : c.isLearned = true <;> simp [learned, here, before]
    learnedOnce := by
      change (if c.isLearned = true then s.learned ++ [index] else s.learned).Nodup
      split
      · apply inStep.learnedOnce.append (List.nodup_singleton _)
        exact List.disjoint_singleton.mpr notLearned
      · exact inStep.learnedOnce }

/-- Storing a proper clause leaves only proper clauses. -/
theorem insert_consistent (consistent : s.Consistent n) (proper : c.Proper n) :
    ∃ index s', s.insert c = .ok (index, s') ∧ s'.Consistent n ∧ s.clause? index = none ∧
      ∀ j, s'.clause? j = if j = index then some c else s.clause? j := by
  obtain ⟨index, s', stored, inStep, absent, slots⟩ :=
    insert_inStep consistent.toInStep proper.storable
  exact ⟨index, s', stored, ⟨inStep, holds_of_changed consistent.proper proper slots⟩, absent,
    slots⟩

/-! ## Deleting -/

theorem clause?_delete (found : s.clause? i = some c) :
    (s.delete i).clause? j = if j = i then none else s.clause? j := by
  have bound := lt_of_clause? found
  unfold delete
  rw [found]
  simp only [clause?, Array.getElem?_setIfInBounds]
  by_cases same : j = i
  · subst same; simp [bound]
  · simp [same, Ne.symm same]

theorem delete_filed (filed : s.Filed n) (found : s.clause? i = some c) :
    (s.delete i).Filed n := by
  have slots := fun j => clause?_delete (j := j) found
  have storable := filed.storable i c found
  have lists : ∀ l, (s.delete i).watchers.of l
      = if l ∈ c.watched then Watchers.removeFirst i (s.watchers.of l) else s.watchers.of l := by
    intro l
    unfold delete
    rw [found]
    exact Watchers.of_remove_all c.watched s.watchers storable.watched_nodup
      fun l member => filed.covers found (Clause.mem_of_mem_watched member)
  have free : (s.delete i).free = i :: s.free := by
    unfold delete
    rw [found]
  have size : (s.delete i).slots.size = s.slots.size := by
    unfold delete
    rw [found]
    simp
  exact {
    storable := by
      intro j c' living
      rw [slots] at living
      split at living
      · cases living
      · exact filed.storable j c' living
    spare := by
      intro j
      rw [free, size, slots, List.mem_cons, filed.spare]
      by_cases same : j = i
      · subst same
        simp [lt_of_clause? found]
      · simp [same]
    spareOnce := by
      rw [free, List.nodup_cons]
      refine ⟨fun member => ?_, filed.spareOnce⟩
      have absent := ((filed.spare i).mp member).2
      rw [found] at absent
      cases absent
    sized := by
      unfold delete
      rw [found]
      exact (Watchers.size_remove_all _ _).trans filed.sized
    listed := by
      intro l j
      rw [lists, slots]
      have before := filed.listed l j
      by_cases same : j = i
      · subst same
        rw [if_pos rfl]
        split
        · rw [Watchers.mem_removeFirst_iff (filed.listedOnce l)]
          simp
        · rename_i unwatched
          rw [before, found]
          simp [unwatched]
      · rw [if_neg same]
        split
        · rw [Watchers.mem_removeFirst_iff (filed.listedOnce l), before]
          simp [same]
        · exact before
    listedOnce := by
      intro l
      rw [lists]
      split
      · exact Watchers.removeFirst_nodup (filed.listedOnce l)
      · exact filed.listedOnce l }

/-- Deleting keeps the slots and the lists in step, also where no clause lives. -/
theorem Filed.delete (filed : s.Filed n) (i : Nat) : (s.delete i).Filed n := by
  cases found : s.clause? i with
  | none =>
    rw [ClauseStore.delete, found]
    exact filed
  | some c => exact delete_filed filed found

theorem Filed.delete_all (filed : s.Filed n) (doomed : List Nat) :
    (doomed.foldl ClauseStore.delete s).Filed n := by
  induction doomed generalizing s with
  | nil => exact filed
  | cons first rest ih => exact ih (filed.delete first)

/-- What no deletion changes stays through several. -/
theorem delete_all_eq {f : ClauseStore → α} (same : ∀ s i, f (s.delete i) = f s)
    (doomed : List Nat) (s : ClauseStore) : f (doomed.foldl delete s) = f s := by
  induction doomed generalizing s with
  | nil => rfl
  | cons first rest ih => exact (ih (s.delete first)).trans (same s first)

theorem capacity_delete (s : ClauseStore) (i : Nat) : (s.delete i).capacity = s.capacity := by
  unfold delete capacity
  split <;> simp

theorem learned_delete (s : ClauseStore) (i : Nat) : (s.delete i).learned = s.learned := by
  unfold delete
  split <;> rfl

/-- Deleting several clauses leaves all others as they were. -/
theorem clause?_delete_all (doomed : List Nat) (distinct : doomed.Nodup)
    (living : ∀ i ∈ doomed, ∃ c, s.clause? i = some c) (j : Nat) :
    (doomed.foldl delete s).clause? j = if j ∈ doomed then none else s.clause? j := by
  induction doomed generalizing s with
  | nil => simp
  | cons first rest ih =>
    obtain ⟨notAgain, distinct⟩ := List.nodup_cons.mp distinct
    obtain ⟨c, found⟩ := living first (by simp)
    have slots := fun j => clause?_delete (j := j) found
    have stillLiving : ∀ i ∈ rest, ∃ c, (s.delete first).clause? i = some c := by
      intro i member
      rw [slots, if_neg]
      · exact living i (by simp [member])
      · rintro rfl
        exact notAgain member
    rw [List.foldl_cons, ih distinct stillLiving, slots]
    by_cases here : j = first
    · subst here
      simp
    · simp [here]

theorem holdsAt_of_clause? (found : s.clause? i = some c) (p : Clause → Bool) :
    s.holdsAt p i = p c := by
  simp [holdsAt, found]

/-- The clauses that pruning deletes. -/
theorem mem_prune_iff (inStep : s.InStep n) (keep : Clause → Bool) :
    i ∈ (s.prune keep).1 ↔
      ∃ c, s.clause? i = some c ∧ c.isLearned = true ∧ keep c = false := by
  simp only [prune, List.mem_filter]
  constructor
  · rintro ⟨member, rejected⟩
    obtain ⟨c, found, learned⟩ := (inStep.learned i).mp member
    rw [holdsAt_of_clause? found] at rejected
    exact ⟨c, found, learned, by simpa using rejected⟩
  · rintro ⟨c, found, learned, rejected⟩
    refine ⟨(inStep.learned i).mpr ⟨c, found, learned⟩, ?_⟩
    rw [holdsAt_of_clause? found]
    simpa using rejected

theorem learned_prune (s : ClauseStore) (keep : Clause → Bool) :
    (s.prune keep).2.learned = s.learned.filter (s.holdsAt keep) :=
  delete_all_eq learned_delete _ _

theorem capacity_prune (s : ClauseStore) (keep : Clause → Bool) :
    (s.prune keep).2.capacity = s.capacity :=
  delete_all_eq capacity_delete _ _

/-- Pruning deletes exactly the learned clauses that are not to be kept. -/
theorem clause?_prune (inStep : s.InStep n) (keep : Clause → Bool) (j : Nat) :
    (s.prune keep).2.clause? j = (s.clause? j).filter fun c => !c.isLearned || keep c := by
  let t : ClauseStore := { s with learned := s.learned.filter (s.holdsAt keep) }
  have doomed : ∀ i ∈ (s.prune keep).1, ∃ c, t.clause? i = some c := by
    intro i member
    obtain ⟨c, found, -⟩ := (mem_prune_iff inStep keep).mp member
    exact ⟨c, found⟩
  have clauses : (s.prune keep).2.clause? j
      = if j ∈ (s.prune keep).1 then none else s.clause? j :=
    clause?_delete_all (s.prune keep).1 (inStep.learnedOnce.filter _) doomed j
  rw [clauses]
  simp only [mem_prune_iff inStep keep]
  cases found : s.clause? j with
  | none => simp
  | some c => by_cases learned : c.isLearned = true <;> by_cases kept : keep c = true <;>
      simp [Option.filter_some, learned, kept]

theorem prune_inStep (inStep : s.InStep n) (keep : Clause → Bool) :
    (s.prune keep).2.InStep n where
  toFiled := (inStep.toFiled.relearned _).delete_all (s.prune keep).1
  learned := by
    intro i
    rw [learned_prune, clause?_prune inStep, List.mem_filter]
    constructor
    · rintro ⟨member, kept⟩
      obtain ⟨c, found, isLearned⟩ := (inStep.learned i).mp member
      rw [holdsAt_of_clause? found] at kept
      exact ⟨c, by simp [found, kept], isLearned⟩
    · rintro ⟨c, found, isLearned⟩
      obtain ⟨found, kept⟩ := Option.filter_eq_some_iff.mp found
      refine ⟨(inStep.learned i).mpr ⟨c, found, isLearned⟩, ?_⟩
      rw [holdsAt_of_clause? found]
      simpa [isLearned] using kept
  learnedOnce := by
    rw [learned_prune]
    exact inStep.learnedOnce.filter _

theorem prune_consistent (consistent : s.Consistent n) (keep : Clause → Bool) :
    (s.prune keep).2.Consistent n ∧
      ∀ j, (s.prune keep).2.clause? j
        = (s.clause? j).filter fun c => !c.isLearned || keep c := by
  have clauses := clause?_prune consistent.toInStep keep
  refine ⟨⟨prune_inStep consistent.toInStep keep, fun i c living => ?_⟩, clauses⟩
  rw [clauses] at living
  exact consistent.proper i c (Option.filter_eq_some_iff.mp living).1

theorem of_clause?_prune (consistent : s.Consistent n)
    (living : (s.prune keep).2.clause? i = some c) : s.clause? i = some c := by
  rw [(prune_consistent consistent keep).2] at living
  exact (Option.filter_eq_some_iff.mp living).1

/-- A clause that pruning does not delete lives on. -/
theorem clause?_prune_of_notMem (consistent : s.Consistent n) (living : s.clause? i = some c)
    (kept : i ∉ (s.prune keep).1) : (s.prune keep).2.clause? i = some c := by
  have passes : c.isLearned = false ∨ keep c = true := by
    by_contra fails
    rw [not_or, Bool.not_eq_false, Bool.not_eq_true] at fails
    exact kept ((mem_prune_iff consistent.toInStep keep).mpr ⟨c, living, fails⟩)
  rw [(prune_consistent consistent keep).2, living, Option.filter_some, if_pos]
  rcases passes with input | kept
  · simp [input]
  · simp [kept]

/-- Clauses of the formula are never deleted. -/
theorem clause?_prune_of_input (consistent : s.Consistent n) (living : s.clause? i = some c)
    (input : c.isLearned = false) : (s.prune keep).2.clause? i = some c := by
  refine clause?_prune_of_notMem consistent living fun doomed => ?_
  obtain ⟨d, living', learned, -⟩ := (mem_prune_iff consistent.toInStep keep).mp doomed
  cases living.symm.trans living'
  rw [input] at learned
  cases learned

end ClauseStore

end ClauseLearning
