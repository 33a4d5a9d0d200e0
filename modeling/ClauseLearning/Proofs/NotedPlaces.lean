import Mathlib.Data.List.Basic
import ClauseLearning.Branching.Activity

/-! A list with the place of each element beside it. Noting the places of a list gives each of its
literals the right one, and climbing keeps all of them right: while a literal is on its way up, only
its own place is out of date. Where it stops is where a stable sort puts the last element of a list
that is sorted up to there. -/
namespace ClauseLearning

/-- What comes before an element that is listed once stands in the part before it. -/
theorem mem_of_pair_sublist {before after : List α} {x y : α} (nodup : (before ++ x :: after).Nodup)
    (pair : [y, x].Sublist (before ++ x :: after)) : y ∈ before := by
  obtain ⟨-, unique, apart⟩ := List.nodup_append.mp nodup
  have once : x ∉ after := (List.nodup_cons.mp unique).1
  obtain ⟨left, right, split, early, late⟩ := List.sublist_append_iff.mp pair
  cases left with
  | cons z left =>
    obtain rfl : y = z := (List.cons.inj split).1
    exact early.subset List.mem_cons_self
  | nil =>
    obtain rfl : [y, x] = right := split
    rcases List.cons_sublist_cons'.mp late with later | ⟨rfl, later⟩
    · exact absurd (later.subset (List.mem_cons_of_mem y List.mem_cons_self)) once
    · exact absurd (later.subset List.mem_cons_self) once

/-- Sorting a list that is sorted but for its last element puts this one right behind those that
it does not precede. -/
theorem mergeSort_concat {le : α → α → Bool} {xs : List α} {x : α}
    (trans : ∀ a b c, le a b = true → le b c = true → le a c = true)
    (total : ∀ a b, (le a b || le b a) = true) (sorted : xs.Pairwise (le · · = true))
    (distinct : (xs ++ [x]).Nodup) :
    (xs ++ [x]).mergeSort le = xs.takeWhile (le · x) ++ x :: xs.dropWhile (le · x) := by
  have perm := List.mergeSort_perm (xs ++ [x]) le
  have ordered := List.pairwise_mergeSort trans total (xs ++ [x])
  have keeps : xs.Sublist ((xs ++ [x]).mergeSort le) :=
    List.sublist_mergeSort trans total sorted (List.sublist_append_left xs [x])
  have stable : ∀ y ∈ xs, le y x = true → [y, x].Sublist ((xs ++ [x]).mergeSort le) :=
    fun y member atMost => List.pair_sublist_mergeSort trans total atMost
      ((List.singleton_sublist.mpr member).append (List.Sublist.refl [x]))
  obtain ⟨before, after, shape⟩ :=
    List.append_of_mem (perm.mem_iff.mpr (List.mem_append_right xs (List.mem_singleton_self x)))
  rw [shape] at perm ordered keeps stable ⊢
  have fresh : x ∉ xs := fun member =>
    List.nodup_append.mp distinct |>.2.2 x member x (List.mem_singleton_self x) rfl
  have nodup := perm.nodup_iff.mpr distinct
  have rest : xs = before ++ after := by
    obtain ⟨left, right, rfl, early, late⟩ := List.sublist_append_iff.mp keeps
    rcases List.sublist_cons_iff.mp late with late | ⟨right, rfl, -⟩
    · refine (early.append late).eq_of_length ?_
      have lengths := perm.length_eq
      simp only [List.length_append, List.length_cons, List.length_nil] at lengths ⊢
      omega
    · exact absurd (List.mem_append_right left List.mem_cons_self) fresh
  subst rest
  have passed : ∀ y ∈ before, le y x = true := fun y member =>
    (List.pairwise_append.mp ordered).2.2 y member x List.mem_cons_self
  have stops : ∀ y ∈ after, ¬ le y x = true := by
    intro y member atMost
    have early := mem_of_pair_sublist nodup (stable y (List.mem_append_right before member) atMost)
    exact (List.nodup_append.mp nodup).2.2 y early y (List.mem_cons_of_mem x member) rfl
  rw [List.takeWhile_append_of_pos passed, List.dropWhile_append_of_pos passed]
  cases after with
  | nil => simp
  | cons y after => simp [stops y List.mem_cons_self]

namespace Activity

/-! ## Climbing -/

/-- Each listed literal has its place noted. -/
def Placed (order : List Literal) (positions : Array Nat) : Prop :=
  ∀ (i : Nat) (l : Literal), order[i]? = some l → positions[l.code]? = some i

/-- A literal on its way up: it stands between two parts of the order, and the places of all
others are right. -/
structure Climbing (l : Literal) (before above : List Literal) (order : Array Literal)
    (positions : Array Nat) : Prop where
  shape : order.toList = before ++ l :: above
  distinct : order.toList.Nodup
  placed : ∀ (i : Nat) (x : Literal), order.toList[i]? = some x → x ≠ l →
    positions[x.code]? = some i
  inside : l.code < positions.size

variable {order : Array Literal} {positions : Array Nat} {l next : Literal}
  {before above : List Literal}

theorem index_unique {xs : List Literal} (distinct : xs.Nodup) {i j : Nat}
    (first : xs[i]? = some l) (second : xs[j]? = some l) : i = j :=
  (List.getElem?_inj (List.getElem?_eq_some_iff.mp first).1 distinct).mp (first.trans second.symm)

theorem Climbing.stop (climbing : Climbing l before above order positions) :
    Placed order.toList (positions.setIfInBounds l.code before.length) := by
  intro i x here
  by_cases same : x = l
  · subst same
    have place : order.toList[before.length]? = some x := by simp [climbing.shape]
    rw [index_unique climbing.distinct here place, Array.getElem?_setIfInBounds_self,
      if_pos climbing.inside]
  · have other : l.code ≠ x.code := fun codes => same (Literal.code_inj.mp codes.symm)
    rw [Array.getElem?_setIfInBounds_ne other]
    exact climbing.placed i x here same

theorem Climbing.lt_size (climbing : Climbing l before (next :: above) order positions) :
    before.length + 1 < order.size := by
  rw [← Array.length_toList, climbing.shape]
  simp

theorem Climbing.getElem_next (climbing : Climbing l before (next :: above) order positions)
    (bound : before.length + 1 < order.size) : order[before.length + 1] = next := by
  rw [← Array.getElem_toList]
  simp [climbing.shape]

theorem Climbing.swap_toList (climbing : Climbing l before (next :: above) order positions) :
    (order.swap before.length (before.length + 1) (Nat.lt_of_succ_lt climbing.lt_size)
      climbing.lt_size).toList = (before ++ [next]) ++ l :: above := by
  obtain ⟨order⟩ := order
  obtain rfl : order = before ++ l :: next :: above := climbing.shape
  simp [Array.swap]

/-- Where two neighbours change places all others stay. -/
theorem getElem?_of_swapped {i : Nat} {x : Literal}
    (here : (before ++ next :: l :: above)[i]? = some x)
    (other : x ≠ next) (other' : x ≠ l) : (before ++ l :: next :: above)[i]? = some x := by
  rcases Nat.lt_or_ge i before.length with early | late
  · rw [List.getElem?_append_left early] at here ⊢
    exact here
  · rw [List.getElem?_append_right late] at here ⊢
    match i - before.length, here with
    | 0, here => exact absurd (Option.some.inj here).symm other
    | 1, here => exact absurd (Option.some.inj here).symm other'
    | _ + 2, here => exact here

/-- Past its upper neighbour the literal still climbs, and the neighbour's new place is noted. -/
theorem Climbing.swap (climbing : Climbing l before (next :: above) order positions) :
    Climbing l (before ++ [next]) above
      (order.swap before.length (before.length + 1) (Nat.lt_of_succ_lt climbing.lt_size)
        climbing.lt_size)
      (positions.setIfInBounds next.code before.length) := by
  have swapped := climbing.swap_toList
  have distinct := (Array.swap_perm (Nat.lt_of_succ_lt climbing.lt_size)
    climbing.lt_size).toList.nodup_iff.mpr climbing.distinct
  have other : next ≠ l := by
    have parts := (List.nodup_append.mp (climbing.shape ▸ climbing.distinct)).2.1
    rintro rfl
    exact (List.nodup_cons.mp parts).1 List.mem_cons_self
  have place : order.toList[before.length + 1]? = some next := by simp [climbing.shape]
  have inside := climbing.placed _ _ place other
  refine { shape := swapped, distinct := distinct, placed := ?_, inside := ?_ }
  · intro i x here apart
    rw [swapped] at here distinct
    by_cases same : x = next
    · subst same
      have place' : ((before ++ [x]) ++ l :: above)[before.length]? = some x := by simp
      rw [index_unique distinct here place', Array.getElem?_setIfInBounds_self,
        if_pos (Array.getElem?_eq_some_iff.mp inside).1]
    · have codes : next.code ≠ x.code := fun codes => same (Literal.code_inj.mp codes.symm)
      rw [List.append_assoc] at here
      rw [Array.getElem?_setIfInBounds_ne codes]
      exact climbing.placed i x (climbing.shape ▸ getElem?_of_swapped here same apart) apart
  · rw [Array.size_setIfInBounds]
    exact climbing.inside

/-- A climbing literal comes to stand right behind those above it that it passes, and then all
places are right. -/
theorem Climbing.climb (passes : Literal → Bool)
    (climbing : Climbing l before above order positions) :
    (climb passes l before.length order positions).1.toList
        = before ++ above.takeWhile passes ++ l :: above.dropWhile passes ∧
      Placed (Activity.climb passes l before.length order positions).1.toList
        (Activity.climb passes l before.length order positions).2 := by
  induction above generalizing before order positions with
  | nil =>
    have last : ¬ before.length + 1 < order.size := by
      rw [← Array.length_toList, climbing.shape]
      simp
    unfold Activity.climb
    rw [dif_neg last]
    exact ⟨by simpa using climbing.shape, climbing.stop⟩
  | cons next above ih =>
    have bound := climbing.lt_size
    unfold Activity.climb
    simp only [dif_pos bound, climbing.getElem_next bound]
    by_cases passed : passes next = true
    · rw [if_pos passed]
      have rest := ih climbing.swap
      rw [List.length_append, List.length_singleton] at rest
      simpa [passed] using rest
    · rw [if_neg passed]
      exact ⟨by simpa [passed] using climbing.shape, climbing.stop⟩

theorem getElem?_notePlaces_of_notMem {order : List Literal} {l : Literal} (absent : l ∉ order)
    (first : Nat) (positions : Array Nat) :
    (notePlaces order first positions)[l.code]? = positions[l.code]? := by
  induction order generalizing first positions with
  | nil => rfl
  | cons x order ih =>
    obtain ⟨other, absent⟩ := not_or.mp (List.mem_cons.not.mp absent)
    have codes : x.code ≠ l.code := fun same => other (Literal.code_inj.mp same.symm)
    exact (ih absent (first + 1) _).trans (Array.getElem?_setIfInBounds_ne codes)

theorem getElem?_notePlaces {order : List Literal} {i : Nat} {l : Literal} (distinct : order.Nodup)
    (first : Nat) (positions : Array Nat) (inside : ∀ x ∈ order, x.code < positions.size)
    (here : order[i]? = some l) :
    (notePlaces order first positions)[l.code]? = some (first + i) := by
  induction order generalizing first positions i with
  | nil => cases here
  | cons x order ih =>
    obtain ⟨absent, distinct⟩ := List.nodup_cons.mp distinct
    obtain ⟨bound, inside⟩ := List.forall_mem_cons.mp inside
    cases i with
    | zero =>
      obtain rfl : x = l := Option.some.inj here
      refine (getElem?_notePlaces_of_notMem absent (first + 1) _).trans ?_
      rw [Array.getElem?_setIfInBounds_self, if_pos bound, Nat.add_zero]
    | succ i =>
      refine (ih distinct (first + 1) _ ?_ here).trans (by rw [Nat.add_right_comm, Nat.add_assoc])
      simpa using inside

end Activity

end ClauseLearning
