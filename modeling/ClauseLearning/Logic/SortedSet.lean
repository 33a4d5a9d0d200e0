/-!
Finite sets as lists that increase strictly in an order given by a Boolean test. Inserting an
element that is there already changes nothing, so a list built by insertion has no repetitions.
-/

namespace ClauseLearning.SortedSet

/-- The set with one more element. -/
def insert (before : α → α → Bool) (x : α) : List α → List α
  | [] => [x]
  | y :: rest =>
    if before x y then x :: y :: rest
    else if before y x then y :: insert before x rest
    else y :: rest

/-- The set of the elements of a list. -/
def ofList (before : α → α → Bool) (xs : List α) : List α :=
  xs.foldr (insert before) []

/-- Insertion adds the element and no other, if only equal elements are unordered. -/
theorem mem_insert {before : α → α → Bool} {x y : α} {xs : List α}
    (connected : ∀ a b, before a b = false → before b a = false → a = b) :
    y ∈ insert before x xs ↔ y = x ∨ y ∈ xs := by
  fun_induction insert before x xs with
  | case1 => simp
  | case2 => simp
  | case3 z rest _ _ ih => rw [List.mem_cons, ih, List.mem_cons]; grind
  | case4 z rest hxz hzx =>
    have := connected x z (by simpa using hxz) (by simpa using hzx)
    subst this
    simp

end ClauseLearning.SortedSet
