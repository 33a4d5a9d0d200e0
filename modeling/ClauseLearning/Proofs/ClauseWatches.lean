import Mathlib.Data.List.Nodup
import Mathlib.Data.List.Perm.Basic
import ClauseLearning.Search.Clause

/-! Reconsidering a clause permutes its literals and gives up at most the watch
on the literal that became false. What it comes to is told here in terms of the
values of the literals alone; the order of the literals does not matter. -/
namespace ClauseLearning.Clause

/-- What the store asks of a clause: there is a literal, every literal is over a
declared variable, and no literal occurs twice. -/
structure Storable (c : Clause) (numVariables : Nat) : Prop where
  ne_nil : c.literals ≠ []
  declared : ∀ l ∈ c.literals, l.var < numVariables
  distinct : c.literals.Nodup

instance (c : Clause) (numVariables : Nat) : Decidable (c.Storable numVariables) :=
  decidable_of_iff
    (c.literals ≠ [] ∧ (∀ l ∈ c.literals, l.var < numVariables) ∧ c.literals.Nodup)
    ⟨fun ⟨ne_nil, declared, distinct⟩ => ⟨ne_nil, declared, distinct⟩,
      fun ⟨ne_nil, declared, distinct⟩ => ⟨ne_nil, declared, distinct⟩⟩

/-- What the search relies on in each of its clauses: there is a literal, every
literal is over a declared variable, and no variable occurs twice. -/
structure Proper (c : Clause) (numVariables : Nat) : Prop where
  ne_nil : c.literals ≠ []
  declared : ∀ l ∈ c.literals, l.var < numVariables
  distinct : (c.literals.map Literal.var).Nodup

/-- The same clause up to the order of its literals. -/
structure Rearranged (c c' : Clause) : Prop where
  perm : c.literals.Perm c'.literals
  origin : c.origin = c'.origin

theorem Rearranged.refl (c : Clause) : Rearranged c c := ⟨.refl _, rfl⟩

theorem Rearranged.symm (same : Rearranged c c') : Rearranged c' c :=
  ⟨same.perm.symm, same.origin.symm⟩

theorem Rearranged.trans (first : Rearranged c c') (second : Rearranged c' c'') :
    Rearranged c c'' :=
  ⟨first.perm.trans second.perm, first.origin.trans second.origin⟩

theorem Rearranged.mem_iff (same : Rearranged c c') : l ∈ c.literals ↔ l ∈ c'.literals :=
  same.perm.mem_iff

theorem Rearranged.isLearned_eq (same : Rearranged c c') : c.isLearned = c'.isLearned := by
  unfold isLearned
  rw [same.origin]

theorem Rearranged.eq_singleton_iff (same : Rearranged c c') :
    c.literals = [l] ↔ c'.literals = [l] := by
  constructor
  · intro single
    exact List.perm_singleton.mp (single ▸ same.perm.symm)
  · intro single
    exact List.perm_singleton.mp (single ▸ same.perm)

theorem Rearranged.proper (same : Rearranged c c') (proper : c.Proper n) : c'.Proper n where
  ne_nil := by
    intro empty
    exact proper.ne_nil (List.perm_nil.mp (empty ▸ same.perm))
  declared := fun l member => proper.declared l (same.mem_iff.mpr member)
  distinct := (same.perm.map Literal.var).nodup_iff.mp proper.distinct

theorem mem_of_mem_watched {c : Clause} (member : l ∈ c.watched) : l ∈ c.literals :=
  List.mem_of_mem_take member

theorem Proper.nodup (proper : Proper c n) : c.literals.Nodup :=
  List.Nodup.of_map _ proper.distinct

theorem Proper.storable (proper : Proper c n) : c.Storable n :=
  ⟨proper.ne_nil, proper.declared, proper.nodup⟩

theorem Storable.watched_nodup (storable : Storable c n) : c.watched.Nodup :=
  storable.distinct.sublist (List.take_sublist 2 _)

/-- Unless a literal is alone in its clause, the clause watches another one. -/
theorem Proper.eq_singleton_or_watches (proper : Proper c n) (member : l ∈ c.literals) :
    c.literals = [l] ∨ ∃ w ∈ c.watched, w ≠ l := by
  have distinct := proper.nodup
  unfold watched
  cases shape : c.literals with
  | nil =>
    rw [shape] at member
    cases member
  | cons first rest =>
    cases rest with
    | nil =>
      rw [shape] at member
      rw [List.mem_singleton.mp member]
      exact .inl rfl
    | cons second rest =>
      rw [shape, List.nodup_cons, List.mem_cons, not_or] at distinct
      right
      by_cases here : first = l
      · exact ⟨second, by simp, fun same => distinct.1.1 (here.trans same.symm)⟩
      · exact ⟨first, by simp, here⟩

/-- What reconsidering came to, in terms of the values of the literals. The
watches are those before, except that a literal that is not false can take the
place of the one that became false. -/
def Decides (value : Literal → Option Bool) (old : Literal) (c c' : Clause) :
    Reconsidered → Prop
  | .satisfied =>
    (∀ x, x ∈ c'.watched ↔ x ∈ c.watched) ∧ ∃ o ∈ c.watched, o ≠ old ∧ value o = some true
  | .rewatched r =>
    (∀ x, x ∈ c'.watched ↔ x = r ∨ (x ∈ c.watched ∧ x ≠ old)) ∧
      r ∈ c.literals ∧ r ∉ c.watched ∧ value r ≠ some false
  | .implied u =>
    (∀ x, x ∈ c'.watched ↔ x ∈ c.watched) ∧ u ∈ c.watched ∧ u ≠ old ∧ value u = none ∧
      ∀ m ∈ c.literals, m ≠ u → m = old ∨ value m = some false
  | .falsified =>
    (∀ x, x ∈ c'.watched ↔ x ∈ c.watched) ∧
      ∀ m ∈ c.literals, m = old ∨ value m = some false

/-- What reconsidering makes of the literals beyond the watched ones: the first of them that is
not false changes places with the false watch, unless the kept watch is true. -/
inductive Settled (value : Literal → Option Bool) (kept old : Literal) :
    List Literal → Reconsidered → List Literal → Prop where
  | satisfied (holds : value kept = some true) :
      Settled value kept old rest .satisfied (kept :: old :: rest)
  | rewatched (notTrue : value kept ≠ some true) (skipped : ∀ m ∈ before, value m = some false)
      (free : value r ≠ some false) :
      Settled value kept old (before ++ r :: after) (.rewatched r)
        (kept :: r :: (before ++ old :: after))
  | implied (unassigned : value kept = none) (others : ∀ m ∈ rest, value m = some false) :
      Settled value kept old rest (.implied kept) (kept :: old :: rest)
  | falsified (fails : value kept = some false) (others : ∀ m ∈ rest, value m = some false) :
      Settled value kept old rest .falsified (kept :: old :: rest)

variable {value : Literal → Option Bool} {old kept : Literal} {rest literals : List Literal}
  {outcome : Reconsidered} {c c' : Clause}

/-- A literal that is not true is false or unassigned. -/
theorem false_or_none_of_ne_true {m : Literal} (notTrue : value m ≠ some true) :
    value m = some false ∨ value m = none := by
  cases known : value m with
  | none => exact .inr rfl
  | some b =>
    cases b with
    | true => exact absurd known notTrue
    | false => exact .inl rfl

theorem settle_settled (value : Literal → Option Bool) (kept old : Literal)
    (rest : List Literal) :
    Settled value kept old rest (settle value kept old rest).1 (settle value kept old rest).2 := by
  unfold settle
  split
  · rename_i holds
    exact .satisfied holds
  · rename_i notTrue
    split
    · rename_i before r after found
      obtain ⟨rfl, free, skipped⟩ := eq_of_cutAtFirst found
      exact .rewatched notTrue (by simpa using skipped) (by simpa using free)
    · rename_i found
      have others : ∀ m ∈ rest, value m = some false := by
        simpa using cutAtFirst_eq_none_iff.mp found
      rcases false_or_none_of_ne_true notTrue with fails | unassigned
      · rw [if_neg (by simp [fails])]
        exact .falsified fails others
      · rw [if_pos unassigned]
        exact .implied unassigned others

theorem Settled.perm (settled : Settled value kept old rest outcome literals) :
    literals.Perm (kept :: old :: rest) := by
  cases settled with
  | satisfied | implied | falsified => exact .refl _
  | @rewatched before r after =>
    refine .cons kept ?_
    have front : (before ++ old :: after).Perm (old :: (before ++ after)) := List.perm_middle
    have back : (r :: (before ++ after)).Perm (before ++ r :: after) := List.perm_middle.symm
    exact (front.cons r).trans ((List.Perm.swap old r _).trans (back.cons old))

/-- Settling a clause of two or more distinct literals, the false one second. -/
theorem Settled.decides (settled : Settled value kept old rest outcome literals) (source : Origin)
    (distinct : (kept :: old :: rest).Nodup) :
    Decides value old ⟨kept :: old :: rest, source⟩ ⟨literals, source⟩ outcome := by
  have different : kept ≠ old := by
    rintro rfl
    simp at distinct
  cases settled with
  | satisfied holds => exact ⟨fun _ => Iff.rfl, kept, by simp [watched], different, holds⟩
  | rewatched _ _ free =>
    simp only [List.nodup_cons, List.mem_cons, List.mem_append, not_or] at distinct
    refine ⟨fun x => ?_, by simp, ?_, free⟩
    · simp only [watched, List.take_succ_cons, List.take_zero, List.mem_cons, List.not_mem_nil,
        or_false]
      grind
    · simp only [watched, List.take_succ_cons, List.take_zero, List.mem_cons, List.not_mem_nil,
        or_false]
      grind
  | implied unassigned others =>
    refine ⟨fun _ => Iff.rfl, by simp [watched], different, unassigned, ?_⟩
    intro m member notKept
    rcases List.mem_cons.mp member with same | member
    · exact absurd same notKept
    · exact (List.mem_cons.mp member).imp_right (others m)
  | falsified fails others =>
    refine ⟨fun _ => Iff.rfl, fun m member => ?_⟩
    rcases List.mem_cons.mp member with rfl | member
    · exact .inr fails
    · exact (List.mem_cons.mp member).imp_right (others m)

/-- Only the set of watched literals matters to what reconsidering tells. -/
theorem Decides.congr (decided : Decides value old c c' outcome) (same : Rearranged c d)
    (watches : ∀ x, x ∈ c.watched ↔ x ∈ d.watched) : Decides value old d c' outcome := by
  cases outcome with
  | satisfied =>
    obtain ⟨kept, o, member, rest⟩ := decided
    exact ⟨fun x => (kept x).trans (watches x), o, (watches o).mp member, rest⟩
  | rewatched r =>
    obtain ⟨moved, member, fresh, notFalse⟩ := decided
    refine ⟨fun x => (moved x).trans (or_congr Iff.rfl (and_congr (watches x) Iff.rfl)),
      same.mem_iff.mp member, fun again => fresh ((watches r).mpr again), notFalse⟩
  | implied u =>
    obtain ⟨kept, member, different, open_, others⟩ := decided
    exact ⟨fun x => (kept x).trans (watches x), (watches u).mp member, different, open_,
      fun m inside => others m (same.mem_iff.mpr inside)⟩
  | falsified =>
    obtain ⟨kept, all⟩ := decided
    exact ⟨fun x => (kept x).trans (watches x), fun m inside => all m (same.mem_iff.mpr inside)⟩

/-- Reconsidering is possible exactly for a watched literal. -/
theorem reconsider_isSome (value : Literal → Option Bool) (watches : old ∈ c.watched) :
    ∃ outcome c', c.reconsider value old = some (outcome, c') := by
  unfold watched at watches
  unfold reconsider
  split
  · simp_all
  · simp_all
  · rename_i first second rest shape
    rw [shape] at watches
    simp only [List.take_succ_cons, List.take_zero, List.mem_cons, List.not_mem_nil,
      or_false] at watches
    rcases watches with rfl | rfl
    · exact ⟨_, _, if_pos rfl⟩
    · split
      · exact ⟨_, _, rfl⟩
      · exact ⟨_, _, if_pos rfl⟩

/-- Reconsidering rearranges the clause and tells how it stands. -/
theorem reconsider_decides (proper : c.Proper n)
    (ran : c.reconsider value old = some (outcome, c')) :
    Rearranged c c' ∧ Decides value old c c' outcome := by
  obtain ⟨literals, origin⟩ := c
  have distinct : literals.Nodup := proper.nodup
  unfold reconsider at ran
  split at ran
  · cases ran
  · rename_i only single
    split at ran
    · rename_i same
      cases ran
      obtain rfl : literals = [only] := single
      exact ⟨.refl _, fun _ => Iff.rfl, fun m member => .inl (by simp_all)⟩
    · cases ran
  · rename_i first second rest shape
    obtain rfl : literals = first :: second :: rest := shape
    split at ran
    · rename_i same
      subst same
      cases ran
      have swapped : Rearranged ⟨second :: first :: rest, origin⟩
          ⟨first :: second :: rest, origin⟩ := ⟨.swap first second rest, rfl⟩
      have order : (second :: first :: rest).Nodup := swapped.perm.nodup_iff.mpr distinct
      have settled := settle_settled value second first rest
      refine ⟨swapped.symm.trans ⟨settled.perm.symm, rfl⟩,
        (settled.decides origin order).congr swapped fun x => ?_⟩
      simp only [watched, List.take_succ_cons, List.take_zero, List.mem_cons, List.not_mem_nil,
        or_false]
      exact or_comm
    · split at ran
      · rename_i same
        subst same
        cases ran
        have settled := settle_settled value first second rest
        exact ⟨⟨settled.perm.symm, rfl⟩, settled.decides origin distinct⟩
      · cases ran

end ClauseLearning.Clause
