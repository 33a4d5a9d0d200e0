import ClauseLearning.Proofs.ClauseWatches

/-! A clause that watches a false literal is reconsidered by looking at its literals up to the
first that can take the watch. That is as much as evaluating the whole clause would tell about the
conflict or the literal it implies. -/
namespace ClauseLearning.Clause

/-- What becomes of a clause that watches the false literal `old` and another literal `kept`. -/
structure WatchUpdate (value : Literal → Option Bool) (old kept : Literal) (c : Clause)
    (outcome : Reconsidered) (c' : Clause) : Prop where
  watched : c.watched = [kept, old] ∨ c.watched = [old, kept]
  rearranged : Rearranged c c'
  /-- The kept watch comes first and the false one second; the other literals stay in place. -/
  stays : (∀ r, outcome ≠ .rewatched r) → c'.literals = kept :: old :: c.literals.drop 2
  /-- A literal that takes the false watch leaves its place to the false literal. -/
  moves : ∀ r, outcome = .rewatched r → r ∈ c.literals ∧ r ∉ c.watched ∧ value r ≠ some false ∧
    ∃ i, (c.literals.drop 2)[i]? = some r ∧ c'.literals = kept :: r :: (c.literals.drop 2).set i old
  satisfied_iff : outcome = .satisfied ↔ value kept = some true
  rewatched_iff : (∃ r, outcome = .rewatched r) ↔
    value kept ≠ some true ∧ ∃ m ∈ c.literals, m ∉ c.watched ∧ value m ≠ some false
  implied_iff : ∀ u, outcome = .implied u ↔
    u = kept ∧ value kept = none ∧ ∀ m ∈ c.literals, m ∉ c.watched → value m = some false
  falsified_iff : outcome = .falsified ↔
    value kept = some false ∧ ∀ m ∈ c.literals, m ∉ c.watched → value m = some false

variable {value : Literal → Option Bool} {old kept u : Literal} {rest literals : List Literal}
  {outcome : Reconsidered} {c c' : Clause}

/-- A clause of two or more distinct literals has its two watches first, in some order, and is
settled with the one that is not false before the false one. -/
theorem exists_reconsider_eq_settle (value : Literal → Option Bool)
    (two : 2 ≤ c.literals.length) (distinct : c.literals.Nodup) (watches : old ∈ c.watched) :
    ∃ kept rest, (c.literals = kept :: old :: rest ∨ c.literals = old :: kept :: rest) ∧
      c.reconsider value old = some ((settle value kept old rest).1,
        { c with literals := (settle value kept old rest).2 }) := by
  obtain ⟨literals, origin⟩ := c
  match literals with
  | [] => exact absurd two (by simp)
  | [only] => exact absurd two (by simp)
  | first :: second :: rest =>
    have watched : old = first ∨ old = second := by simpa [watched] using watches
    rcases watched with rfl | rfl
    · exact ⟨second, rest, .inr rfl, if_pos rfl⟩
    · have different : first ≠ old := by
        rintro rfl
        simp at distinct
      exact ⟨first, rest, .inl rfl, (if_neg different).trans (if_pos rfl)⟩

namespace Settled

variable (settled : Settled value kept old rest outcome literals)

include settled

theorem stays (unmoved : ∀ r, outcome ≠ .rewatched r) : literals = kept :: old :: rest := by
  cases settled with
  | satisfied | implied | falsified => rfl
  | @rewatched _ r _ => exact absurd rfl (unmoved r)

theorem moves (moved : outcome = .rewatched r) : r ∈ rest ∧ value r ≠ some false ∧
    ∃ i, rest[i]? = some r ∧ literals = kept :: r :: rest.set i old := by
  cases settled with
  | satisfied | implied | falsified => cases moved
  | @rewatched before _ _ _ _ free =>
    cases moved
    exact ⟨by simp, free, before.length, by simp, by simp⟩

theorem satisfied_iff : outcome = .satisfied ↔ value kept = some true := by
  cases settled <;> simp_all

theorem rewatched_iff : (∃ r, outcome = .rewatched r) ↔
    value kept ≠ some true ∧ ∃ m ∈ rest, value m ≠ some false := by
  cases settled with
  | satisfied holds => simp [holds]
  | @rewatched _ r _ notTrue _ free =>
    exact iff_of_true ⟨r, rfl⟩ ⟨notTrue, r, by simp, free⟩
  | implied _ others | falsified _ others => simpa using fun _ => others

theorem implied_iff : outcome = .implied u ↔
    u = kept ∧ value kept = none ∧ ∀ m ∈ rest, value m = some false := by
  cases settled with
  | satisfied holds => simp [holds]
  | @rewatched _ r _ _ _ free =>
    exact iff_of_false (by simp) fun ⟨_, _, others⟩ => free (others r (by simp))
  | implied unassigned others => simpa [unassigned, eq_comm] using fun _ => others
  | falsified fails => simp [fails]

theorem falsified_iff : outcome = .falsified ↔
    value kept = some false ∧ ∀ m ∈ rest, value m = some false := by
  cases settled with
  | satisfied holds => simp [holds]
  | @rewatched _ r _ _ _ free =>
    exact iff_of_false (by simp) fun ⟨_, others⟩ => free (others r (by simp))
  | implied unassigned => simp [unassigned]
  | falsified fails others => simpa [fails] using others

end Settled

/-- Reconsidering updates the watches of any clause that has two distinct literals to watch. -/
theorem exists_watchUpdate (value : Literal → Option Bool) (two : 2 ≤ c.literals.length)
    (distinct : c.literals.Nodup) (watches : old ∈ c.watched) :
    ∃ kept outcome c', c.reconsider value old = some (outcome, c') ∧
      WatchUpdate value old kept c outcome c' := by
  obtain ⟨kept, rest, shape, ran⟩ := exists_reconsider_eq_settle value two distinct watches
  have settled := settle_settled value kept old rest
  have watched : c.watched = [kept, old] ∨ c.watched = [old, kept] := by
    rcases shape with shape | shape <;> simp [watched, shape]
  -- no literal occurs twice, so none beyond the first two is watched
  have unwatched : ∀ m, m ∈ rest ↔ m ∈ c.literals ∧ m ∉ c.watched := by
    intro m
    rcases shape with shape | shape <;>
      simp only [Clause.watched, shape, List.nodup_cons, List.mem_cons, List.take_succ_cons,
        List.take_zero, List.not_mem_nil, or_false] at distinct ⊢ <;>
      grind
  have rearranged : Rearranged c { c with literals := (settle value kept old rest).2 } := by
    refine ⟨.trans ?_ settled.perm.symm, rfl⟩
    rcases shape with shape | shape
    · exact .of_eq shape
    · exact shape ▸ .swap kept old rest
  have beyond : c.literals.drop 2 = rest := by
    rcases shape with shape | shape <;> simp [shape]
  refine ⟨kept, _, _, ran, watched, rearranged, ?_, ?_, settled.satisfied_iff, ?_, ?_, ?_⟩
  · exact fun unmoved => beyond ▸ settled.stays unmoved
  · intro r moved
    obtain ⟨member, free, place⟩ := settled.moves moved
    obtain ⟨member, fresh⟩ := (unwatched r).mp member
    exact ⟨member, fresh, free, beyond ▸ place⟩
  · simpa only [unwatched, and_assoc] using settled.rewatched_iff
  · intro u
    simpa only [unwatched, and_imp] using settled.implied_iff
  · simpa only [unwatched, and_imp] using settled.falsified_iff

/-! ## What the clause evaluates to -/

theorem value?_eq_false_iff :
    c.value? value = some false ↔ ∀ m ∈ c.literals, value m = some false := by
  unfold value?
  split
  · rename_i satisfied
    obtain ⟨m, member, holds⟩ := List.any_eq_true.mp satisfied
    refine iff_of_false (by simp) fun all => ?_
    cases (all m member).symm.trans (of_decide_eq_true holds)
  · simp

theorem value?_eq_none_iff : c.value? value = none ↔
    (∀ m ∈ c.literals, value m ≠ some true) ∧ ∃ m ∈ c.literals, value m = none := by
  unfold value?
  split
  · rename_i satisfied
    refine iff_of_false (by simp) fun ⟨none_, _⟩ => ?_
    obtain ⟨m, member, holds⟩ := List.any_eq_true.mp satisfied
    exact none_ m member (of_decide_eq_true holds)
  · rename_i unsatisfied
    have notTrue : ∀ m ∈ c.literals, value m ≠ some true := by simpa using unsatisfied
    split
    · rename_i all
      refine iff_of_false (by simp) fun ⟨_, m, member, unassigned⟩ => ?_
      cases unassigned.symm.trans (of_decide_eq_true (List.all_eq_true.mp all m member))
    · rename_i free
      obtain ⟨m, member, notFalse⟩ : ∃ m ∈ c.literals, value m ≠ some false := by simpa using free
      exact iff_of_true rfl
        ⟨notTrue, m, member, (false_or_none_of_ne_true (notTrue m member)).resolve_left notFalse⟩

namespace WatchUpdate

variable (update : WatchUpdate value old kept c outcome c')

include update

theorem kept_mem_watched : kept ∈ c.watched := by
  rcases update.watched with watched | watched <;> simp [watched]

theorem kept_mem : kept ∈ c.literals :=
  mem_of_mem_watched update.kept_mem_watched

/-- With the false watch and the literals not watched, all literals but the kept one are false. -/
theorem eq_false_of_ne_kept (fails : value old = some false)
    (others : ∀ m ∈ c.literals, m ∉ c.watched → value m = some false) :
    ∀ m ∈ c.literals, m ≠ kept → value m = some false := by
  intro m member other
  by_cases same : m = old
  · exact same ▸ fails
  · refine others m member ?_
    rcases update.watched with watched | watched <;> simp [watched, same, other]

theorem falsified_iff_value? (fails : value old = some false) :
    outcome = .falsified ↔ c.value? value = some false := by
  rw [update.falsified_iff, value?_eq_false_iff]
  constructor
  · rintro ⟨keptFails, others⟩ m member
    by_cases same : m = kept
    · exact same ▸ keptFails
    · exact update.eq_false_of_ne_kept fails others m member same
  · intro all
    exact ⟨all kept update.kept_mem, fun m member _ => all m member⟩

theorem only_free_of_implied (fails : value old = some false) (implied : outcome = .implied u) :
    u ∈ c.literals ∧ value u = none ∧ ∀ m ∈ c.literals, value m ≠ some false → m = u := by
  obtain ⟨rfl, unassigned, others⟩ := (update.implied_iff u).mp implied
  refine ⟨update.kept_mem, unassigned, fun m member free => ?_⟩
  by_contra other
  exact free (update.eq_false_of_ne_kept fails others m member other)

theorem implied_iff_value? (fails : value old = some false) (free : value kept ≠ some false) :
    outcome = .implied u ↔ c.value? value = none ∧
      u ∈ c.literals ∧ value u = none ∧ ∀ m ∈ c.literals, value m = none → m = u := by
  rw [value?_eq_none_iff]
  constructor
  · intro implied
    obtain ⟨member, unassigned, only⟩ := update.only_free_of_implied fails implied
    refine ⟨⟨fun m inside holds => ?_, u, member, unassigned⟩, member, unassigned,
      fun m inside open_ => only m inside (by simp [open_])⟩
    obtain rfl := only m inside (by simp [holds])
    cases unassigned.symm.trans holds
  · rintro ⟨⟨notTrue, -⟩, member, unassigned, only⟩
    have others : ∀ m ∈ c.literals, m ≠ u → value m = some false := fun m inside other =>
      (false_or_none_of_ne_true (notTrue m inside)).resolve_right fun open_ =>
        other (only m inside open_)
    have same : u = kept := by
      by_contra other
      exact free (others kept update.kept_mem (Ne.symm other))
    subst same
    refine (update.implied_iff u).mpr ⟨rfl, unassigned, fun m inside unwatched => ?_⟩
    exact others m inside fun same => unwatched (same ▸ update.kept_mem_watched)

end WatchUpdate

/-- Reconsidering a clause of two or more distinct literals, after one that it watches became
false, permutes the two watched literals and at most one more, and tells how the clause evaluates:
it is falsified exactly when all its literals are false, and it implies a literal only when that is
the one literal not false. Unless the other watch is false as well, it implies a literal exactly
when it evaluates to nothing and the literal is its only unassigned one. -/
theorem watch_update_decides_clause (value : Literal → Option Bool) (old : Literal)
    (two : 2 ≤ c.literals.length) (distinct : c.literals.Nodup) (watches : old ∈ c.watched)
    (fails : value old = some false) :
    ∃ kept outcome c', c.reconsider value old = some (outcome, c') ∧
      WatchUpdate value old kept c outcome c' ∧
      (outcome = .falsified ↔ c.value? value = some false) ∧
      (∀ u, outcome = .implied u →
        u ∈ c.literals ∧ value u = none ∧ ∀ m ∈ c.literals, value m ≠ some false → m = u) ∧
      (value kept ≠ some false → ∀ u, outcome = .implied u ↔ c.value? value = none ∧
        u ∈ c.literals ∧ value u = none ∧ ∀ m ∈ c.literals, value m = none → m = u) := by
  obtain ⟨kept, outcome, c', ran, update⟩ := exists_watchUpdate value two distinct watches
  exact ⟨kept, outcome, c', ran, update, update.falsified_iff_value? fails,
    fun u => update.only_free_of_implied fails, fun free u => update.implied_iff_value? fails free⟩

/-- Where only the first variable is known, the third literal takes the watch of the first, and the
fourth is not looked at. -/
theorem watch_update_decides_clause_of_four :
    WatchUpdate (fun l => if l.var = 0 then some (!l.positive) else none) ⟨0, true⟩ ⟨1, true⟩
      ⟨[⟨0, true⟩, ⟨1, true⟩, ⟨2, false⟩, ⟨3, true⟩], .input⟩ (.rewatched ⟨2, false⟩)
      ⟨[⟨1, true⟩, ⟨2, false⟩, ⟨0, true⟩, ⟨3, true⟩], .input⟩ := by
  obtain ⟨kept, outcome, c', ran, update, -⟩ := watch_update_decides_clause
    (fun l => if l.var = 0 then some (!l.positive) else none) ⟨0, true⟩
    (c := ⟨[⟨0, true⟩, ⟨1, true⟩, ⟨2, false⟩, ⟨3, true⟩], .input⟩)
    (by decide) (by decide) (by decide) rfl
  cases ran
  obtain rfl : ⟨1, true⟩ = kept := by simpa [watched] using update.watched
  exact update

end ClauseLearning.Clause
