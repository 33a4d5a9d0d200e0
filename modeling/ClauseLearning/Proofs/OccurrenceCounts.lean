import Mathlib.Data.List.Count
import ClauseLearning.Proofs.BranchingChoices
import ClauseLearning.Proofs.StoreConsistency

/-! What the heuristics that count find. The count of a free literal is the number of
living clauses that have it, count and have no true literal, so the literal found occurs in
most of these, and is the first of those that do. Random words are drawn only where nothing
is found. -/
namespace ClauseLearning

theorem firstMaximum_eq_none_iff {rank : α → β} {atMost : β → β → Bool} {xs : List α} :
    firstMaximum atMost rank xs = none ↔ xs = [] := by
  refine ⟨fun nothing => ?_, fun empty => empty ▸ rfl⟩
  by_contra nonempty
  exact Option.isSome_iff_ne_none.mp (firstMaximum_isSome nonempty) nothing

/-- The first maximum exceeds all elements before it, and no element after it exceeds it. -/
theorem firstMaximum_split {rank : α → Nat} {xs : List α}
    (found : firstMaximum (fun m n => decide (m ≤ n)) rank xs = some x) :
    ∃ before after, xs = before ++ x :: after ∧ (∀ y ∈ before, rank y < rank x) ∧
      ∀ y ∈ after, rank y ≤ rank x := by
  induction xs generalizing x with
  | nil => cases found
  | cons first rest ih =>
    unfold firstMaximum at found
    split at found
    · rename_i nothing
      have empty := firstMaximum_eq_none_iff.mp nothing
      cases found
      exact ⟨[], rest, rfl, by simp, by simp [empty]⟩
    · rename_i best later
      obtain ⟨before, after, shape, larger, bound⟩ := ih later
      split at found
      · rename_i atMost
        have least : rank best ≤ rank first := of_decide_eq_true atMost
        cases found
        refine ⟨[], rest, rfl, by simp, fun y member => ?_⟩
        rw [shape] at member
        rcases List.mem_append.mp member with early | late
        · exact Nat.le_of_lt (Nat.lt_of_lt_of_le (larger y early) least)
        · rcases List.mem_cons.mp late with rfl | late
          · exact least
          · exact Nat.le_trans (bound y late) least
      · rename_i exceeds
        cases found
        refine ⟨first :: before, after, by rw [shape, List.cons_append], ?_, bound⟩
        exact List.forall_mem_cons.mpr ⟨by simpa using exceeds, larger⟩

/-- In an increasing list the first maximum is the least of those of the largest rank. -/
theorem firstMaximum_spec {rank : Nat → Nat} {xs : List Nat} (increasing : xs.Pairwise (· < ·))
    (found : firstMaximum (fun m n => decide (m ≤ n)) rank xs = some x) :
    ∀ y ∈ xs, rank y ≤ rank x ∧ (rank y = rank x → x ≤ y) := by
  obtain ⟨before, after, rfl, larger, bound⟩ := firstMaximum_split found
  obtain ⟨-, tail, -⟩ := List.pairwise_append.mp increasing
  intro y member
  rcases List.mem_append.mp member with early | late
  · have less := larger y early
    exact ⟨Nat.le_of_lt less, fun same => by omega⟩
  · rcases List.mem_cons.mp late with rfl | late
    · exact ⟨Nat.le_refl _, fun _ => Nat.le_refl _⟩
    · exact ⟨bound y late, fun _ => Nat.le_of_lt ((List.pairwise_cons.mp tail).1 y late)⟩

namespace Occurrence

variable {a : Assignment} {store : ClauseStore} {counted : Clause → Bool} {l m : Literal}

/-- A clause in which occurrences are counted: it has the property, and no true literal. -/
def Relevant (a : Assignment) (counted : Clause → Bool) (c : Clause) : Prop :=
  counted c = true ∧ ∀ l ∈ c.literals, a.value? l ≠ some true

instance (a : Assignment) (counted : Clause → Bool) (c : Clause) :
    Decidable (Relevant a counted c) :=
  inferInstanceAs (Decidable (_ ∧ _))

/-- In how many of these clauses, of all that live in a store, a literal occurs. -/
def frequency (a : Assignment) (counted : Clause → Bool) (store : ClauseStore) (l : Literal) :
    Nat :=
  (List.range store.capacity).countP fun i =>
    (store.clause? i).any fun c => decide (Relevant a counted c) && decide (l ∈ c.literals)

/-- A literal over a declared variable that has no value. -/
def Free (a : Assignment) (l : Literal) : Prop :=
  l.var < a.numVariables ∧ a.assigns l.var = false

/-- The free literal that occurs in most of the clauses that count, and is the first of those
that do. -/
structure Commonest (a : Assignment) (counted : Clause → Bool) (store : ClauseStore)
    (l : Literal) : Prop where
  free : Free a l
  occurs : 0 < frequency a counted store l
  most : ∀ m, Free a m → frequency a counted store m ≤ frequency a counted store l
  first : ∀ m, Free a m → frequency a counted store m = frequency a counted store l →
    l.code ≤ m.code

theorem Commonest.unique (one : Commonest a counted store l)
    (other : Commonest a counted store m) : l = m := by
  have same := Nat.le_antisymm (one.most m other.free) (other.most l one.free)
  exact Literal.code_inj.mp (Nat.le_antisymm (one.first m other.free same)
    (other.first l one.free same.symm))

/-! ## Counting -/

theorem value?_ne_true_iff {c : Clause} :
    c.value? a.value? ≠ some true ↔ ∀ l ∈ c.literals, a.value? l ≠ some true := by
  unfold Clause.value?
  split
  · rename_i satisfied
    refine iff_of_false (fun differs => differs rfl) fun none_ => ?_
    obtain ⟨l, member, holds⟩ := List.any_eq_true.mp satisfied
    exact none_ l member (of_decide_eq_true holds)
  · rename_i unsatisfied
    refine iff_of_true (by split <;> simp) fun l member holds => ?_
    exact unsatisfied (List.any_eq_true.mpr ⟨l, member, decide_eq_true holds⟩)

theorem relevant_eq (a : Assignment) (counted : Clause → Bool) (store : ClauseStore) :
    relevant a counted store = store.clauses.filter fun c => Relevant a counted c := by
  refine List.filter_congr fun c _ => Bool.eq_iff_iff.mpr ?_
  rw [Bool.and_eq_true, decide_eq_true_iff, decide_eq_true_iff, value?_ne_true_iff]
  rfl

theorem frequency_eq (a : Assignment) (counted : Clause → Bool) (store : ClauseStore)
    (l : Literal) :
    frequency a counted store l = (relevant a counted store).countP (l ∈ ·.literals) := by
  rw [relevant_eq, List.countP_filter, ClauseStore.clauses_eq_filterMap, List.countP_filterMap]
  refine List.countP_congr fun i _ => ?_
  cases store.clause? i with
  | none => rfl
  | some c => simp [and_comm]

theorem getD_modify_succ {counts : Array Nat} (sized : l.code < counts.size) (m : Literal) :
    (counts.modify m.code (· + 1)).getD l.code 0
      = counts.getD l.code 0 + if m = l then 1 else 0 := by
  simp only [Array.getD_eq_getD_getElem?, Array.getElem?_modify, Literal.code_inj]
  split <;> simp [sized]

/-- Counting a clause adds to the count of a free literal how often it occurs there. -/
theorem getD_countClause {counts : Array Nat} (sized : l.code < counts.size)
    (free : a.assigns l.var = false) (c : Clause) :
    (countClause a counts c).getD l.code 0 = counts.getD l.code 0 + c.literals.count l := by
  unfold countClause
  induction c.literals generalizing counts with
  | nil => rfl
  | cons m rest ih =>
    rw [List.foldl_cons, ih (by split <;> simpa using sized), List.count_cons]
    by_cases assigned : a.assigns m.var = true
    · have other : m ≠ l := by
        rintro rfl
        rw [free] at assigned
        cases assigned
      simp [assigned, other]
    · rw [if_neg assigned, getD_modify_succ sized]
      simp only [beq_iff_eq]
      omega

theorem size_countClause (counts : Array Nat) (c : Clause) :
    (countClause a counts c).size = counts.size := by
  unfold countClause
  induction c.literals generalizing counts with
  | nil => rfl
  | cons m rest ih =>
    rw [List.foldl_cons, ih]
    split <;> simp

theorem getD_foldl_countClause {before : Array Nat} (sized : l.code < before.size)
    (free : a.assigns l.var = false) {clauses : List Clause}
    (distinct : ∀ c ∈ clauses, c.literals.Nodup) :
    (clauses.foldl (countClause a) before).getD l.code 0
      = before.getD l.code 0 + clauses.countP (l ∈ ·.literals) := by
  induction clauses generalizing before with
  | nil => rfl
  | cons c rest ih =>
    obtain ⟨here, later⟩ := List.forall_mem_cons.mp distinct
    rw [List.foldl_cons, ih (by rwa [size_countClause]) later, getD_countClause sized free,
      List.countP_cons, here.count]
    simp only [decide_eq_true_eq]
    omega

theorem Free.code_lt (free : Free a l) : l.code < 2 * a.numVariables := by
  have bit := Bool.toNat_le l.positive
  have declared := free.1
  unfold Literal.code
  omega

/-- The count of a free literal is how many of the clauses that count have it. -/
theorem getD_counts (free : Free a l) (distinct : ∀ c ∈ store.clauses, c.literals.Nodup) :
    (counts a (relevant a counted store)).getD l.code 0 = frequency a counted store l := by
  have sized : l.code < (Array.replicate (2 * a.numVariables) 0).size := by
    simpa using free.code_lt
  have start : (Array.replicate (2 * a.numVariables) 0).getD l.code 0 = 0 := by
    rw [Array.getD_eq_getD_getElem?, Array.getElem?_replicate]
    split <;> rfl
  have distinct' : ∀ c ∈ relevant a counted store, c.literals.Nodup := fun c member =>
    distinct c (List.mem_of_mem_filter member)
  rw [counts, getD_foldl_countClause sized free.2 distinct', start, Nat.zero_add, frequency_eq]

theorem frequency_pos_iff : 0 < frequency a counted store l ↔
    ∃ i c, store.clause? i = some c ∧ Relevant a counted c ∧ l ∈ c.literals := by
  rw [frequency_eq, relevant_eq, List.countP_pos_iff]
  simp only [List.mem_filter, ClauseStore.mem_clauses_iff, decide_eq_true_eq]
  constructor
  · rintro ⟨c, ⟨⟨i, living⟩, relevant⟩, member⟩
    exact ⟨i, c, living, relevant, member⟩
  · rintro ⟨i, c, living, relevant, member⟩
    exact ⟨c, ⟨⟨i, living⟩, relevant⟩, member⟩

/-! ## What is found -/

/-- The codes of positive count are those of the free literals that occur. -/
theorem mem_codes_iff (distinct : ∀ c ∈ store.clauses, c.literals.Nodup) :
    l.code ∈ (List.range (counts a (relevant a counted store)).size).filter (fun code =>
        0 < (counts a (relevant a counted store)).getD code 0) ↔
      Free a l ∧ 0 < frequency a counted store l := by
  have sound := counts_counts (a := a) (relevant a counted store)
  simp only [List.mem_filter, List.mem_range, decide_eq_true_eq]
  constructor
  · rintro ⟨inRange, positive⟩
    have unassigned := sound.unassigned l.code positive
    rw [Literal.ofCode_code] at unassigned
    rw [sound.size] at inRange
    have free : Free a l := ⟨by unfold Literal.code at inRange; omega, unassigned⟩
    exact ⟨free, getD_counts free distinct ▸ positive⟩
  · rintro ⟨free, positive⟩
    exact ⟨sound.size ▸ free.code_lt, (getD_counts free distinct).symm ▸ positive⟩

theorem commonest_of_found (distinct : ∀ c ∈ store.clauses, c.literals.Nodup)
    (found : commonest? a counted store = some l) : Commonest a counted store l := by
  obtain ⟨code, maximum, rfl⟩ := Option.map_eq_some_iff.mp found
  have member := firstMaximum_mem maximum
  rw [← Literal.code_ofCode code, mem_codes_iff distinct] at member
  obtain ⟨free, occurs⟩ := member
  have best := firstMaximum_spec (List.pairwise_lt_range.filter _) maximum
  have compared : ∀ m, Free a m → 0 < frequency a counted store m →
      frequency a counted store m ≤ frequency a counted store (Literal.ofCode code) ∧
        (frequency a counted store m = frequency a counted store (Literal.ofCode code) →
          code ≤ m.code) := by
    intro m free' occurs'
    have among := best m.code ((mem_codes_iff distinct).mpr ⟨free', occurs'⟩)
    rw [← Literal.code_ofCode code] at among
    rwa [getD_counts free' distinct, getD_counts free distinct, Literal.code_ofCode] at among
  refine ⟨free, occurs, fun m free' => ?_, fun m free' same => ?_⟩
  · rcases Nat.eq_zero_or_pos (frequency a counted store m) with zero | occurs'
    · exact zero ▸ Nat.zero_le _
    · exact (compared m free' occurs').1
  · rw [Literal.code_ofCode]
    exact (compared m free' (same ▸ occurs)).2 same

theorem commonest?_eq_none_iff (distinct : ∀ c ∈ store.clauses, c.literals.Nodup) :
    commonest? a counted store = none ↔
      ∀ l, Free a l → ¬ 0 < frequency a counted store l := by
  constructor
  · intro nothing l free occurs
    have member := (mem_codes_iff distinct).mpr ⟨free, occurs⟩
    rw [commonest?, Option.map_eq_none_iff, firstMaximum_eq_none_iff] at nothing
    exact List.ne_nil_of_mem member nothing
  · intro nothing
    rw [Option.eq_none_iff_forall_ne_some]
    intro l found
    have commonest := commonest_of_found distinct found
    exact nothing l commonest.free commonest.occurs

theorem commonest?_eq_some_iff (distinct : ∀ c ∈ store.clauses, c.literals.Nodup) :
    commonest? a counted store = some l ↔ Commonest a counted store l := by
  refine ⟨commonest_of_found distinct, fun commonest => ?_⟩
  have found : commonest? a counted store ≠ none := fun nothing =>
    (commonest?_eq_none_iff distinct).mp nothing l commonest.free commonest.occurs
  obtain ⟨m, found⟩ := Option.ne_none_iff_exists'.mp found
  rw [found, (commonest_of_found distinct found).unique commonest]

end Occurrence

open Occurrence

/-- A brancher with a random source picks the commonest literal of the clauses with a property.
Only where there is none it draws from its source, as a brancher does that picks at random. -/
structure Brancher.PicksCommonest (brancher : Randomness.Keystream → Brancher)
    (counted : Clause → Bool) (a : Assignment) (store : ClauseStore) : Prop where
  commonest : ∀ source l, Commonest a counted store l →
    (brancher source).pick a store = (some l, brancher source)
  otherwise : ∀ source, (∀ l, ¬ Commonest a counted store l) → ∃ l source',
    (Brancher.random source).pick a store = (l, .random source') ∧
      (brancher source).pick a store = (l, brancher source')

variable {a : Assignment} {store : ClauseStore}

theorem Brancher.picksCommonest_of_orDraw {brancher : Randomness.Keystream → Brancher}
    {counted : Clause → Bool} (distinct : ∀ c ∈ store.clauses, c.literals.Nodup)
    (pick : ∀ source, (brancher source).pick a store =
      ((orDraw (commonest? a counted store) a source).1,
        brancher (orDraw (commonest? a counted store) a source).2)) :
    PicksCommonest brancher counted a store where
  commonest := by
    intro source l commonest
    rw [pick, (commonest?_eq_some_iff distinct).mpr commonest]
    rfl
  otherwise := by
    intro source none_
    have nothing : commonest? a counted store = none := by
      rw [Option.eq_none_iff_forall_ne_some]
      exact fun l found => none_ l ((commonest?_eq_some_iff distinct).mp found)
    refine ⟨_, _, rfl, ?_⟩
    rw [pick, nothing]
    rfl

/-- With distinct literals in each clause, counting finds nothing exactly if no clause that
counts has a free literal, and otherwise the commonest one. The two heuristics that count pick
that literal, and use their random source only if there is none. -/
theorem counting_finds_commonest (distinct : ∀ c ∈ store.clauses, c.literals.Nodup) :
    (∀ counted,
      (commonest? a counted store = none ↔ ∀ i c, store.clause? i = some c →
        Relevant a counted c → ∀ l ∈ c.literals, ¬ Free a l) ∧
      ∀ l, commonest? a counted store = some l ↔ Commonest a counted store l) ∧
    Brancher.PicksCommonest .occurrence (fun _ => true) a store ∧
    Brancher.PicksCommonest .binaryOccurrence (fun c => c.literals.length == 2) a store := by
  refine ⟨fun counted => ⟨?_, fun l => commonest?_eq_some_iff distinct⟩,
    Brancher.picksCommonest_of_orDraw distinct fun _ => rfl,
    Brancher.picksCommonest_of_orDraw distinct fun _ => rfl⟩
  rw [commonest?_eq_none_iff distinct]
  constructor
  · intro absent i c living relevant l member free
    exact absent l free (frequency_pos_iff.mpr ⟨i, c, living, relevant, member⟩)
  · intro absent l free occurs
    obtain ⟨i, c, living, relevant, member⟩ := frequency_pos_iff.mp occurs
    exact absent i c living relevant l member free

/-- Two clauses of the formula and a learned one around a free slot. With the first variable
true the second one is left in two of them, but in no clause of two literals. -/
theorem counting_finds_commonest_partial :
    let store : ClauseStore := ⟨#[some ⟨[⟨0, false⟩, ⟨1, false⟩, ⟨2, true⟩], .input⟩, none,
      some ⟨[⟨0, true⟩, ⟨2, true⟩], .input⟩,
      some ⟨[⟨1, false⟩, ⟨0, false⟩, ⟨3, true⟩], .learned 2⟩], [1], [3], .empty 4⟩
    let a : Assignment := ⟨#[some ⟨true, 0, none⟩, none, none, none]⟩
    (∀ c ∈ store.clauses, c.literals.Nodup) ∧ Commonest a (fun _ => true) store ⟨1, false⟩ ∧
    ∀ source, (Brancher.occurrence source).pick a store = (some ⟨1, false⟩, .occurrence source) ∧
      ((Brancher.binaryOccurrence source).pick a store).1
        = ((Brancher.random source).pick a store).1 := by
  intro store a
  have distinct : ∀ c ∈ store.clauses, c.literals.Nodup := by decide
  obtain ⟨finds, picks, picksBinary⟩ := counting_finds_commonest (a := a) distinct
  have commonest := ((finds fun _ => true).2 ⟨1, false⟩).mp (by decide)
  refine ⟨distinct, commonest, fun source => ⟨picks.commonest source _ commonest, ?_⟩⟩
  have absent : ∀ l, ¬ Commonest a (fun c => c.literals.length == 2) store l := by
    intro l commonest
    have found := ((finds _).2 l).mpr commonest
    cases found
  obtain ⟨l, source', drawn, picked⟩ := picksBinary.otherwise source absent
  rw [drawn, picked]

end ClauseLearning
