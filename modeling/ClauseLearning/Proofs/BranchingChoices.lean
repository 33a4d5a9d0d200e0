import Mathlib.Data.List.Basic
import ClauseLearning.Proofs.TrailOrder
import ClauseLearning.Search.Solver

/-! Every branching heuristic picks an unassigned literal over a declared variable
as long as there is one. For the heuristics that count, only unassigned literals
are counted; for activity, the ordered list always holds all literals; and a
random choice from a list that is not empty always finds an element. -/
namespace ClauseLearning

namespace Randomness

theorem belowWithin_lt {range : Nat} (positive : 0 < range) (tries : Nat) (s : Keystream) :
    (belowWithin range tries s).1 < range := by
  have scaled : ∀ word : UInt32, word.toNat * range / UInt32.size < range := by
    intro word
    rw [Nat.div_lt_iff_lt_mul (by decide), Nat.mul_comm]
    exact Nat.mul_lt_mul_of_pos_left word.toNat_lt_size positive
  induction tries generalizing s with
  | zero => exact scaled _
  | succ tries ih =>
    unfold belowWithin
    simp only
    split
    · exact scaled _
    · exact ih _

/-- Going through a list ends with the element held or with one of the list. -/
theorem chooseFrom_isSome (xs : List α) (seen : Nat) (held : Option α) (s : Keystream)
    (starts : seen = 0 ∨ held.isSome = true) (nonempty : xs ≠ [] ∨ held.isSome = true) :
    ∃ x, (chooseFrom seen held xs s).1 = some x ∧ (x ∈ xs ∨ held = some x) := by
  induction xs generalizing seen held s with
  | nil =>
    obtain ⟨x, rfl⟩ := Option.isSome_iff_exists.mp (nonempty.resolve_left (by simp))
    exact ⟨x, rfl, .inr rfl⟩
  | cons first rest ih =>
    unfold chooseFrom
    simp only
    generalize drawn : below (seen + 1) s = draw
    obtain ⟨i, s'⟩ := draw
    simp only
    by_cases zero : i = 0
    · rw [if_pos zero]
      obtain ⟨x, chosen, origin⟩ := ih (seen + 1) (some first) s' (.inr rfl) (.inr rfl)
      refine ⟨x, chosen, .inl ?_⟩
      rcases origin with later | here
      · exact List.mem_cons_of_mem _ later
      · cases here
        exact List.mem_cons_self
    · rw [if_neg zero]
      have held' : held.isSome = true := by
        -- the first element of all is always taken
        refine starts.resolve_left fun first => zero ?_
        have bound : (below (seen + 1) s).1 < seen + 1 := belowWithin_lt (Nat.succ_pos _) 1000 s
        rw [drawn] at bound
        omega
      obtain ⟨x, chosen, origin⟩ := ih (seen + 1) held s' (.inr held') (.inr held')
      exact ⟨x, chosen, origin.imp_left (List.mem_cons_of_mem _)⟩

theorem choose_mem {xs : List α} (nonempty : xs ≠ []) (s : Keystream) :
    ∃ x ∈ xs, (choose xs s).1 = some x := by
  obtain ⟨x, chosen, origin⟩ := chooseFrom_isSome xs 0 none s (.inl rfl) (.inl nonempty)
  exact ⟨x, origin.resolve_right (by simp), chosen⟩

end Randomness

/-! ## Counting -/

theorem firstMaximum_mem {rank : α → β} {atMost : β → β → Bool} {xs : List α}
    (found : firstMaximum atMost rank xs = some x) : x ∈ xs := by
  induction xs generalizing x with
  | nil => cases found
  | cons first rest ih =>
    unfold firstMaximum at found
    split at found
    · cases found
      exact List.mem_cons_self
    · rename_i y later
      split at found
      · cases found
        exact List.mem_cons_self
      · cases found
        exact List.mem_cons_of_mem _ (ih later)

theorem firstMaximum_isSome {rank : α → β} {atMost : β → β → Bool} {xs : List α}
    (nonempty : xs ≠ []) : (firstMaximum atMost rank xs).isSome = true := by
  cases xs with
  | nil => exact absurd rfl nonempty
  | cons first rest =>
    unfold firstMaximum
    split
    · rfl
    · split <;> rfl

namespace Occurrence

/-- Counts for the literals of the declared variables, positive only for unassigned
ones. -/
structure Counts (a : Assignment) (counts : Array Nat) : Prop where
  size : counts.size = 2 * a.numVariables
  unassigned : ∀ code, 0 < counts.getD code 0 → a.assigns (Literal.ofCode code).var = false

variable {a : Assignment} {l : Literal}

theorem Counts.modify {counts : Array Nat} (sound : Counts a counts)
    (unassigned : a.assigns l.var = false) : Counts a (counts.modify l.code (· + 1)) where
  size := by rw [Array.size_modify, sound.size]
  unassigned := by
    intro code positive
    by_cases here : code = l.code
    · rw [here, Literal.ofCode_code]
      exact unassigned
    · apply sound.unassigned code
      rwa [Array.getD_eq_getD_getElem?, Array.getElem?_modify, if_neg (Ne.symm here),
        ← Array.getD_eq_getD_getElem?] at positive

theorem Counts.countClause {counts : Array Nat} (sound : Counts a counts) (c : Clause) :
    Counts a (countClause a counts c) := by
  unfold Occurrence.countClause
  induction c.literals generalizing counts with
  | nil => exact sound
  | cons l rest ih =>
    rw [List.foldl_cons]
    apply ih
    cases assigned : a.assigns l.var with
    | true => simpa using sound
    | false => simpa using sound.modify assigned

theorem counts_counts (clauses : List Clause) : Counts a (counts a clauses) := by
  have start : Counts a (Array.replicate (2 * a.numVariables) 0) := {
    size := Array.size_replicate
    unassigned := by
      intro code positive
      rw [Array.getD_eq_getD_getElem?, Array.getElem?_replicate] at positive
      split at positive <;> simp at positive }
  unfold counts
  generalize Array.replicate (2 * a.numVariables) 0 = zero at start
  induction clauses generalizing zero with
  | nil => exact start
  | cons c rest ih => exact ih _ (start.countClause c)

/-- A literal found by counting is declared and unassigned. -/
theorem commonest?_open {counted : Clause → Bool} {store : ClauseStore}
    (found : commonest? a counted store = some l) :
    l.var < a.numVariables ∧ a.assigns l.var = false := by
  unfold commonest? at found
  obtain ⟨code, maximum, rfl⟩ := Option.map_eq_some_iff.mp found
  obtain ⟨inRange, positive⟩ := List.mem_filter.mp (firstMaximum_mem maximum)
  have sound := counts_counts (a := a) (relevant a counted store)
  have bound : code < 2 * a.numVariables := sound.size ▸ List.mem_range.mp inRange
  refine ⟨?_, sound.unassigned code (by simpa using positive)⟩
  simp only [Literal.ofCode]
  omega

/-- A literal found by weighing is declared and unassigned, and there is one as long
as a variable is free. -/
theorem heaviest?_open (free : a.free ≠ []) (store : ClauseStore) :
    ∃ l, heaviest? a store = some l ∧ l.var ∈ a.free := by
  have some_ : (heaviest? a store).isSome = true := by
    unfold heaviest?
    exact (Option.isSome_map).trans (firstMaximum_isSome free)
  obtain ⟨l, found⟩ := Option.isSome_iff_exists.mp some_
  refine ⟨l, found, ?_⟩
  obtain ⟨var, maximum, rfl⟩ := Option.map_eq_some_iff.mp found
  exact firstMaximum_mem maximum

end Occurrence

/-! ## Activity -/

namespace Activity

variable {S : Type} [Score S] {l : Literal}

theorem climb_perm (passes : Literal → Bool) (l : Literal) (pos : Nat) (order : Array Literal)
    (positions : Array Nat) : (climb passes l pos order positions).1.toList.Perm order.toList := by
  fun_induction climb passes l pos order positions with
  | case1 pos order positions above next passed ih =>
    exact ih.trans (Array.swap_perm _ _).toList
  | case2 => exact .refl _
  | case3 => exact .refl _

theorem learn_perm (a : Activity S) (literals : List Literal) :
    (a.learn literals).ordered.Perm a.ordered := by
  have aged : a.age.ordered = a.ordered := by
    unfold age
    simp only
    split <;> rfl
  unfold learn
  rw [← aged]
  generalize a.age = b
  induction literals generalizing b with
  | nil => exact .refl _
  | cons l rest ih => exact (ih (b.bump l)).trans (climb_perm _ l _ b.order b.positions)

/-- At first the order has exactly the literals that have a score. -/
theorem mem_ofScores (scores : Array S) (decay : S) :
    l ∈ (ofScores scores decay).ordered ↔ l.code < scores.size := by
  unfold ofScores ordered
  rw [(List.mergeSort_perm _ _).mem_iff, List.mem_map]
  constructor
  · rintro ⟨code, inRange, rfl⟩
    rw [Literal.code_ofCode]
    exact List.mem_range.mp inRange
  · exact fun bound => ⟨l.code, List.mem_range.mpr bound, Literal.ofCode_code l⟩

end Activity

/-! ## Picking -/

namespace Brancher

/-- A brancher that looks for literals in an order has all literals there. -/
def Covers (b : Brancher) (n : Nat) : Prop :=
  ∀ activity, b.activity? = some activity → ∀ l, l ∈ activity.ordered ↔ l.var < n

theorem size_occurrences (n : Nat) (clauses : List Clause) :
    (occurrences n clauses).size = 2 * n := by
  have counted : ∀ (literals : List Literal) (scores : Array Float),
      (literals.foldl (fun scores l => scores.modify l.code (· + 1.0)) scores).size
        = scores.size := by
    intro literals
    induction literals with
    | nil => exact fun _ => rfl
    | cons l rest ih => exact fun scores => (ih _).trans Array.size_modify
  have all : ∀ scores : Array Float, (clauses.foldl (fun scores c =>
      c.literals.foldl (fun scores l => scores.modify l.code (· + 1.0)) scores) scores).size
        = scores.size := by
    induction clauses with
    | nil => exact fun _ => rfl
    | cons c rest ih => exact fun scores => (ih _).trans (counted c.literals scores)
  exact (all _).trans Array.size_replicate

theorem start_covers (o : Options) (n : Nat) (store : ClauseStore) :
    (start o n store).Covers n := by
  intro activity known l
  unfold start at known
  split at known
  all_goals simp only [activity?] at known
  all_goals cases known
  rw [Activity.mem_ofScores, size_occurrences]
  have bit : l.positive.toNat ≤ 1 := Bool.toNat_le l.positive
  unfold Literal.code
  omega

theorem noteLearned_covers {b : Brancher} (covers : b.Covers n) (literals : List Literal) :
    (b.noteLearned literals).Covers n := by
  unfold noteLearned
  split
  · rename_i activity
    intro activity' known l
    cases known
    rw [(Activity.learn_perm activity literals).mem_iff]
    exact covers activity rfl l
  · exact covers

variable {a : Assignment}

theorem mem_free_iff : var ∈ a.free ↔ var < a.numVariables ∧ a.assigns var = false := by
  simp [Assignment.free]

theorem drawLiteral_open (free : a.free ≠ []) (source : Randomness.Keystream) :
    ∃ l, (drawLiteral a source).1 = some l ∧ l.var ∈ a.free := by
  obtain ⟨var, member, chosen⟩ := Randomness.choose_mem free source
  unfold drawLiteral
  generalize Randomness.choose a.free source = drawn at chosen ⊢
  obtain ⟨_, source'⟩ := drawn
  cases chosen
  exact ⟨_, rfl, member⟩

theorem orDraw_open (free : a.free ≠ []) (source : Randomness.Keystream)
    (sound : ∀ l, found = some l → l.var ∈ a.free) :
    ∃ l, (orDraw found a source).1 = some l ∧ l.var ∈ a.free := by
  cases found with
  | none => exact drawLiteral_open free source
  | some l => exact ⟨l, rfl, sound l rfl⟩

/-- As long as a variable is free, the decision picked is one of its literals. -/
theorem pick_open {b : Brancher} (covers : b.Covers a.numVariables) (free : a.free ≠ [])
    (store : ClauseStore) : ∃ l, (b.pick a store).1 = some l ∧ l.var ∈ a.free := by
  cases b with
  | binaryOccurrence source =>
    exact orDraw_open free source fun l found => mem_free_iff.mpr (Occurrence.commonest?_open found)
  | vsids activity =>
    obtain ⟨var, member⟩ := List.exists_mem_of_ne_nil _ free
    have unassigned := mem_free_iff.mp member
    obtain ⟨l, found⟩ : ∃ l, activity.next? a = some l := by
      refine Option.isSome_iff_exists.mp (List.find?_isSome.mpr ⟨⟨var, true⟩, ?_, ?_⟩)
      · exact List.mem_reverse.mpr ((covers activity rfl _).mpr unassigned.1)
      · simpa using unassigned.2
    have listed := List.mem_reverse.mp (List.mem_of_find?_eq_some found)
    have inside := (covers activity rfl l).mp listed
    exact ⟨l, found, mem_free_iff.mpr ⟨inside, by simpa using List.find?_some found⟩⟩
  | occurrence source =>
    exact orDraw_open free source fun l found => mem_free_iff.mpr (Occurrence.commonest?_open found)
  | random source => exact drawLiteral_open free source
  | jeroslowWang => exact Occurrence.heaviest?_open free store

theorem pick_covers {b : Brancher} (covers : b.Covers n) (store : ClauseStore) :
    (b.pick a store).2.Covers n := by
  cases b with
  | vsids activity => exact covers
  | _ =>
    intro activity known
    cases known

theorem follow_covers {b : Brancher} (covers : b.Covers n) (phase : Phase) (s : State) :
    (b.follow phase s).2.Covers n := by
  cases phase with
  | deciding => exact pick_covers covers _
  | backjumping l => exact noteLearned_covers covers _
  | restarting l => exact noteLearned_covers covers _
  | _ => exact covers

end Brancher

end ClauseLearning
