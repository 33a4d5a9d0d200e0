import ClauseLearning.Proofs.BranchingChoices
import ClauseLearning.Proofs.NotedPlaces
import ClauseLearning.Proofs.ScoreLaws

/-! The literals stay in order of activity. After any rewards and agings the order holds every
literal once, at its noted place, and no literal before one of smaller score; a reward moves its
literal to where stable sorting puts it after those of the same score. So the literal found last in
the order among the unassigned ones has the highest score of them. -/
namespace ClauseLearning

namespace Activity

/-! ## Order -/

variable {S : Type} [Score S] {a : Activity S} {scores : Array S} {l next : Literal}

/-- The literals with codes below a bound. -/
def literals (count : Nat) : List Literal :=
  (List.range count).map Literal.ofCode

theorem mem_literals_iff {count : Nat} : l ∈ literals count ↔ l.code < count := by
  refine ⟨fun member => ?_, fun bound => ?_⟩
  · obtain ⟨code, inRange, rfl⟩ := List.mem_map.mp member
    rw [Literal.code_ofCode]
    exact List.mem_range.mp inRange
  · exact List.mem_map.mpr ⟨l.code, List.mem_range.mpr bound, Literal.ofCode_code l⟩

theorem nodup_literals (count : Nat) : (literals count).Nodup := by
  refine List.Nodup.map ?_ List.nodup_range
  intro code code' same
  rw [← Literal.code_ofCode code, same, Literal.code_ofCode]

/-- Every literal with a score is listed once, at its noted place, and none before one of smaller
score. -/
structure InOrder (a : Activity S) : Prop where
  complete : a.ordered.Perm (literals a.scores.size)
  placed : ∀ l, l.code < a.scores.size → a.positions[l.code]? = some (a.ordered.idxOf l)
  sorted : a.ordered.Pairwise (atMost a.scores · · = true)

theorem InOrder.mem_iff (inOrder : a.InOrder) : l ∈ a.ordered ↔ l.code < a.scores.size :=
  inOrder.complete.mem_iff.trans mem_literals_iff

theorem InOrder.distinct (inOrder : a.InOrder) : a.ordered.Nodup :=
  inOrder.complete.nodup_iff.mpr (nodup_literals _)

/-- A literal that can be rewarded is ready to climb from its noted place. -/
theorem InOrder.climbing (inOrder : a.InOrder) (inside : l.code < a.scores.size) :
    ∃ before above, Climbing l before above a.order a.positions ∧ a.position l = before.length := by
  obtain ⟨before, above, shape⟩ := List.append_of_mem (inOrder.mem_iff.mpr inside)
  have known := inOrder.placed l inside
  have fresh : l ∉ before := by
    have parts := shape ▸ inOrder.distinct
    intro member
    exact (List.nodup_append.mp parts).2.2 l member l List.mem_cons_self rfl
  have place : a.ordered.idxOf l = before.length := by
    rw [shape, List.idxOf_append_of_notMem fresh, List.idxOf_cons_self, Nat.add_zero]
  refine ⟨before, above, ⟨shape, inOrder.distinct, ?_, ?_⟩, ?_⟩
  · intro i other here _
    have listed := List.mem_of_getElem? here
    have index : i = a.ordered.idxOf other :=
      index_unique inOrder.distinct here (List.getElem?_idxOf listed)
    rw [index]
    exact inOrder.placed other (inOrder.mem_iff.mp listed)
  · exact (Array.getElem?_eq_some_iff.mp known).1
  · unfold position
    rw [Array.getD_eq_getD_getElem?, known, place]
    rfl

/-! ## Calls -/

/-- A call that changes activity. -/
inductive Call where
  /-- A literal is rewarded. -/
  | bump (l : Literal)
  /-- A conflict passes. -/
  | age
  deriving DecidableEq

/-- A call only rewards literals with codes below a bound. -/
def Call.Within (count : Nat) : Call → Prop
  | .bump l => l.code < count
  | .age => True

instance (count : Nat) : DecidablePred (Call.Within count)
  | .bump l => inferInstanceAs (Decidable (l.code < count))
  | .age => isTrue trivial

/-- Activity after a call. -/
def call (a : Activity S) : Call → Activity S
  | .bump l => a.bump l
  | .age => a.age

/-- Activity after some calls, the first one first. -/
def after (a : Activity S) (calls : List Call) : Activity S :=
  calls.foldl call a

/-- Learning a clause is aging once and rewarding its literals. -/
theorem learn_eq_after (a : Activity S) (literals : List Literal) :
    a.learn literals = a.after (.age :: literals.map .bump) := by
  rw [after, List.foldl_cons, List.foldl_map]
  rfl

theorem scoreAt_of_size_le (outside : scores.size ≤ l.code) : scoreAt scores l = Score.zero := by
  unfold scoreAt
  rw [Array.getD_eq_getD_getElem?, Array.getElem?_eq_none outside]
  rfl

theorem scoreAt_map (f : S → S) (inside : l.code < scores.size) :
    scoreAt (scores.map f) l = f (scoreAt scores l) := by
  unfold scoreAt
  simp [Array.getD_eq_getD_getElem?, inside]

theorem score_bump_self (inside : l.code < a.scores.size) :
    (a.bump l).score l = Score.add (a.score l) a.increment := by
  change scoreAt (a.scores.setIfInBounds l.code _) l = _
  unfold scoreAt
  simp [Array.getD_eq_getD_getElem?, inside]

theorem score_bump_ne (other : next ≠ l) : (a.bump l).score next = a.score next := by
  have codes : l.code ≠ next.code := fun same => other (Literal.code_inj.mp same.symm)
  change scoreAt (a.scores.setIfInBounds l.code _) next = scoreAt a.scores next
  unfold scoreAt
  simp [Array.getD_eq_getD_getElem?, Array.getElem?_setIfInBounds_ne codes]

@[simp] theorem size_bump : (a.bump l).scores.size = a.scores.size :=
  Array.size_setIfInBounds

/-- Aging divides all scores by one divisor, if it changes any. -/
theorem age_scores (a : Activity S) :
    a.age.scores = a.scores ∧ a.age.increment = Score.div a.increment a.decay ∨
      a.age.scores = a.scores.map (Score.div · Score.rescaling) ∧
        a.age.increment = Score.div (Score.div a.increment a.decay) Score.rescaling := by
  unfold age
  simp only
  split
  · exact .inr ⟨rfl, rfl⟩
  · exact .inl ⟨rfl, rfl⟩

theorem age_order (a : Activity S) :
    a.age.ordered = a.ordered ∧ a.age.positions = a.positions ∧ a.age.decay = a.decay := by
  unfold age
  simp only
  split <;> exact ⟨rfl, rfl, rfl⟩

@[simp] theorem size_age : a.age.scores.size = a.scores.size := by
  rcases age_scores a with ⟨same, -⟩ | ⟨scaled, -⟩
  · rw [same]
  · rw [scaled, Array.size_map]

@[simp] theorem size_call (a : Activity S) (c : Call) :
    (a.call c).scores.size = a.scores.size := by
  cases c with
  | bump l => exact size_bump
  | age => exact size_age

/-- A rewarded literal comes to stand right behind those above it of no larger score. -/
theorem InOrder.climbs (inOrder : a.InOrder) (inside : l.code < a.scores.size) :
    ∃ before above, a.ordered = before ++ l :: above ∧
      (a.bump l).ordered = before ++ above.takeWhile (atMost (a.bump l).scores · l) ++
        l :: above.dropWhile (atMost (a.bump l).scores · l) ∧
      Placed (a.bump l).ordered (a.bump l).positions := by
  obtain ⟨before, above, climbing, place⟩ := inOrder.climbing inside
  obtain ⟨climbed, placed⟩ := climbing.climb (atMost (a.bump l).scores · l)
  have same : a.bump l = { a with
      scores := (a.bump l).scores
      order := (climb (atMost (a.bump l).scores · l) l before.length a.order a.positions).1
      positions :=
        (climb (atMost (a.bump l).scores · l) l before.length a.order a.positions).2 } := by
    have passes : (fun other => Score.atMost (scoreAt (a.bump l).scores other)
        (Score.add (a.score l) a.increment)) = (atMost (a.bump l).scores · l) := by
      funext other
      rw [← score_bump_self inside]
      rfl
    rw [← place, ← passes]
    rfl
  refine ⟨before, above, climbing.shape, ?_, ?_⟩
  · rw [same]
    exact climbed
  · rw [same]
    exact placed

/-! ## Scores that arise -/

variable [LawfulScore S]

open LawfulScore

/-- The scores, the next reward and the decay obey the laws. -/
structure Sound (a : Activity S) : Prop where
  score : ∀ l, Arises (a.score l)
  increment : Arises a.increment
  decay : Divides a.decay

theorem Sound.total (sound : a.Sound) (l other : Literal) :
    (atMost a.scores l other || atMost a.scores other l) = true :=
  LawfulScore.total (sound.score l) (sound.score other)

theorem Sound.trans (sound : a.Sound) (l next other : Literal)
    (first : atMost a.scores l next = true) (second : atMost a.scores next other = true) :
    atMost a.scores l other = true :=
  LawfulScore.trans (sound.score l) (sound.score next) (sound.score other) first second

theorem ofScores_sound {decay : S} (arise : ∀ x ∈ scores, Arises x) (divides : Divides decay) :
    (ofScores scores decay).Sound := by
  refine ⟨fun l => ?_, one, divides⟩
  change Arises (scoreAt scores l)
  by_cases inside : l.code < scores.size
  · unfold scoreAt
    rw [Array.getD_eq_getD_getElem?, Array.getElem?_eq_getElem inside]
    exact arise _ (Array.getElem_mem inside)
  · rw [scoreAt_of_size_le (Nat.le_of_not_lt inside)]
    exact zero

theorem Sound.bump (sound : a.Sound) (inside : l.code < a.scores.size) : (a.bump l).Sound where
  score := by
    intro other
    by_cases same : other = l
    · subst same
      rw [score_bump_self inside]
      exact add (sound.score other) sound.increment
    · rw [score_bump_ne same]
      exact sound.score other
  increment := sound.increment
  decay := sound.decay

theorem Sound.age (sound : a.Sound) : a.age.Sound := by
  have grown := div sound.increment sound.decay
  have decay : Divides a.age.decay := (age_order a).2.2 ▸ sound.decay
  rcases age_scores a with ⟨same, increment⟩ | ⟨scaled, increment⟩
  · exact ⟨fun l => (same ▸ sound.score l : Arises (scoreAt a.age.scores l)), increment ▸ grown,
      decay⟩
  · refine ⟨fun l => ?_, increment ▸ div grown rescaling, decay⟩
    change Arises (scoreAt a.age.scores l)
    by_cases inside : l.code < a.scores.size
    · rw [scaled, scoreAt_map _ inside]
      exact div (sound.score l) rescaling
    · rw [scoreAt_of_size_le (by simpa using inside)]
      exact zero

/-! ## What keeps the order -/

theorem ofScores_inOrder {decay : S} (arise : ∀ x ∈ scores, Arises x) (divides : Divides decay) :
    (ofScores scores decay).InOrder := by
  have sound := ofScores_sound arise divides
  have complete : (ofScores scores decay).ordered.Perm (literals scores.size) :=
    List.mergeSort_perm _ _
  have distinct := complete.nodup_iff.mpr (nodup_literals _)
  refine ⟨complete, fun l inside => ?_, List.pairwise_mergeSort sound.trans sound.total _⟩
  have listed := complete.mem_iff.mpr (mem_literals_iff.mpr inside)
  have noted := getElem?_notePlaces distinct 0 (Array.replicate scores.size 0)
    (fun other member => by simpa using mem_literals_iff.mp (complete.mem_iff.mp member))
    (List.getElem?_idxOf listed)
  rw [Nat.zero_add] at noted
  exact noted

/-- A reward moves its literal to the place of a stable sort that finds it last. -/
theorem InOrder.bump_ordered (inOrder : a.InOrder) (sound : a.Sound)
    (inside : l.code < a.scores.size) :
    (a.bump l).ordered = (a.ordered.erase l ++ [l]).mergeSort (atMost (a.bump l).scores) := by
  obtain ⟨before, above, shape, climbed, -⟩ := inOrder.climbs inside
  have sound' := sound.bump inside
  have sorted : (before ++ l :: above).Pairwise (atMost a.scores · · = true) :=
    shape ▸ inOrder.sorted
  have distinct : (before ++ l :: above).Nodup := shape ▸ inOrder.distinct
  obtain ⟨-, tail, apart⟩ := List.nodup_append.mp distinct
  have fresh : l ∉ before := fun member => apart l member l List.mem_cons_self rfl
  have erased : a.ordered.erase l = before ++ above := by
    rw [shape, List.erase_append_right _ fresh, List.erase_cons_head]
  have others : ∀ other ∈ before ++ above, (a.bump l).score other = a.score other := by
    intro other member
    refine score_bump_ne ?_
    rintro rfl
    exact (List.mem_append.mp member).elim fresh (List.nodup_cons.mp tail).1
  -- only the score of the literal itself changes, and it does not fall
  have sorted' : (before ++ above).Pairwise (atMost (a.bump l).scores · · = true) := by
    refine (sorted.sublist (List.Sublist.append_left (List.sublist_cons_self l above) before))
      |>.imp_of_mem fun member member' le => ?_
    change Score.atMost ((a.bump l).score _) ((a.bump l).score _) = true
    rw [others _ member, others _ member']
    exact le
  have below : ∀ other ∈ before, atMost (a.bump l).scores other l = true := by
    intro other member
    have old := (List.pairwise_append.mp sorted).2.2 other member l List.mem_cons_self
    change Score.atMost ((a.bump l).score other) ((a.bump l).score l) = true
    rw [others other (List.mem_append_left above member), score_bump_self inside]
    exact LawfulScore.trans (sound.score other) (sound.score l)
      (add (sound.score l) sound.increment) old (le_add (sound.score l) sound.increment)
  have distinct' : (before ++ above ++ [l]).Nodup := by
    rw [List.append_assoc]
    exact (List.perm_append_singleton l above).symm.append_left before |>.nodup_iff.mp distinct
  rw [erased, mergeSort_concat sound'.trans sound'.total sorted' distinct', climbed,
    List.takeWhile_append_of_pos below, List.dropWhile_append_of_pos below, List.append_assoc]

theorem InOrder.bump (inOrder : a.InOrder) (sound : a.Sound) (inside : l.code < a.scores.size) :
    (a.bump l).InOrder := by
  have sound' := sound.bump inside
  obtain ⟨before, above, -, -, placed⟩ := inOrder.climbs inside
  have complete : (a.bump l).ordered.Perm (literals (a.bump l).scores.size) := by
    rw [size_bump]
    exact (climb_perm _ l _ a.order a.positions).trans inOrder.complete
  refine ⟨complete, fun other listed => ?_, ?_⟩
  · exact placed _ _ (List.getElem?_idxOf (complete.mem_iff.mpr (mem_literals_iff.mpr listed)))
  · rw [inOrder.bump_ordered sound inside]
    exact List.pairwise_mergeSort sound'.trans sound'.total _

theorem InOrder.age (inOrder : a.InOrder) (sound : a.Sound) : a.age.InOrder := by
  obtain ⟨order, positions, -⟩ := age_order a
  refine ⟨?_, ?_, ?_⟩
  · rw [order, size_age]
    exact inOrder.complete
  · rw [order, positions, size_age]
    exact inOrder.placed
  · rw [order]
    refine inOrder.sorted.imp_of_mem fun member member' le => ?_
    rcases age_scores a with ⟨same, -⟩ | ⟨scaled, -⟩
    · rw [same]
      exact le
    · unfold atMost
      rw [scaled, scoreAt_map _ (inOrder.mem_iff.mp member),
        scoreAt_map _ (inOrder.mem_iff.mp member')]
      exact div_le_div (sound.score _) (sound.score _) rescaling le

/-! ## Choosing -/

/-- An unassigned literal of which no other one has a higher score. -/
structure Highest (a : Activity S) (assignment : Assignment) (l : Literal) : Prop where
  listed : l.code < a.scores.size
  unassigned : assignment.assigns l.var = false
  highest : ∀ other, other.code < a.scores.size → assignment.assigns other.var = false →
    Score.atMost (a.score other) (a.score l) = true

theorem InOrder.next?_highest (inOrder : a.InOrder) (sound : a.Sound) {assignment : Assignment}
    (inside : next.code < a.scores.size) (unassigned : assignment.assigns next.var = false) :
    ∃ l, a.next? assignment = some l ∧ a.Highest assignment l := by
  have some_ : (a.next? assignment).isSome = true :=
    List.find?_isSome.mpr ⟨next, List.mem_reverse.mpr (inOrder.mem_iff.mpr inside), by
      simpa using unassigned⟩
  obtain ⟨l, found⟩ := Option.isSome_iff_exists.mp some_
  obtain ⟨free, later, earlier, shape, passed⟩ := List.find?_eq_some_iff_append.mp found
  have order : a.ordered = earlier.reverse ++ l :: later.reverse := by
    rw [← List.reverse_reverse a.ordered, shape]
    simp
  have sorted := order ▸ inOrder.sorted
  refine ⟨l, found, ⟨?_, by simpa using free, fun other inside unassigned => ?_⟩⟩
  · exact inOrder.mem_iff.mp (order ▸ List.mem_append_right _ List.mem_cons_self)
  · have listed := order ▸ inOrder.mem_iff.mpr inside
    rcases List.mem_append.mp listed with early | late
    · exact (List.pairwise_append.mp sorted).2.2 other early l List.mem_cons_self
    · rcases List.mem_cons.mp late with rfl | late
      · have same := sound.total other other
        rw [Bool.or_self] at same
        exact same
      · have assigned := passed other (List.mem_reverse.mp late)
        simp [unassigned] at assigned

/-! ## Runs -/

theorem InOrder.call {c : Call} (inOrder : a.InOrder) (sound : a.Sound)
    (within : c.Within a.scores.size) : (a.call c).InOrder ∧ (a.call c).Sound := by
  cases c with
  | bump l => exact ⟨inOrder.bump sound within, sound.bump within⟩
  | age => exact ⟨inOrder.age sound, sound.age⟩

theorem InOrder.after {calls : List Call} (inOrder : a.InOrder) (sound : a.Sound)
    (within : ∀ c ∈ calls, c.Within a.scores.size) :
    (a.after calls).InOrder ∧ (a.after calls).Sound ∧
      (a.after calls).scores.size = a.scores.size := by
  induction calls generalizing a with
  | nil => exact ⟨inOrder, sound, rfl⟩
  | cons c calls ih =>
    obtain ⟨here, rest⟩ := List.forall_mem_cons.mp within
    obtain ⟨inOrder', sound'⟩ := inOrder.call sound here
    have kept := ih inOrder' sound' (by simpa using rest)
    exact ⟨kept.1, kept.2.1, kept.2.2.trans (size_call a c)⟩

end Activity

/-- Whatever is rewarded and however often the rewards age, every literal stands at its noted place
and none before one of smaller score. A reward puts its literal where a stable sort by the new
scores does that finds it last, and the next decision has the highest score of all literals that
are unassigned. -/
theorem activity_stays_in_order {scores : Array Float} {decay : Float}
    {calls : List Activity.Call} (nonnegative : ∀ x ∈ scores, 0.0 ≤ x) (positive : 0.0 < decay)
    (shrinks : decay ≤ 1.0) (within : ∀ c ∈ calls, c.Within scores.size) :
    let a := (Activity.ofScores scores decay).after calls
    a.scores.size = scores.size ∧ (∀ l, 0.0 ≤ a.score l) ∧ a.InOrder ∧
    (∀ l : Literal, l.code < scores.size → (a.bump l).ordered
      = (a.ordered.erase l ++ [l]).mergeSort (Activity.atMost (a.bump l).scores)) ∧
    ∀ assignment : Assignment,
      (∃ l : Literal, l.code < scores.size ∧ assignment.assigns l.var = false) →
      ∃ l, a.next? assignment = some l ∧ a.Highest assignment l := by
  have divides : LawfulScore.Divides decay := ⟨positive, isFinite_of_le_one positive shrinks⟩
  obtain ⟨inOrder, sound, size⟩ := (Activity.ofScores_inOrder nonnegative divides).after
    (Activity.ofScores_sound nonnegative divides) within
  refine ⟨size, sound.score, inOrder, fun l bound => ?_, ?_⟩
  · exact inOrder.bump_ordered sound (size ▸ bound)
  · rintro assignment ⟨l, bound, unassigned⟩
    exact inOrder.next?_highest sound (size ▸ bound) unassigned

/-- Two variables with different scores, one of them rewarded before an aging and one after. -/
theorem activity_stays_in_order_halving :
    let a := (Activity.ofScores #[3.0, 1.0, 2.0, 0.0] 0.5).after
      [.bump ⟨1, true⟩, .age, .bump ⟨0, true⟩]
    a.InOrder ∧ ∃ l, a.next? (.unassigned 2) = some l ∧ a.Highest (.unassigned 2) l := by
  intro a
  obtain ⟨-, -, inOrder, -, highest⟩ := @activity_stays_in_order #[3.0, 1.0, 2.0, 0.0] 0.5
    [.bump ⟨1, true⟩, .age, .bump ⟨0, true⟩] (by decide) (by decide) (by decide) (by decide)
  exact ⟨inOrder, highest _ ⟨⟨0, true⟩, by decide, by decide⟩⟩

end ClauseLearning
