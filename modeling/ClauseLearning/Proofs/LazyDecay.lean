import ClauseLearning.Proofs.ActivityOrder

/-! Growing the rewards orders the literals as shrinking the scores does. In the textbook scheme
every conflict multiplies all scores by the decay, every reward is one, and the literals are sorted
anew after each. With exact scores both schemes agree at every point up to one positive factor, the
next reward, whatever was scaled down in between; so they agree in the order, ties included. -/
namespace ClauseLearning

/-- Activity as textbooks have it: the score of each literal, and the literals in order. -/
structure Textbook where
  score : Literal → ℚ
  order : List Literal
  decay : ℚ

namespace Textbook

/-- The literals of a list, sorted by score; those of one score stay in the order they have. -/
def sort (score : Literal → ℚ) (order : List Literal) : List Literal :=
  order.mergeSort fun l other => decide (score l ≤ score other)

/-- The scheme with the given scores. Literals of one score are in the order of their codes. -/
def ofScores (scores : Array ℚ) (decay : ℚ) : Textbook :=
  let score := fun l : Literal => scores.getD l.code 0
  ⟨score, sort score ((List.range scores.size).map Literal.ofCode), decay⟩

/-- A reward adds one to the score of a literal, which comes last among those of its score. -/
def bump (t : Textbook) (l : Literal) : Textbook :=
  let score := Function.update t.score l (t.score l + 1)
  { t with score := score, order := sort score (t.order.erase l ++ [l]) }

/-- A conflict multiplies all scores by the decay. -/
def age (t : Textbook) : Textbook :=
  let score := fun l => t.decay * t.score l
  { t with score := score, order := sort score t.order }

/-- The scheme after a call. -/
def call (t : Textbook) : Activity.Call → Textbook
  | .bump l => t.bump l
  | .age => t.age

/-- The scheme after some calls, the first one first. -/
def after (t : Textbook) (calls : List Activity.Call) : Textbook :=
  calls.foldl call t

/-- The unassigned literal of highest score, the last one in the order. -/
def next? (t : Textbook) (assignment : Assignment) : Option Literal :=
  t.order.reverse.find? fun l => !assignment.assigns l.var

end Textbook

namespace Activity

/-- Activity agrees with the textbook scheme up to a positive factor, the next reward. -/
structure Scales (a : Activity ℚ) (t : Textbook) : Prop where
  positive : 0 < a.increment
  score : ∀ l, a.score l = a.increment * t.score l
  order : a.ordered = t.order
  decay : a.decay = t.decay

variable {a : Activity ℚ} {t : Textbook} {l : Literal}

/-- Scores that agree up to a positive factor compare alike. -/
theorem atMost_of_scaled {score : Literal → ℚ} {factor : ℚ} (positive : 0 < factor)
    (scaled : ∀ l, a.score l = factor * score l) :
    atMost a.scores = fun l other => decide (score l ≤ score other) := by
  funext l other
  rw [Bool.eq_iff_iff, decide_eq_true_iff]
  change Score.atMost (a.score l) (a.score other) = true ↔ _
  rw [exact_atMost_iff, scaled l, scaled other]
  exact mul_le_mul_iff_right₀ positive

theorem ofScores_scales (scores : Array ℚ) (decay : ℚ) :
    (ofScores scores decay).Scales (.ofScores scores decay) where
  positive := zero_lt_one
  score _ := (one_mul _).symm
  order := rfl
  decay := rfl

theorem Scales.bump (scales : a.Scales t) (inOrder : a.InOrder) (sound : a.Sound)
    (inside : l.code < a.scores.size) : (a.bump l).Scales (t.bump l) := by
  have scaled : ∀ other, (a.bump l).score other = a.increment * (t.bump l).score other := by
    intro other
    by_cases same : other = l
    · subst same
      rw [score_bump_self inside, scales.score other]
      change a.increment * t.score other + a.increment
        = a.increment * Function.update t.score other (t.score other + 1) other
      rw [Function.update_self, mul_add, mul_one]
    · rw [score_bump_ne same, scales.score other]
      change _ = a.increment * Function.update t.score l (t.score l + 1) other
      rw [Function.update_of_ne same]
  refine ⟨scales.positive, scaled, ?_, scales.decay⟩
  rw [inOrder.bump_ordered sound inside, atMost_of_scaled scales.positive scaled, scales.order]
  rfl

theorem scoreAt_divided (scores : Array ℚ) (d : ℚ) :
    scoreAt (scores.map (Score.div · d)) l = scoreAt scores l / d := by
  by_cases inside : l.code < scores.size
  · exact scoreAt_map _ inside
  · rw [scoreAt_of_size_le (Nat.le_of_not_lt inside),
      scoreAt_of_size_le (by simpa using inside)]
    exact (zero_div d).symm

theorem Scales.age (scales : a.Scales t) (inOrder : a.InOrder) (sound : a.Sound) :
    a.age.Scales t.age := by
  have divides : 0 < a.decay := sound.decay
  have rescaling : (0 : ℚ) < Score.rescaling := LawfulScore.rescaling (S := ℚ)
  have grown : 0 < a.increment / a.decay := div_pos scales.positive divides
  have positive : 0 < a.age.increment := by
    rcases age_scores a with ⟨-, increment⟩ | ⟨-, increment⟩
    · exact increment ▸ grown
    · exact increment ▸ div_pos grown rescaling
  have scaled : ∀ l, a.age.score l = a.age.increment * t.age.score l := by
    intro l
    have known := scales.score l
    change scoreAt a.age.scores l = a.age.increment * (t.decay * t.score l)
    rw [← scales.decay]
    rcases age_scores a with ⟨same, increment⟩ | ⟨divided, increment⟩
    · rw [same, increment]
      change a.score l = a.increment / a.decay * (a.decay * t.score l)
      rw [known]
      field_simp
    · rw [divided, increment, scoreAt_divided]
      change a.score l / Score.rescaling
        = a.increment / a.decay / Score.rescaling * (a.decay * t.score l)
      rw [known]
      field_simp
  refine ⟨positive, scaled, ?_, (age_order a).2.2.trans scales.decay⟩
  have sorted := (inOrder.age sound).sorted
  rw [atMost_of_scaled positive scaled, (age_order a).1, scales.order] at sorted
  rw [(age_order a).1, scales.order]
  exact (List.mergeSort_of_pairwise sorted).symm

theorem Scales.after {calls : List Call} (scales : a.Scales t) (inOrder : a.InOrder)
    (sound : a.Sound) (within : ∀ c ∈ calls, c.Within a.scores.size) :
    (a.after calls).Scales (t.after calls) := by
  induction calls generalizing a t with
  | nil => exact scales
  | cons c calls ih =>
    obtain ⟨here, rest⟩ := List.forall_mem_cons.mp within
    obtain ⟨inOrder', sound'⟩ := inOrder.call sound here
    refine ih ?_ inOrder' sound' (by simpa using rest)
    cases c with
    | bump l => exact scales.bump inOrder sound here
    | age => exact scales.age inOrder sound

end Activity

/-- With exact scores, growing the rewards and shrinking the scores differ by one positive factor
at every point, and order and pick the same literals. -/
theorem lazy_decay_is_eager {scores : Array ℚ} {decay : ℚ} {calls : List Activity.Call}
    (nonnegative : ∀ x ∈ scores, 0 ≤ x) (positive : 0 < decay)
    (within : ∀ c ∈ calls, c.Within scores.size) :
    let a := (Activity.ofScores scores decay).after calls
    let t := (Textbook.ofScores scores decay).after calls
    (0 < a.increment ∧ ∀ l, a.score l = a.increment * t.score l) ∧
    a.ordered = t.order ∧ ∀ assignment, a.next? assignment = t.next? assignment := by
  have scales := (Activity.ofScores_scales scores decay).after
    (Activity.ofScores_inOrder nonnegative positive) (Activity.ofScores_sound nonnegative positive)
    within
  refine ⟨⟨scales.positive, scales.score⟩, scales.order, fun assignment => ?_⟩
  unfold Activity.next? Textbook.next?
  rw [scales.order]

/-- Two agings with a tiny decay let the reward grow too large, so all scores are scaled down; a
reward after them outweighs what counted before. -/
theorem lazy_decay_is_eager_tiny :
    let calls : List Activity.Call := [.age, .age, .bump ⟨1, true⟩]
    let a := (Activity.ofScores (#[3, 1, 2, 0] : Array ℚ) (1 / 10 ^ 60)).after calls
    let t := (Textbook.ofScores #[3, 1, 2, 0] (1 / 10 ^ 60)).after calls
    a.increment = 10 ^ 20 ∧ a.ordered = t.order ∧
    ∀ assignment, a.next? assignment = t.next? assignment := by
  intro calls a t
  obtain ⟨-, order, next⟩ := @lazy_decay_is_eager #[3, 1, 2, 0] (1 / 10 ^ 60) calls
    (by simp) (by norm_num) (by decide)
  refine ⟨?_, order, next⟩
  simp only [a, calls, Activity.after, Activity.call, List.foldl_cons, List.foldl_nil,
    Activity.bump, Activity.age, Activity.ofScores]
  norm_num [Score.needsRescaling, Score.div, Score.one, Score.rescaling]

end ClauseLearning
