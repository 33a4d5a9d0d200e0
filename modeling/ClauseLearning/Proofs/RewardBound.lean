import Mathlib.Algebra.Order.Archimedean.Basic
import ClauseLearning.Proofs.LazyDecay
import ClauseLearning.Search.Options

/-! How far the rewards of activity grow. Aging divides the next reward by the decay and, if it is
then beyond the bound, once by the bound. A decay that is no smaller than the inverse of the bound
cannot outweigh that one division, and the rewards stay within the bound for good. With any smaller
decay they grow geometrically, past every limit. -/
namespace ClauseLearning

namespace Activity

variable {a : Activity ℚ} {l : Literal}

/-- The next reward is within the bound, and the decay cannot outweigh one division by it. -/
structure Tame (a : Activity ℚ) : Prop where
  gentle : 1 ≤ a.decay * Score.rescaling
  nonnegative : 0 ≤ a.increment
  bounded : a.increment ≤ Score.rescaling

/-! ## One call -/

/-- Aging divides by the decay; it divides by the bound too when the next reward is beyond it. -/
theorem age_eq (a : Activity ℚ) :
    a.increment / a.decay ≤ Score.rescaling ∧
        a.age = { a with increment := a.increment / a.decay } ∨
      Score.rescaling < a.increment / a.decay ∧
        a.age = { a with
          scores := a.scores.map (Score.div · Score.rescaling)
          increment := a.increment / a.decay / Score.rescaling } := by
  by_cases beyond : Score.rescaling < a.increment / a.decay
  · exact .inr ⟨beyond, if_pos (exact_needsRescaling_iff.mpr beyond)⟩
  · exact .inl ⟨le_of_not_gt beyond, if_neg (mt exact_needsRescaling_iff.mp beyond)⟩

theorem Tame.age (tame : a.Tame) : a.age.Tame := by
  have decay : 0 < a.decay :=
    pos_of_mul_pos_left (zero_lt_one.trans_le tame.gentle) exact_rescaling_pos.le
  have grown : 0 ≤ a.increment / a.decay := div_nonneg tame.nonnegative decay.le
  rcases age_eq a with ⟨within, aged⟩ | ⟨-, aged⟩
  · rw [aged]
    exact ⟨tame.gentle, grown, within⟩
  · -- before it was divided by the decay the reward was within the bound
    rw [aged]
    refine ⟨tame.gentle, div_nonneg grown exact_rescaling_pos.le, ?_⟩
    have divided := div_le_div_of_nonneg_right tame.bounded decay.le
    calc a.increment / a.decay / Score.rescaling
        ≤ Score.rescaling / a.decay / Score.rescaling :=
          div_le_div_of_nonneg_right divided exact_rescaling_pos.le
      _ = 1 / a.decay := by rw [div_right_comm, div_self exact_rescaling_pos.ne']
      _ ≤ Score.rescaling := (div_le_iff₀' decay).mpr tame.gentle

theorem Tame.call (tame : a.Tame) (c : Call) : (a.call c).Tame := by
  cases c with
  | bump l => exact ⟨tame.gentle, tame.nonnegative, tame.bounded⟩
  | age => exact tame.age

/-- A literal without a score is rewarded in vain; the score of any other rises by the reward. -/
theorem score_bump_self_le (nonnegative : 0 ≤ a.increment) :
    (a.bump l).score l ≤ a.score l + a.increment := by
  by_cases inside : l.code < a.scores.size
  · exact (score_bump_self inside).le
  · have outside : a.scores.size ≤ l.code := Nat.le_of_not_lt inside
    have unscored : (a.bump l).score l = a.score l :=
      (scoreAt_of_size_le (size_bump.trans_le outside)).trans (scoreAt_of_size_le outside).symm
    rw [unscored]
    exact le_add_of_nonneg_right nonnegative

/-- Aging raises no score above a limit that is not negative. -/
theorem score_age_le {limit : ℚ} (nonnegative : 0 ≤ limit) (below : a.score l ≤ limit) :
    a.age.score l ≤ limit := by
  rcases age_eq a with ⟨-, aged⟩ | ⟨-, aged⟩
  · rw [aged]
    exact below
  · rw [aged]
    change scoreAt (a.scores.map _) l ≤ limit
    rw [scoreAt_divided]
    exact div_le_of_le_mul₀ exact_rescaling_pos.le nonnegative
      (below.trans (le_mul_of_one_le_right nonnegative one_le_exact_rescaling))

/-- Whether or not aging divides by the bound, the next reward is no smaller than if it did. -/
theorem le_increment_age (decay : 0 < a.decay) (nonnegative : 0 ≤ a.increment) :
    a.increment * (1 / (a.decay * Score.rescaling)) ≤ a.age.increment := by
  have divided : a.increment * (1 / (a.decay * Score.rescaling)) =
      a.increment / a.decay / Score.rescaling := by rw [div_div, mul_one_div]
  rcases age_eq a with ⟨-, aged⟩ | ⟨-, aged⟩
  · rw [aged, divided]
    exact div_le_self (div_nonneg nonnegative decay.le) one_le_exact_rescaling
  · rw [aged, divided]

/-! ## Runs -/

theorem Tame.after (tame : a.Tame) (calls : List Call) : (a.after calls).Tame := by
  induction calls generalizing a with
  | nil => exact tame
  | cons c calls ih => exact ih (tame.call c)

/-- Only its own rewards raise the score of a literal, each by the bound at most. -/
theorem Tame.score_after_le (tame : a.Tame) {limit : ℚ} (nonnegative : 0 ≤ limit)
    (below : a.score l ≤ limit) (calls : List Call) :
    (a.after calls).score l ≤ limit + calls.count (.bump l) * Score.rescaling := by
  induction calls generalizing a limit with
  | nil =>
    rw [List.count_nil, Nat.cast_zero, zero_mul, add_zero]
    exact below
  | cons c calls ih =>
    cases c with
    | age =>
      rw [List.count_cons_of_ne (by simp)]
      exact ih (tame.call .age) nonnegative (score_age_le nonnegative below)
    | bump m =>
      by_cases same : m = l
      · subst same
        have rewarded := (score_bump_self_le tame.nonnegative).trans (add_le_add below tame.bounded)
        have raised : 0 ≤ limit + Score.rescaling :=
          add_nonneg nonnegative exact_rescaling_pos.le
        refine (ih (tame.call (.bump m)) raised rewarded).trans_eq ?_
        rw [List.count_cons_self]
        push_cast
        ring
      · rw [List.count_cons_of_ne (by simpa using same)]
        refine ih (tame.call (.bump m)) nonnegative ?_
        exact (score_bump_ne (Ne.symm same)).trans_le below

/-- Agings alone make the rewards grow geometrically, divided by the bound as they may be. -/
theorem le_increment_agings (decay : 0 < a.decay) (nonnegative : 0 ≤ a.increment)
    (conflicts : Nat) :
    a.increment * (1 / (a.decay * Score.rescaling)) ^ conflicts ≤
      (a.after (List.replicate conflicts .age)).increment := by
  have ratio : 0 ≤ 1 / (a.decay * Score.rescaling) :=
    one_div_nonneg.mpr (mul_pos decay exact_rescaling_pos).le
  induction conflicts generalizing a with
  | zero => simp [after]
  | succ conflicts ih =>
    have kept : a.age.decay = a.decay := (age_order a).2.2
    have grown := le_increment_age decay nonnegative
    have later := ih (kept ▸ decay) ((mul_nonneg nonnegative ratio).trans grown) (kept ▸ ratio)
    rw [kept] at later
    calc a.increment * (1 / (a.decay * Score.rescaling)) ^ (conflicts + 1)
        = a.increment * (1 / (a.decay * Score.rescaling)) *
            (1 / (a.decay * Score.rescaling)) ^ conflicts := by ring
      _ ≤ a.age.increment * (1 / (a.decay * Score.rescaling)) ^ conflicts := by gcongr
      _ ≤ _ := later

end Activity

/-- With exact scores, the next reward stays within the bound for good exactly when the decay is no
smaller than the inverse of the bound. Then scores grow by rewards alone, each of which adds the
bound at most. With a smaller decay the conflicts alone make the rewards outgrow every limit. -/
theorem rewards_bounded_iff {scores : Array ℚ} {decay : ℚ} (nonnegative : ∀ x ∈ scores, 0 ≤ x)
    (positive : 0 < decay) :
    ((∀ calls, ((Activity.ofScores scores decay).after calls).increment ≤ Score.rescaling) ↔
        1 ≤ decay * Score.rescaling) ∧
      (1 ≤ decay * Score.rescaling → ∀ calls l,
        ((Activity.ofScores scores decay).after calls).score l ≤
          (Activity.ofScores scores decay).score l + calls.count (.bump l) * Score.rescaling) ∧
      (decay * Score.rescaling < 1 → ∀ limit, ∃ conflicts, limit <
        ((Activity.ofScores scores decay).after (List.replicate conflicts .age)).increment) := by
  have tame : 1 ≤ decay * Score.rescaling → (Activity.ofScores scores decay).Tame :=
    fun gentle => ⟨gentle, zero_le_one, one_le_exact_rescaling⟩
  have outgrows : decay * Score.rescaling < 1 → ∀ limit, ∃ conflicts, limit <
      ((Activity.ofScores scores decay).after (List.replicate conflicts .age)).increment := by
    intro harsh limit
    obtain ⟨conflicts, passed⟩ := pow_unbounded_of_one_lt limit
      ((one_lt_div (mul_pos positive exact_rescaling_pos)).mpr harsh)
    have grown := Activity.le_increment_agings (a := .ofScores scores decay) positive zero_le_one
      conflicts
    exact ⟨conflicts, passed.trans_le ((one_mul _).symm.trans_le grown)⟩
  refine ⟨⟨fun bounded => ?_, fun gentle calls => ((tame gentle).after calls).bounded⟩, ?_,
    outgrows⟩
  · by_contra harsh
    obtain ⟨conflicts, passed⟩ := outgrows (not_le.mp harsh) Score.rescaling
    exact passed.not_ge (bounded _)
  · intro gentle calls l
    have sound := Activity.ofScores_sound nonnegative positive
    exact (tame gentle).score_after_le (sound.score l) le_rfl calls

/-- A decay of ten to the power of -60 is large enough, and one of ten to the power of -201 is
not. -/
theorem rewards_bounded_iff_tiny :
    (∀ calls, ((Activity.ofScores (#[3, 1, 2, 0] : Array ℚ) (1 / 10 ^ 60)).after calls).increment ≤
      Score.rescaling) ∧
    ∀ limit, ∃ conflicts, limit <
      ((Activity.ofScores (#[3, 1, 2, 0] : Array ℚ) (1 / 10 ^ 201)).after
        (List.replicate conflicts .age)).increment := by
  have nonnegative : ∀ x ∈ (#[3, 1, 2, 0] : Array ℚ), 0 ≤ x := by simp
  constructor
  · refine (rewards_bounded_iff nonnegative (by positivity)).1.mpr ?_
    norm_num [Score.rescaling]
  · refine (rewards_bounded_iff nonnegative (by positivity)).2.2 ?_
    norm_num [Score.rescaling]

/-- Options with a decay of ten to the power of -201 are valid, and already after the first conflict
the next reward is ten times the bound. -/
theorem first_reward_exceeds_bound :
    ({ decay := 1e-201 } : Options).Valid ∧ (0 : ℚ) < 1 / 10 ^ 201 ∧ (1 : ℚ) / 10 ^ 201 ≤ 1 ∧
      ¬ (Activity.ofScores (#[3, 1, 2, 0] : Array ℚ) (1 / 10 ^ 201)).age.increment ≤
        Score.rescaling := by
  have reward : (Activity.ofScores (#[3, 1, 2, 0] : Array ℚ) (1 / 10 ^ 201)).age.increment =
      10 * Score.rescaling := by
    norm_num [Activity.age, Activity.ofScores, Score.needsRescaling, Score.div, Score.one,
      Score.rescaling]
  refine ⟨by decide +kernel, by positivity, by norm_num, ?_⟩
  rw [reward]
  norm_num [Score.rescaling]

end ClauseLearning
