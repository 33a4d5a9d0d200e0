import ClauseLearning.Branching.Score
import ClauseLearning.Proofs.FloatOrder

/-! The laws that scores obey. Scores start at zero or more and stay there: rewards are added, and
divisors are positive. There adding lowers no score, dividing keeps the order, and any two scores
compare. Floating-point numbers obey these laws, rounding and overflow included, and so do exact
numbers. -/
namespace ClauseLearning

/-- Scores and divisors that arise, and what holds of them. -/
class LawfulScore (S : Type) [Score S] where
  /-- The scores that arise. -/
  Arises : S → Prop
  /-- What scores may be divided by. -/
  Divides : S → Prop
  zero : Arises Score.zero
  one : Arises Score.one
  rescaling : Divides Score.rescaling
  add {x y : S} : Arises x → Arises y → Arises (Score.add x y)
  div {x d : S} : Arises x → Divides d → Arises (Score.div x d)
  total {x y : S} : Arises x → Arises y → (Score.atMost x y || Score.atMost y x) = true
  trans {x y z : S} : Arises x → Arises y → Arises z →
    Score.atMost x y = true → Score.atMost y z = true → Score.atMost x z = true
  le_add {x y : S} : Arises x → Arises y → Score.atMost x (Score.add x y) = true
  div_le_div {x y d : S} : Arises x → Arises y → Divides d →
    Score.atMost x y = true → Score.atMost (Score.div x d) (Score.div y d) = true

/-- A float that is not negative compares as a number. -/
theorem float_atMost_iff {a b : Float} (nonnegative : 0.0 ≤ b) :
    Score.atMost a b = true ↔ a ≤ b := by
  have number : b.isNaN = false := by
    change b.toModel.unpack.isNaN = false
    cases known : b.toModel.unpack with
    | notANumber => exact (known ▸ zero_le_iff.mp nonnegative : Nonnegative .notANumber).elim
    | _ => rfl
  change (b.isNaN || decide (a ≤ b)) = true ↔ a ≤ b
  rw [number, Bool.false_or, decide_eq_true_iff]

/-- Floating-point scores that are not negative, with divisors that are positive and finite. -/
instance : LawfulScore Float where
  Arises x := 0.0 ≤ x
  Divides d := 0.0 < d ∧ d.isFinite
  zero := by decide
  one := by decide
  rescaling := by decide +kernel
  add first second := (float_le_add first second).1
  div first divides := zero_le_float_div first divides.1 divides.2
  total := by
    intro x y first second
    rw [Bool.or_eq_true, float_atMost_iff second, float_atMost_iff first,
      le_iff_rank first second, le_iff_rank second first]
    exact Nat.le_total _ _
  trans := by
    intro x y z first second third
    rw [float_atMost_iff second, float_atMost_iff third, float_atMost_iff third,
      le_iff_rank first second, le_iff_rank second third, le_iff_rank first third]
    exact Nat.le_trans
  le_add := by
    intro x y first second
    obtain ⟨sum, larger⟩ := float_le_add first second
    exact (float_atMost_iff sum).mpr larger
  div_le_div := by
    intro x y d first second divides
    have quotient := zero_le_float_div second divides.1 divides.2
    exact fun le => (float_atMost_iff quotient).mpr
      (float_div_le_div first second ((float_atMost_iff second).mp le) divides.1 divides.2)

/-- Exact scores. -/
instance : Score ℚ where
  zero := 0
  one := 1
  add := (· + ·)
  div := (· / ·)
  atMost x y := decide (x ≤ y)
  rescaling := 10 ^ 100
  needsRescaling x := decide (10 ^ 100 < x)

@[simp] theorem exact_atMost_iff {x y : ℚ} : Score.atMost x y = true ↔ x ≤ y :=
  decide_eq_true_iff

theorem exact_needsRescaling_iff {x : ℚ} : Score.needsRescaling x = true ↔ Score.rescaling < x :=
  decide_eq_true_iff

theorem one_le_exact_rescaling : (1 : ℚ) ≤ Score.rescaling :=
  one_le_pow₀ (by norm_num)

theorem exact_rescaling_pos : (0 : ℚ) < Score.rescaling :=
  zero_lt_one.trans_le one_le_exact_rescaling

instance : LawfulScore ℚ where
  Arises x := 0 ≤ x
  Divides d := 0 < d
  zero := le_rfl
  one := zero_le_one
  rescaling := pow_pos (by norm_num : (0 : ℚ) < 10) 100
  add := add_nonneg
  div first divides := div_nonneg first divides.le
  total := by
    intro x y _ _
    rw [Bool.or_eq_true, exact_atMost_iff, exact_atMost_iff]
    exact le_total x y
  trans := by
    intro x y z _ _ _
    simp only [exact_atMost_iff]
    exact le_trans
  le_add := by
    intro x y _ second
    exact exact_atMost_iff.mpr (le_add_of_nonneg_right second)
  div_le_div := by
    intro x y d _ _ divides
    simp only [exact_atMost_iff]
    exact fun le => div_le_div_of_nonneg_right le divides.le

end ClauseLearning
