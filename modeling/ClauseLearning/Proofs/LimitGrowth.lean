import ClauseLearning.Proofs.FloatPacking
import ClauseLearning.Search.Schedule

/-! The limit on block distances never falls below one. Floats are taken apart into sign,
mantissa and exponent: one has the least full mantissa and the exponent -52, and rounding
a product of such numbers leaves a full mantissa and no smaller exponent, or overflows to
infinity. So a limit of one or more stays so whatever the growth is, if it is no shrinking. -/
namespace ClauseLearning

open Float.Model UnpackedFloat

/-- A float of one or more, taken apart: infinity, or a full mantissa with at least the
exponent of one. -/
def AtLeastOne : UnpackedFloat → Prop
  | .infinity .positive => True
  | .finite .positive mantissa exponent _ => mantissa.log2 = 52 ∧ -52 ≤ exponent
  | _ => False

variable {u v : UnpackedFloat} {m n : Nat} {e : Int} {a b : Float}

/-! ## Rounding -/

theorem log2_div (bits : 52 ≤ m.log2) : (m / 2 ^ (m.log2 - 52)).log2 = 52 := by
  have nonzero : m ≠ 0 := by
    rintro rfl
    simp at bits
  have whole : 2 ^ m.log2 = 2 ^ 52 * 2 ^ (m.log2 - 52) := by
    rw [← Nat.pow_add]
    congr 1
    omega
  have lower : 2 ^ 52 ≤ m / 2 ^ (m.log2 - 52) := by
    rw [Nat.le_div_iff_mul_le (Nat.two_pow_pos _), ← whole]
    exact Nat.log2_self_le nonzero
  have upper : m / 2 ^ (m.log2 - 52) < 2 ^ 53 := by
    rw [Nat.div_lt_iff_lt_mul (Nat.two_pow_pos _), Nat.pow_succ, Nat.mul_right_comm, ← whole,
      ← Nat.pow_succ]
    exact Nat.lt_log2_self
  exact (Nat.log2_eq_iff (by omega)).mpr ⟨lower, upper⟩

/-- Shifting a mantissa of enough bits leaves a full one. -/
theorem shiftToTargetExponent_full (accuracy : Accuracy) (bits : 52 ≤ m.log2)
    (above : -52 ≤ e + (m.log2 - 52 : Int)) :
    (shiftToTargetExponent Format.binary64 m e accuracy).1.mantissa.log2 = 52 ∧
      (shiftToTargetExponent Format.binary64 m e accuracy).2 = e + (m.log2 - 52 : Int) := by
  have count : (max (m.log2 + e - 52 : Int) (-1074) - e).toNat = m.log2 - 52 := by omega
  rw [shiftToTargetExponent_eq, count]
  constructor
  · rw [mantissa_shiftRight, mantissa_ofMantissaAndAccuracy]
    exact log2_div bits
  · change e + ((m.log2 - 52 : Nat) : Int) = _
    omega

/-- Rounding may carry into one more bit, and then shifts once more. -/
theorem atLeastOne_roundWithAccuracy (accuracy : Accuracy) (bits : 52 ≤ m.log2)
    (above : -52 ≤ e + (m.log2 - 52 : Int)) :
    AtLeastOne (roundWithAccuracy Format.binary64 .positive m e accuracy) := by
  obtain ⟨full, exponent⟩ := shiftToTargetExponent_full accuracy bits above
  generalize first : shiftToTargetExponent Format.binary64 m e accuracy = shifted at full exponent
  obtain ⟨extended, e₁⟩ := shifted
  simp only at full exponent
  have bits' : 52 ≤ extended.roundedMantissa.log2 := by
    have larger := (roundedMantissa_bounds extended).1
    have nonzero : extended.mantissa ≠ 0 := by
      intro zero
      simp [zero] at full
    have reached : 2 ^ 52 ≤ extended.mantissa := full ▸ Nat.log2_self_le nonzero
    exact (Nat.le_log2 (by omega)).mpr (by omega)
  obtain ⟨full', exponent'⟩ :=
    shiftToTargetExponent_full .exact bits' (e := e₁) (by omega)
  generalize again : shiftToTargetExponent Format.binary64 extended.roundedMantissa e₁ .exact
    = shifted at full' exponent'
  obtain ⟨final, e₂⟩ := shifted
  simp only at full' exponent'
  have nonzero : final.mantissa ≠ 0 := by
    intro zero
    simp [zero] at full'
  rw [roundWithAccuracy_eq first again, dif_neg nonzero]
  exact ⟨full', by omega⟩

theorem AtLeastOne.mul (first : AtLeastOne u) (second : AtLeastOne v) :
    AtLeastOne (UnpackedFloat.mul Format.binary64 u v) := by
  match u, v, first, second with
  | .infinity .positive, .infinity .positive, _, _ => trivial
  | .infinity .positive, .finite .positive .., _, _ => trivial
  | .finite .positive .., .infinity .positive, _, _ => trivial
  | .finite .positive m e positive, .finite .positive n k positive', ⟨full, above⟩,
      ⟨full', above'⟩ =>
    have reached : 2 ^ 52 ≤ m := full ▸ Nat.log2_self_le (Nat.ne_of_gt positive)
    have reached' : 2 ^ 52 ≤ n := full' ▸ Nat.log2_self_le (Nat.ne_of_gt positive')
    have product : 2 ^ 104 ≤ m * n := by
      calc 2 ^ 104 = 2 ^ 52 * 2 ^ 52 := by decide
        _ ≤ m * n := Nat.mul_le_mul reached reached'
    have bits : 104 ≤ (m * n).log2 := (Nat.le_log2 (by omega)).mpr product
    exact atLeastOne_roundWithAccuracy .exact (by omega) (by omega)

theorem AtLeastOne.unpack_pack (large : AtLeastOne u) : AtLeastOne (Float.Model.pack u).unpack := by
  match u, large with
  | .infinity .positive, _ => exact (trivial : AtLeastOne (.infinity .positive))
  | .finite .positive m e positive, ⟨full, above⟩ =>
    rw [unpack_pack_full full (by omega)]
    by_cases small : e ≤ 971
    · rw [if_pos small]
      exact ⟨full, above⟩
    · rw [if_neg small]
      exact (trivial : AtLeastOne (.infinity .positive))

/-! ## Comparing -/

theorem one_le_iff : 1.0 ≤ a ↔ AtLeastOne a.toModel.unpack := by
  have one : (1.0 : Float).toModel.unpack = .finite .positive (2 ^ 52) (-52) (by decide) := rfl
  have compared : 1.0 ≤ a ↔ UnpackedFloat.le (1.0 : Float).toModel.unpack a.toModel.unpack = true :=
    decide_eq_true_iff
  rw [compared, one]
  cases known : a.toModel.unpack with
  | infinity sign =>
    cases sign with
    | positive => exact iff_of_true rfl trivial
    | negative => exact iff_of_false Bool.false_ne_true id
  | notANumber => exact iff_of_false Bool.false_ne_true id
  | zero sign => exact iff_of_false Bool.false_ne_true id
  | finite sign m e positive =>
    cases sign with
    | negative => exact iff_of_false Bool.false_ne_true id
    | positive =>
      obtain ⟨short, -, -, either⟩ := unpack_finite known
      have full := log2_eq_iff_full short
      change _ ↔ m.log2 = 52 ∧ -52 ≤ e
      rw [le_finite_iff]
      omega

/-- A product of floats is one or more if its factors are. -/
theorem one_le_mul (first : 1.0 ≤ a) (second : 1.0 ≤ b) : 1.0 ≤ a * b :=
  one_le_iff.mpr ((one_le_iff.mp first).mul (one_le_iff.mp second)).unpack_pack

theorem one_le_of_one_lt (less : 1.0 < a) : 1.0 ≤ a := by
  have compared : UnpackedFloat.lt (1.0 : Float).toModel.unpack a.toModel.unpack = true :=
    of_decide_eq_true less
  refine decide_eq_true_iff.mpr ?_
  unfold UnpackedFloat.lt at compared
  change UnpackedFloat.le _ _ = true
  unfold UnpackedFloat.le
  rw [beq_iff_eq.mp compared]
  rfl

end ClauseLearning
