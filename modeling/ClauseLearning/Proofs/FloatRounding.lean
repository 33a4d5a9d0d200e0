import Mathlib.Algebra.Order.Field.Basic
import Mathlib.Algebra.Order.Field.Power
import Mathlib.Tactic.FieldSimp
import Mathlib.Tactic.Linarith
import Mathlib.Tactic.Ring
import ClauseLearning.Proofs.FloatPacking

/-! Rounding floats keeps the order. A mantissa with its round and sticky bits stands for a
rational that it bounds on both sides, and shifting it divides the rational. A float that is not
negative has a grade, the number that its bits spell. What is rounded to a float fixes the grade
that results, and a larger rational gets no smaller one; sums and quotients of floats are such
roundings of the rational sums and quotients. -/
namespace ClauseLearning

open Float.Model UnpackedFloat

/-- A mantissa with its two further bits stands for a rational: the mantissa is its whole part,
and the bits say how the rest compares to nothing and to one half. -/
def Cuts (x : ℚ) : ExtendedMantissa → Prop
  | ⟨m, false, false⟩ => x = m
  | ⟨m, false, true⟩ => m < x ∧ x < m + 1 / 2
  | ⟨m, true, false⟩ => x = m + 1 / 2
  | ⟨m, true, true⟩ => m + 1 / 2 < x ∧ x < m + 1

variable {x y : ℚ} {a b : ExtendedMantissa}

theorem Cuts.bounds (cuts : Cuts x a) : (a.mantissa : ℚ) ≤ x ∧ x < a.mantissa + 1 := by
  obtain ⟨m, round, sticky⟩ := a
  cases round <;> cases sticky <;> simp only [Cuts] at cuts ⊢ <;> constructor <;> linarith

theorem Cuts.shiftRightOne (cuts : Cuts x a) : Cuts (x / 2) a.shiftRightOne := by
  obtain ⟨m, round, sticky⟩ := a
  obtain ⟨q, even | odd⟩ := Nat.even_or_odd' m
  · have shifted : ExtendedMantissa.shiftRightOne ⟨m, round, sticky⟩
        = ⟨q, false, round || sticky⟩ := by
      simp [ExtendedMantissa.shiftRightOne, even]
    have value : (m : ℚ) = 2 * q := by exact_mod_cast even
    rw [shifted]
    cases round <;> cases sticky <;>
      simp only [Cuts, value, Bool.or_self, Bool.or_true, Bool.true_or] at cuts ⊢ <;>
      first | linarith | (constructor <;> linarith)
  · have shifted : ExtendedMantissa.shiftRightOne ⟨m, round, sticky⟩
        = ⟨q, true, round || sticky⟩ := by
      simp [ExtendedMantissa.shiftRightOne, odd]
      omega
    have value : (m : ℚ) = 2 * q + 1 := by exact_mod_cast odd
    rw [shifted]
    cases round <;> cases sticky <;>
      simp only [Cuts, value, Bool.or_self, Bool.or_true, Bool.true_or] at cuts ⊢ <;>
      first | linarith | (constructor <;> linarith)

theorem Cuts.shiftRight (cuts : Cuts x a) (count : Nat) : Cuts (x / 2 ^ count) (a >>> count) := by
  induction count with
  | zero => simpa [HShiftRight.hShiftRight, Nat.repeat] using cuts
  | succ count ih =>
    have next := ih.shiftRightOne
    rw [div_div, ← pow_succ] at next
    exact next

theorem Cuts.rounded_mono (first : Cuts x a) (second : Cuts y b) (le : x ≤ y) :
    a.roundedMantissa ≤ b.roundedMantissa := by
  have lower := roundedMantissa_bounds a
  have upper := roundedMantissa_bounds b
  have whole : a.mantissa ≤ b.mantissa := by
    have := first.bounds.1
    have := second.bounds.2
    have : (a.mantissa : ℚ) < b.mantissa + 1 := by linarith
    exact Nat.lt_succ_iff.mp (by exact_mod_cast this)
  rcases whole.lt_or_eq with less | same
  · omega
  · obtain ⟨m, round, sticky⟩ := a
    obtain ⟨m', round', sticky'⟩ := b
    obtain rfl : m = m' := same
    cases round <;> cases sticky <;> cases round' <;> cases sticky' <;>
      simp only [Cuts, ExtendedMantissa.roundedMantissa, ExtendedMantissa.accuracy,
        Accuracy.roundToNearestEven] at first second ⊢ <;>
      first | omega | (exfalso; linarith)

/-- The accuracy of a quotient of naturals says where the rest lies. -/
theorem cuts_fraction (n : Nat) {d : Nat} (positive : 0 < d) :
    Cuts (n / d) (.ofMantissaAndAccuracy (n / d) (accuracyOfFraction (n % d) d)) := by
  have division : ((d * (n / d) + n % d : Nat) : ℚ) = n := by exact_mod_cast Nat.div_add_mod n d
  have nonzero : (0 : ℚ) < d := by exact_mod_cast positive
  have less : ((n % d : Nat) : ℚ) / d < 1 := by
    rw [div_lt_one nonzero]
    exact_mod_cast Nat.mod_lt n positive
  have whole : (n / d : ℚ) = (n / d : Nat) + ((n % d : Nat) : ℚ) / d := by
    field_simp
    rw [← division]
    push_cast
    ring
  rw [whole]
  unfold accuracyOfFraction
  split
  · rename_i zero
    simp [Cuts, ExtendedMantissa.ofMantissaAndAccuracy, zero]
  · rename_i rest
    have rest' : (0 : ℚ) < ((n % d : Nat) : ℚ) / d :=
      div_pos (by exact_mod_cast Nat.pos_of_ne_zero rest) nonzero
    have double : ((2 * (n % d) : Nat) : ℚ) = 2 * (((n % d : Nat) : ℚ) / d) * d := by
      push_cast
      field_simp
    cases compared : compare (2 * (n % d)) d with
    | lt =>
      have smaller : ((2 * (n % d) : Nat) : ℚ) < d := by
        exact_mod_cast Nat.compare_eq_lt.mp compared
      have half : 2 * (((n % d : Nat) : ℚ) / d) < 1 := by nlinarith
      exact ⟨by linarith, by linarith⟩
    | eq =>
      have same : ((2 * (n % d) : Nat) : ℚ) = d := by exact_mod_cast Nat.compare_eq_eq.mp compared
      have half : 2 * (((n % d : Nat) : ℚ) / d) = 1 := by
        rw [double] at same
        exact mul_right_cancel₀ nonzero.ne' (same.trans (one_mul _).symm)
      simp only [Cuts, ExtendedMantissa.ofMantissaAndAccuracy]
      linarith
    | gt =>
      have larger : (d : ℚ) < ((2 * (n % d) : Nat) : ℚ) := by
        exact_mod_cast Nat.compare_eq_gt.mp compared
      have half : 1 < 2 * (((n % d : Nat) : ℚ) / d) := by nlinarith
      exact ⟨by linarith, by linarith⟩

/-! ## Rounding -/

/-- The rank of a float among those that are not negative, which is what its bits say as a
number. -/
def grade : UnpackedFloat → Nat
  | .infinity _ => 2047 * 2 ^ 52
  | .zero _ => 0
  | .finite _ m e _ => (e + 1074).toNat * 2 ^ 52 + m
  | .notANumber => 0

theorem grade_finite {sign : Sign} {m : Nat} {e : Int} {positive : 0 < m} :
    grade (.finite sign m e positive) = (e + 1074).toNat * 2 ^ 52 + m := rfl

/-- The number that a float stands for, if it is finite. -/
def magnitude : UnpackedFloat → ℚ
  | .finite _ m e _ => m * 2 ^ e
  | _ => 0

/-- A float that is not negative, with a full mantissa or the least exponent. -/
def Nonnegative : UnpackedFloat → Prop
  | .infinity sign => sign = .positive
  | .zero _ => True
  | .finite sign m e _ =>
    sign = .positive ∧ m < 2 ^ 53 ∧ -1074 ≤ e ∧ (2 ^ 52 ≤ m ∨ e = -1074)
  | .notANumber => False

/-- A float is what a rational is rounded to, in units of a power of two that leaves a full
mantissa if it is not the least. -/
structure RoundsIn (v : ℚ) (t : Int) (extended : ExtendedMantissa) (u : UnpackedFloat) : Prop where
  least : -1074 ≤ t
  cuts : Cuts (v / 2 ^ t) extended
  short : extended.mantissa < 2 ^ 53
  full : 2 ^ 52 ≤ extended.mantissa ∨ t = -1074
  nonnegative : Nonnegative u
  grade : grade u = (t + 1074).toNat * 2 ^ 52 + extended.roundedMantissa

/-- A float is what a rational is rounded to. -/
def Rounds (v : ℚ) (u : UnpackedFloat) : Prop :=
  ∃ t extended, RoundsIn v t extended u

variable {u w : UnpackedFloat} {p q : ℚ} {m n : Nat} {e k t : Int}
  {extended : ExtendedMantissa}

/-- All mantissas in smaller units are below the full ones in larger units. -/
theorem full_units_le (less : k < t) : (2 : ℚ) ^ 53 * 2 ^ k ≤ 2 ^ 52 * 2 ^ t := by
  rw [← zpow_natCast, ← zpow_natCast, ← zpow_add₀ two_ne_zero, ← zpow_add₀ two_ne_zero]
  exact zpow_le_zpow_right₀ one_le_two (by push_cast; omega)

/-- Rounding keeps the order. -/
theorem Rounds.mono (first : Rounds p u) (second : Rounds q w) (le : p ≤ q) :
    grade u ≤ grade w := by
  obtain ⟨t, a, roundsU⟩ := first
  obtain ⟨k, b, roundsW⟩ := second
  have lower := roundedMantissa_bounds a
  have upper := roundedMantissa_bounds b
  have short := roundsU.short
  have least := roundsU.least
  have full := roundsW.full
  rw [roundsU.grade, roundsW.grade]
  rcases lt_trichotomy t k with less | rfl | greater
  · -- a full mantissa in larger units
    omega
  · have scaled : p / 2 ^ t ≤ q / 2 ^ t := div_le_div_of_nonneg_right le (by positivity)
    have := roundsU.cuts.rounded_mono roundsW.cuts scaled
    omega
  · exfalso
    have large : 2 ^ 52 ≤ a.mantissa := by
      have := roundsU.full
      have := roundsW.least
      omega
    have above := roundsU.cuts.bounds.1
    have below := roundsW.cuts.bounds.2
    have bound : ((b.mantissa + 1 : Nat) : ℚ) ≤ 2 ^ 53 := by exact_mod_cast roundsW.short
    have large' : (2 : ℚ) ^ 52 ≤ a.mantissa := by exact_mod_cast large
    rw [le_div_iff₀ (by positivity)] at above
    rw [div_lt_iff₀ (by positivity)] at below
    have units := full_units_le greater
    have first : (2 : ℚ) ^ 52 * 2 ^ t ≤ a.mantissa * 2 ^ t :=
      mul_le_mul_of_nonneg_right large' (by positivity)
    have second : (b.mantissa + 1 : ℚ) * 2 ^ k ≤ 2 ^ 53 * 2 ^ k :=
      mul_le_mul_of_nonneg_right (by exact_mod_cast bound) (by positivity)
    linarith

theorem rounds_zero (sign : Sign) : Rounds 0 (.zero sign) :=
  ⟨-1074, ⟨0, false, false⟩, le_rfl, by simp [Cuts], by simp, .inr rfl, trivial, rfl⟩

/-- A float with a full mantissa or the least exponent is what its own magnitude is rounded to. -/
theorem Nonnegative.rounds (nonnegative : Nonnegative u) (finite : u ≠ .infinity .positive) :
    Rounds (magnitude u) u := by
  match u, nonnegative with
  | .infinity .positive, _ => exact absurd rfl finite
  | .zero sign, trivial => exact rounds_zero sign
  | .finite sign m e positive, ⟨same, short, least, full⟩ =>
    refine ⟨e, ⟨m, false, false⟩, least, ?_, short, full, ⟨same, short, least, full⟩, rfl⟩
    exact mul_div_cancel_right₀ _ (by positivity)

/-- After rounding, a carry into one more bit is shifted out again. -/
theorem shiftToTargetExponent_rounded {r : Nat} (bound : r ≤ 2 ^ 53) (least : -1074 ≤ e) :
    shiftToTargetExponent Format.binary64 r e .exact =
      if r < 2 ^ 53 then (⟨r, false, false⟩, e) else (⟨2 ^ 52, false, false⟩, e + 1) := by
  rw [shiftToTargetExponent_eq]
  split
  · rename_i short
    have bits : r.log2 ≤ 52 := by
      by_cases zero : r = 0
      · simp [zero]
      · have := (Nat.log2_lt zero).mpr short
        omega
    have none_ : (max (r.log2 + e - 52 : Int) (-1074) - e).toNat = 0 := by omega
    rw [none_]
    simp [ExtendedMantissa.ofMantissaAndAccuracy, HShiftRight.hShiftRight, Nat.repeat]
  · have carry : r = 2 ^ 53 := by omega
    subst carry
    have one : (max ((2 ^ 53 : Nat).log2 + e - 52 : Int) (-1074) - e).toNat = 1 := by
      rw [Nat.log2_two_pow]
      omega
    rw [one]
    simp [ExtendedMantissa.ofMantissaAndAccuracy, HShiftRight.hShiftRight, Nat.repeat,
      ExtendedMantissa.shiftRightOne]

/-- The grade that results from rounding a mantissa that was shifted to where it belongs. -/
theorem grade_roundWithAccuracy {accuracy : Accuracy}
    (shifted : shiftToTargetExponent Format.binary64 m e accuracy = (extended, t))
    (least : -1074 ≤ t) (short : extended.mantissa < 2 ^ 53)
    (full : 2 ^ 52 ≤ extended.mantissa ∨ t = -1074) :
    Nonnegative (roundWithAccuracy Format.binary64 .positive m e accuracy) ∧
      grade (roundWithAccuracy Format.binary64 .positive m e accuracy)
        = (t + 1074).toNat * 2 ^ 52 + extended.roundedMantissa := by
  have rounded := roundedMantissa_bounds extended
  have carried := shiftToTargetExponent_rounded (r := extended.roundedMantissa) (by omega) least
  by_cases carry : extended.roundedMantissa < 2 ^ 53
  · rw [roundWithAccuracy_eq shifted (carried.trans (if_pos carry))]
    by_cases zero : extended.roundedMantissa = 0
    · rw [dif_pos zero]
      refine ⟨trivial, ?_⟩
      change 0 = _
      omega
    · have full' : 2 ^ 52 ≤ extended.roundedMantissa ∨ t = -1074 := by omega
      rw [dif_neg zero]
      exact ⟨⟨rfl, carry, least, full'⟩, rfl⟩
  · rw [roundWithAccuracy_eq shifted (carried.trans (if_neg carry)), dif_neg (by decide)]
    refine ⟨⟨rfl, by decide, by omega, .inl le_rfl⟩, ?_⟩
    change (t + 1 + 1074).toNat * 2 ^ 52 + 2 ^ 52 = _
    omega

/-- With enough bits, or an exponent that is small enough, nothing is lost before rounding. -/
theorem rounds_roundWithAccuracy {accuracy : Accuracy}
    (cuts : Cuts p (.ofMantissaAndAccuracy m accuracy)) (enough : 52 ≤ m.log2 ∨ e ≤ -1074) :
    Rounds (p * 2 ^ e) (roundWithAccuracy Format.binary64 .positive m e accuracy) := by
  obtain ⟨t, target⟩ : ∃ t, t = max (m.log2 + e - 52 : Int) (-1074) := ⟨_, rfl⟩
  obtain ⟨count, counted⟩ : ∃ count : Nat, e + count = t := ⟨(t - e).toNat, by omega⟩
  have shifted : shiftToTargetExponent Format.binary64 m e accuracy
      = (ExtendedMantissa.ofMantissaAndAccuracy m accuracy >>> count, t) := by
    have same : (t - e).toNat = count := by omega
    rw [shiftToTargetExponent_eq, ← target, same, counted]
  have cuts' := cuts.shiftRight count
  have mantissa : (ExtendedMantissa.ofMantissaAndAccuracy m accuracy >>> count).mantissa
      = m / 2 ^ count := by
    rw [mantissa_shiftRight, mantissa_ofMantissaAndAccuracy]
  generalize ExtendedMantissa.ofMantissaAndAccuracy m accuracy >>> count = extended
    at shifted cuts' mantissa
  have short : extended.mantissa < 2 ^ 53 := by
    rw [mantissa, Nat.div_lt_iff_lt_mul (Nat.two_pow_pos _), ← Nat.pow_add]
    exact Nat.lt_of_lt_of_le Nat.lt_log2_self (Nat.pow_le_pow_right (by decide) (by omega))
  have full : 2 ^ 52 ≤ extended.mantissa ∨ t = -1074 := by
    refine or_iff_not_imp_right.mpr fun above => ?_
    have bits : m.log2 = 52 + count := by omega
    have nonzero : m ≠ 0 := by
      rintro rfl
      simp at bits
      omega
    rw [mantissa, Nat.le_div_iff_mul_le (Nat.two_pow_pos _), ← Nat.pow_add, ← bits]
    exact Nat.log2_self_le nonzero
  have least : -1074 ≤ t := by omega
  have scaled : p * 2 ^ e / 2 ^ t = p / 2 ^ count := by
    rw [← counted, zpow_add₀ two_ne_zero, zpow_natCast]
    field_simp
  obtain ⟨nonnegative, result⟩ := grade_roundWithAccuracy shifted least short full
  exact ⟨t, extended, least, scaled ▸ cuts', short, full, nonnegative, result⟩

/-! ## Adding and dividing -/

theorem log2_shiftLeft (positive : 0 < m) (count : Nat) : (m <<< count).log2 = m.log2 + count := by
  have lower := Nat.log2_self_le positive.ne'
  have upper := Nat.lt_log2_self (n := m)
  rw [Nat.shiftLeft_eq, Nat.log2_eq_iff (by positivity), Nat.pow_add, Nat.add_right_comm,
    Nat.pow_add]
  exact ⟨Nat.mul_le_mul_right _ lower, Nat.mul_lt_mul_of_pos_right upper (Nat.two_pow_pos _)⟩

/-- A quotient has as many bits as the dividend has more than the divisor, or one more. -/
theorem le_log2_div {count : Nat} (positive : 0 < n) (bits : n.log2 + count < m.log2) :
    count ≤ (m / n).log2 := by
  have nonzero : m ≠ 0 := by
    rintro rfl
    simp at bits
  have quotient : 2 ^ count ≤ m / n := by
    rw [Nat.le_div_iff_mul_le positive]
    calc 2 ^ count * n ≤ 2 ^ count * 2 ^ (n.log2 + 1) :=
          Nat.mul_le_mul_left _ (Nat.le_of_lt Nat.lt_log2_self)
      _ = 2 ^ (n.log2 + count + 1) := by rw [← Nat.pow_add]; congr 1; omega
      _ ≤ 2 ^ m.log2 := Nat.pow_le_pow_right (by decide) bits
      _ ≤ m := Nat.log2_self_le nonzero
  exact (Nat.le_log2 (Nat.ne_of_gt (Nat.lt_of_lt_of_le (Nat.two_pow_pos _) quotient))).mpr quotient

theorem shiftLeft_mul_zpow {t : Int} (le : t ≤ e) :
    ((m <<< (e - t).toNat : Nat) : ℚ) * 2 ^ t = m * 2 ^ e := by
  obtain ⟨count, rfl⟩ : ∃ count : Nat, e = t + count := ⟨(e - t).toNat, by omega⟩
  have same : (t + count - t : Int).toNat = count := by omega
  rw [same, Nat.shiftLeft_eq, zpow_add₀ two_ne_zero, zpow_natCast]
  push_cast
  ring

/-- A positive mantissa is moved to enough bits before it is rounded. -/
theorem rounds_round (positive : 0 < m) :
    Rounds (m * 2 ^ e) (UnpackedFloat.round Format.binary64 .positive m e) := by
  obtain ⟨t, target⟩ : ∃ t, t = max (m.log2 + e - 52 : Int) (-1074) := ⟨_, rfl⟩
  have same : Format.binary64.targetExponent (totalExponent m e) = t :=
    (targetExponent_totalExponent m e).trans target.symm
  have bits := log2_shiftLeft positive (e - t).toNat
  have cuts : Cuts ((m <<< (e - t).toNat : Nat) : ℚ)
      (.ofMantissaAndAccuracy (m <<< (e - t).toNat) .exact) := by
    simp [Cuts, ExtendedMantissa.ofMantissaAndAccuracy]
  have rounds := rounds_roundWithAccuracy (e := e - (e - t).toNat) cuts (by omega)
  have value : ((m <<< (e - t).toNat : Nat) : ℚ) * 2 ^ (e - (e - t).toNat : Int) = m * 2 ^ e := by
    rcases le_total t e with le | ge
    · have exponent : (e - (e - t).toNat : Int) = t := by omega
      rw [exponent, shiftLeft_mul_zpow le]
    · have none_ : (e - t).toNat = 0 := by omega
      simp [none_]
  simp only [UnpackedFloat.round, decreaseExponent, same]
  exact value ▸ rounds

/-- A sum is what the sum of the magnitudes is rounded to. -/
theorem rounds_add (first : Nonnegative u) (second : Nonnegative w)
    (finite : u ≠ .infinity .positive) (finite' : w ≠ .infinity .positive) :
    Rounds (magnitude u + magnitude w) (UnpackedFloat.add Format.binary64 u w) := by
  cases u with
  | notANumber => cases first
  | infinity s => exact absurd (congrArg _ first) finite
  | zero s =>
    cases w with
    | notANumber => cases second
    | infinity s' => exact absurd (congrArg _ second) finite'
    | zero s' =>
      change Rounds (0 + 0) (if s == s' then .zero s else .zero .positive)
      rw [add_zero]
      split <;> exact rounds_zero _
    | finite s' n k positive' =>
      change Rounds (0 + magnitude (.finite s' n k positive')) (.finite s' n k positive')
      rw [zero_add]
      exact second.rounds finite'
  | finite s m e positive =>
    cases w with
    | notANumber => cases second
    | infinity s' => exact absurd (congrArg _ second) finite'
    | zero s' =>
      change Rounds (magnitude (.finite s m e positive) + 0) (.finite s m e positive)
      rw [add_zero]
      exact first.rounds finite
    | finite s' n k positive' =>
      obtain rfl : s = .positive := first.1
      obtain rfl : s' = .positive := second.1
      let t := min e k
      let sum := m <<< (e - t).toNat + n <<< (k - t).toNat
      have larger : 0 < sum := Nat.add_pos_left (by simpa [Nat.shiftLeft_eq] using positive) _
      have compared : compare (sum : Int) 0 = .gt := Int.compare_eq_gt.mpr (by omega)
      have value : (sum : ℚ) * 2 ^ t = m * 2 ^ e + n * 2 ^ k := by
        rw [Nat.cast_add, add_mul, shiftLeft_mul_zpow (min_le_left e k),
          shiftLeft_mul_zpow (min_le_right e k)]
      have same : UnpackedFloat.add Format.binary64 (.finite .positive m e positive)
          (.finite .positive n k positive')
            = UnpackedFloat.round Format.binary64 .positive sum t := by
        change UnpackedFloat.normalize Format.binary64 (sum : Int) t .positive = _
        simp only [UnpackedFloat.normalize, compared, Int.toNat_natCast]
      rw [same]
      change Rounds (m * 2 ^ e + n * 2 ^ k : ℚ) _
      exact value ▸ rounds_round larger

/-- A quotient is what the quotient of the magnitudes is rounded to. -/
theorem rounds_div {k : Int} (nonnegative : Nonnegative u) (finite : u ≠ .infinity .positive)
    (positive : 0 < n) :
    Rounds (magnitude u / (n * 2 ^ k))
      (UnpackedFloat.div Format.binary64 u (.finite .positive n k positive)) := by
  cases u with
  | notANumber => cases nonnegative
  | infinity s => exact absurd (congrArg _ nonnegative) finite
  | zero s =>
    change Rounds (0 / (n * 2 ^ k)) (.zero (s / .positive))
    rw [zero_div]
    exact rounds_zero _
  | finite s m e positive' =>
    obtain rfl : s = .positive := nonnegative.1
    obtain ⟨t, target⟩ : ∃ t, t = min (e - k) (max (m.log2 - n.log2 + e - k - 53 : Int) (-1074)) :=
      ⟨_, rfl⟩
    have same : Format.binary64.targetExponent (totalExponent m e - totalExponent n k)
        = max (m.log2 - n.log2 + e - k - 53 : Int) (-1074) := by
      simp only [targetExponent_binary64, totalExponent]
      omega
    let dividend := m <<< (e - k - t).toNat
    have enough : 52 ≤ (dividend / n).log2 ∨ t ≤ -1074 := by
      refine or_iff_not_imp_right.mpr fun above => ?_
      refine le_log2_div positive ?_
      rw [log2_shiftLeft positive']
      omega
    have value : (dividend / n : ℚ) * 2 ^ t = m * 2 ^ e / (n * 2 ^ k) := by
      rw [div_mul_eq_mul_div, shiftLeft_mul_zpow (by omega : t ≤ e - k), zpow_sub₀ two_ne_zero]
      field_simp
    have divided : divCore Format.binary64 m e n k
        = (dividend / n, t, accuracyOfFraction (dividend % n) n) := by
      simp only [divCore, same, ← target]
      rfl
    have rounded : UnpackedFloat.div Format.binary64 (.finite .positive m e positive')
        (.finite .positive n k positive)
          = roundWithAccuracy Format.binary64 .positive (dividend / n) t
            (accuracyOfFraction (dividend % n) n) := by
      unfold UnpackedFloat.div
      dsimp only
      rw [divided]
      rfl
    rw [rounded]
    change Rounds (m * 2 ^ e / (n * 2 ^ k) : ℚ) _
    exact value ▸ rounds_roundWithAccuracy (cuts_fraction dividend positive) enough

end ClauseLearning
