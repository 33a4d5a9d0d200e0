import ClauseLearning.Proofs.FloatRounding

/-! The laws of floats that are not negative. Packing keeps a grade up to that of infinity, and
the order of floats is the order of their grades. So adding lowers no float, and dividing by a
positive number keeps the order, whatever is rounded and even where it overflows. -/
namespace ClauseLearning

open Float.Model UnpackedFloat

variable {u w : UnpackedFloat} {m n : Nat} {e : Int}

/-! ## Packing -/

/-- Packing keeps a grade that is not beyond that of infinity. -/
theorem Nonnegative.unpack_pack (nonnegative : Nonnegative u) :
    Nonnegative (Float.Model.pack u).unpack ∧
      grade (Float.Model.pack u).unpack = min (grade u) (2047 * 2 ^ 52) := by
  match u, nonnegative with
  | .infinity .positive, _ => exact ⟨(rfl : Nonnegative (.infinity .positive)), rfl⟩
  | .zero .positive, _ => exact ⟨(trivial : Nonnegative (.zero .positive)), rfl⟩
  | .zero .negative, _ => exact ⟨(trivial : Nonnegative (.zero .negative)), rfl⟩
  | .finite .positive m e positive, ⟨_, short, least, full⟩ =>
    by_cases subnormal : m < 2 ^ 52
    · obtain rfl : e = -1074 := by omega
      rw [unpack_pack_least positive subnormal]
      exact ⟨⟨rfl, short, le_rfl, .inr rfl⟩, by rw [grade_finite]; omega⟩
    · have bits := (log2_eq_iff_full short).mpr (Nat.le_of_not_lt subnormal)
      rw [unpack_pack_full bits least]
      by_cases small : e ≤ 971
      · rw [if_pos small]
        exact ⟨⟨rfl, short, least, full⟩, by rw [grade_finite]; omega⟩
      · rw [if_neg small]
        exact ⟨rfl, by rw [grade_finite]; change 2047 * 2 ^ 52 = _; omega⟩

/-! ## Comparing -/

theorem grade_unpack (f : Float.Model) :
    (∃ sign, f.unpack = .infinity sign) ∨ grade f.unpack < 2047 * 2 ^ 52 := by
  cases known : f.unpack with
  | infinity sign => exact .inl ⟨sign, rfl⟩
  | notANumber | zero =>
    refine .inr ?_
    change 0 < 2047 * 2 ^ 52
    omega
  | finite sign m e positive =>
    have bounds := unpack_finite known
    refine .inr ?_
    rw [grade_finite]
    omega

theorem grade_unpack_le (f : Float.Model) : grade f.unpack ≤ 2047 * 2 ^ 52 := by
  rcases grade_unpack f with ⟨sign, infinite⟩ | small
  · exact (congrArg grade infinite).le
  · exact small.le

/-- Floats that are not negative are in the order of their grades. -/
theorem Nonnegative.le_iff {f g : Float.Model} (first : Nonnegative f.unpack)
    (second : Nonnegative g.unpack) :
    UnpackedFloat.le f.unpack g.unpack = true ↔ grade f.unpack ≤ grade g.unpack := by
  cases known : f.unpack with
  | notANumber => exact (known ▸ first : Nonnegative .notANumber).elim
  | infinity sign =>
    obtain rfl : sign = .positive := (known ▸ first : Nonnegative (.infinity sign))
    cases known' : g.unpack with
    | notANumber => exact (known' ▸ second : Nonnegative .notANumber).elim
    | infinity sign' =>
      obtain rfl : sign' = .positive := (known' ▸ second : Nonnegative (.infinity sign'))
      exact iff_of_true rfl le_rfl
    | zero sign' =>
      refine iff_of_false Bool.false_ne_true ?_
      change ¬ 2047 * 2 ^ 52 ≤ 0
      omega
    | finite sign' n k positive' =>
      have bounds := unpack_finite known'
      refine iff_of_false Bool.false_ne_true ?_
      change ¬ 2047 * 2 ^ 52 ≤ _
      rw [grade_finite]
      omega
  | zero sign =>
    cases known' : g.unpack with
    | notANumber => exact (known' ▸ second : Nonnegative .notANumber).elim
    | infinity sign' =>
      obtain rfl : sign' = .positive := (known' ▸ second : Nonnegative (.infinity sign'))
      exact iff_of_true rfl (Nat.zero_le _)
    | zero sign' => exact iff_of_true rfl le_rfl
    | finite sign' n k positive' =>
      obtain ⟨rfl, -⟩ := (known' ▸ second : Nonnegative (.finite sign' n k positive'))
      exact iff_of_true rfl (Nat.zero_le _)
  | finite sign m e positive =>
    obtain ⟨rfl, -⟩ := (known ▸ first : Nonnegative (.finite sign m e positive))
    have bounds := unpack_finite known
    cases known' : g.unpack with
    | notANumber => exact (known' ▸ second : Nonnegative .notANumber).elim
    | infinity sign' =>
      obtain rfl : sign' = .positive := (known' ▸ second : Nonnegative (.infinity sign'))
      refine iff_of_true rfl ?_
      change _ ≤ 2047 * 2 ^ 52
      rw [grade_finite]
      omega
    | zero sign' =>
      refine iff_of_false Bool.false_ne_true ?_
      change ¬ _ ≤ 0
      rw [grade_finite]
      omega
    | finite sign' n k positive' =>
      obtain ⟨rfl, -⟩ := (known' ▸ second : Nonnegative (.finite sign' n k positive'))
      have bounds' := unpack_finite known'
      rw [le_finite_iff, grade_finite, grade_finite]
      omega

variable {a b d : Float}

theorem zero_le_iff : 0.0 ≤ a ↔ Nonnegative a.toModel.unpack := by
  have zero : (0.0 : Float).toModel.unpack = .zero .positive := rfl
  have compared : 0.0 ≤ a ↔
      UnpackedFloat.le (0.0 : Float).toModel.unpack a.toModel.unpack = true :=
    decide_eq_true_iff
  rw [compared, zero]
  cases known : a.toModel.unpack with
  | infinity sign =>
    cases sign with
    | positive => exact iff_of_true rfl rfl
    | negative => exact iff_of_false Bool.false_ne_true nofun
  | notANumber => exact iff_of_false Bool.false_ne_true id
  | zero sign => exact iff_of_true rfl trivial
  | finite sign m e positive =>
    obtain ⟨short, least, -, full⟩ := unpack_finite known
    cases sign with
    | negative => exact iff_of_false Bool.false_ne_true fun nonnegative => nomatch nonnegative.1
    | positive => exact iff_of_true rfl ⟨rfl, short, least, full⟩

/-- The rank of a float that is not negative. -/
def rank (a : Float) : Nat :=
  grade a.toModel.unpack

theorem le_iff_rank (first : 0.0 ≤ a) (second : 0.0 ≤ b) : a ≤ b ↔ rank a ≤ rank b := by
  have compared : a ≤ b ↔ UnpackedFloat.le a.toModel.unpack b.toModel.unpack = true :=
    decide_eq_true_iff
  rw [compared]
  exact (zero_le_iff.mp first).le_iff (zero_le_iff.mp second)

/-! ## Sums and quotients -/

theorem Nonnegative.magnitude_nonneg (nonnegative : Nonnegative u) : 0 ≤ magnitude u := by
  cases u with
  | finite sign m e positive =>
    change (0 : ℚ) ≤ m * 2 ^ e
    positivity
  | infinity | zero | notANumber => exact le_rfl

theorem Nonnegative.magnitude_le (first : Nonnegative u) (second : Nonnegative w)
    (finite : w ≠ .infinity .positive) (top : grade w < 2047 * 2 ^ 52) (le : grade u ≤ grade w) :
    magnitude u ≤ magnitude w := by
  have bound := second.magnitude_nonneg
  match u, w, first, second with
  | .zero _, _, _, _ => exact bound
  | .infinity _, w, _, _ =>
    have infinite : 2047 * 2 ^ 52 ≤ grade w := le
    omega
  | .finite .., .infinity _, _, same => exact absurd (congrArg _ same) finite
  | .finite _ m e positive, .zero _, _, _ =>
    change _ ≤ 0 at le
    rw [grade_finite] at le
    omega
  | .finite _ m e positive, .finite _ n k positive', ⟨_, short, least, full⟩,
      ⟨_, short', least', full'⟩ =>
    rw [grade_finite, grade_finite] at le
    change (m : ℚ) * 2 ^ e ≤ n * 2 ^ k
    rcases lt_trichotomy e k with less | rfl | greater
    · have large : 2 ^ 52 ≤ n := by omega
      calc (m : ℚ) * 2 ^ e ≤ 2 ^ 53 * 2 ^ e :=
            mul_le_mul_of_nonneg_right (by exact_mod_cast short.le) (by positivity)
        _ ≤ 2 ^ 52 * 2 ^ k := full_units_le less
        _ ≤ n * 2 ^ k := mul_le_mul_of_nonneg_right (by exact_mod_cast large) (by positivity)
    · have le' : m ≤ n := by omega
      exact mul_le_mul_of_nonneg_right (by exact_mod_cast le') (by positivity)
    · omega

theorem Nonnegative.add (first : Nonnegative u) (second : Nonnegative w)
    (top : grade u ≤ 2047 * 2 ^ 52) :
    Nonnegative (UnpackedFloat.add Format.binary64 u w) ∧
      grade u ≤ grade (UnpackedFloat.add Format.binary64 u w) := by
  by_cases infinite : UnpackedFloat.add Format.binary64 u w = .infinity .positive
  · rw [infinite]
    exact ⟨rfl, top⟩
  have finite : u ≠ .infinity .positive := by
    rintro rfl
    cases w with
    | infinity sign =>
      obtain rfl : sign = .positive := second
      exact infinite rfl
    | notANumber => cases second
    | zero sign => exact infinite rfl
    | finite sign n k positive => exact infinite rfl
  have finite' : w ≠ .infinity .positive := by
    rintro rfl
    cases u with
    | infinity sign => exact finite (congrArg _ first)
    | notANumber => cases first
    | zero sign => exact infinite rfl
    | finite sign m e positive => exact infinite rfl
  have rounds := rounds_add first second finite finite'
  have larger : magnitude u ≤ magnitude u + magnitude w :=
    le_add_of_nonneg_right second.magnitude_nonneg
  have mono := (first.rounds finite).mono rounds larger
  obtain ⟨t, extended, rounds⟩ := rounds
  exact ⟨rounds.nonnegative, mono⟩

theorem Nonnegative.div {k : Int} (nonnegative : Nonnegative u) (positive : 0 < n) :
    Nonnegative (UnpackedFloat.div Format.binary64 u (.finite .positive n k positive)) := by
  by_cases infinite : u = .infinity .positive
  · subst infinite
    exact (rfl : Nonnegative (.infinity .positive))
  · obtain ⟨t, extended, rounds⟩ := rounds_div (k := k) nonnegative infinite positive
    exact rounds.nonnegative

theorem Nonnegative.div_le {k : Int} (first : Nonnegative u) (second : Nonnegative w)
    (top : (∃ sign, w = .infinity sign) ∨ grade w < 2047 * 2 ^ 52) (le : grade u ≤ grade w)
    (positive : 0 < n) :
    min (grade (UnpackedFloat.div Format.binary64 u (.finite .positive n k positive)))
        (2047 * 2 ^ 52)
      ≤ min (grade (UnpackedFloat.div Format.binary64 w (.finite .positive n k positive)))
        (2047 * 2 ^ 52) := by
  by_cases infinite : w = .infinity .positive
  · subst infinite
    have top : grade (UnpackedFloat.div Format.binary64 (.infinity .positive)
        (.finite .positive n k positive)) = 2047 * 2 ^ 52 := rfl
    rw [top]
    omega
  · have small : grade w < 2047 * 2 ^ 52 := by
      refine top.resolve_left ?_
      rintro ⟨sign, rfl⟩
      exact infinite (congrArg _ second)
    have finite : u ≠ .infinity .positive := by
      rintro rfl
      have infinite : 2047 * 2 ^ 52 ≤ grade w := le
      omega
    have scaled : magnitude u / (n * 2 ^ k) ≤ magnitude w / (n * 2 ^ k) :=
      div_le_div_of_nonneg_right (first.magnitude_le second infinite small le) (by positivity)
    have mono := (rounds_div (k := k) first finite positive).mono
      (rounds_div (k := k) second infinite positive) scaled
    omega

/-! ## The laws of floats that are not negative -/

/-- Adding a float that is not negative lowers no float that is not negative. -/
theorem float_le_add (first : 0.0 ≤ a) (second : 0.0 ≤ b) : 0.0 ≤ a + b ∧ a ≤ a + b := by
  obtain ⟨sum, larger⟩ := (zero_le_iff.mp first).add (zero_le_iff.mp second) (grade_unpack_le _)
  have packed := sum.unpack_pack
  have zero : 0.0 ≤ a + b := zero_le_iff.mpr packed.1
  have top := grade_unpack_le a.toModel
  refine ⟨zero, (le_iff_rank first zero).mpr ?_⟩
  change grade _ ≤ grade (Float.Model.pack _).unpack
  rw [packed.2]
  omega

/-- A float that is positive and finite is a positive mantissa with an exponent. -/
theorem unpack_positive (positive : 0.0 < d) (finite : d.isFinite) :
    ∃ n k positive, d.toModel.unpack = .finite .positive n k positive := by
  have zero : (0.0 : Float).toModel.unpack = .zero .positive := rfl
  have compared : UnpackedFloat.lt (0.0 : Float).toModel.unpack d.toModel.unpack = true :=
    of_decide_eq_true positive
  have bounded : d.toModel.unpack.isFinite = true := finite
  rw [zero] at compared
  generalize d.toModel.unpack = unpacked at compared bounded ⊢
  cases unpacked with
  | infinity | notANumber => exact absurd bounded Bool.false_ne_true
  | zero sign => exact absurd compared Bool.false_ne_true
  | finite sign n k positive =>
    cases sign with
    | negative => exact absurd compared Bool.false_ne_true
    | positive => exact ⟨n, k, positive, rfl⟩

theorem zero_le_float_div (first : 0.0 ≤ a) (positive : 0.0 < d) (finite : d.isFinite) :
    0.0 ≤ a / d := by
  obtain ⟨n, k, positive', known⟩ := unpack_positive positive finite
  have quotient := ((zero_le_iff.mp first).div (k := k) positive').unpack_pack.1
  rw [← known] at quotient
  exact zero_le_iff.mpr quotient

/-- Dividing by a positive float keeps the order. -/
theorem float_div_le_div (first : 0.0 ≤ a) (second : 0.0 ≤ b) (le : a ≤ b) (positive : 0.0 < d)
    (finite : d.isFinite) : a / d ≤ b / d := by
  have rank := (le_iff_rank first second).mp le
  refine (le_iff_rank (zero_le_float_div first positive finite)
    (zero_le_float_div second positive finite)).mpr ?_
  obtain ⟨n, k, positive', known⟩ := unpack_positive positive finite
  change grade (Float.Model.pack _).unpack ≤ grade (Float.Model.pack _).unpack
  rw [known, ((zero_le_iff.mp first).div positive').unpack_pack.2,
    ((zero_le_iff.mp second).div positive').unpack_pack.2]
  exact (zero_le_iff.mp first).div_le (zero_le_iff.mp second) (grade_unpack _) rank positive'

theorem isFinite_of_le_one (positive : 0.0 < d) (most : d ≤ 1.0) : d.isFinite := by
  have one : (1.0 : Float).toModel.unpack = .finite .positive (2 ^ 52) (-52) (by decide) := rfl
  have zero : (0.0 : Float).toModel.unpack = .zero .positive := rfl
  have above : UnpackedFloat.lt (0.0 : Float).toModel.unpack d.toModel.unpack = true :=
    of_decide_eq_true positive
  have below : UnpackedFloat.le d.toModel.unpack (1.0 : Float).toModel.unpack = true :=
    of_decide_eq_true most
  change d.toModel.unpack.isFinite = true
  rw [zero] at above
  rw [one] at below
  generalize d.toModel.unpack = unpacked at above below ⊢
  cases unpacked with
  | infinity sign =>
    cases sign with
    | positive => exact absurd below Bool.false_ne_true
    | negative => exact absurd above Bool.false_ne_true
  | notANumber => exact absurd below Bool.false_ne_true
  | zero sign => rfl
  | finite sign n k positive => rfl

end ClauseLearning
