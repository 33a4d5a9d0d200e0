import Mathlib.Algebra.Group.Nat.Defs

/-! Floats taken apart into sign, mantissa and exponent. Rounding shifts a mantissa to the exponent
where it is full or to the least one, and comparing looks at the exponent first. A stored mantissa
is full, which means that its leading bit is not stored, or the exponent is the least; packing puts
a float together again and makes what is too large infinity. -/
namespace ClauseLearning

open Float.Model UnpackedFloat

variable {m : Nat} {e : Int}

/-! ## Mantissas -/

theorem mantissa_shiftRight (extended : ExtendedMantissa) (count : Nat) :
    (extended >>> count).mantissa = extended.mantissa / 2 ^ count := by
  induction count with
  | zero => simp [HShiftRight.hShiftRight, Nat.repeat]
  | succ count ih =>
    change (extended >>> count).mantissa / 2 = _
    rw [ih, Nat.div_div_eq_div_mul, Nat.pow_succ]

@[simp] theorem mantissa_ofMantissaAndAccuracy (m : Nat) (accuracy : Accuracy) :
    (ExtendedMantissa.ofMantissaAndAccuracy m accuracy).mantissa = m := by
  cases accuracy with
  | exact => rfl
  | inexact half => cases half <;> rfl

theorem roundedMantissa_bounds (extended : ExtendedMantissa) :
    extended.mantissa ≤ extended.roundedMantissa ∧
      extended.roundedMantissa ≤ extended.mantissa + 1 := by
  obtain ⟨mantissa, round, sticky⟩ := extended
  cases round <;> cases sticky <;>
    simp [ExtendedMantissa.roundedMantissa, ExtendedMantissa.accuracy, Accuracy.roundToNearestEven]
  omega

theorem log2_eq_iff_full (short : m < 2 ^ 53) : m.log2 = 52 ↔ 2 ^ 52 ≤ m := by
  refine ⟨fun bits => ?_, fun full => ?_⟩
  · by_cases zero : m = 0
    · simp [zero] at bits
    · exact bits ▸ Nat.log2_self_le zero
  · exact (Nat.log2_eq_iff (by omega)).mpr ⟨full, short⟩

/-! ## Rounding and comparing -/

/-- What is rounded keeps 53 bits, or those in units of the least exponent. -/
theorem targetExponent_binary64 (total : Int) :
    Format.binary64.targetExponent total = max (total - 53) (-1074) := rfl

theorem targetExponent_totalExponent (m : Nat) (e : Int) :
    Format.binary64.targetExponent (totalExponent m e) = max (m.log2 + e - 52 : Int) (-1074) := by
  simp only [targetExponent_binary64, totalExponent]
  omega

theorem shiftToTargetExponent_eq (accuracy : Accuracy) :
    shiftToTargetExponent Format.binary64 m e accuracy =
      (ExtendedMantissa.ofMantissaAndAccuracy m accuracy >>>
        (max (m.log2 + e - 52 : Int) (-1074) - e).toNat,
        e + (max (m.log2 + e - 52 : Int) (-1074) - e).toNat) := by
  simp only [shiftToTargetExponent, shiftToExponent, targetExponent_totalExponent]

/-- Rounding shifts a mantissa to where it belongs, rounds it and shifts once more, because it may
have been carried into one more bit. -/
theorem roundWithAccuracy_eq {accuracy : Accuracy} {extended final : ExtendedMantissa} {t k : Int}
    (shifted : shiftToTargetExponent Format.binary64 m e accuracy = (extended, t))
    (again : shiftToTargetExponent Format.binary64 extended.roundedMantissa t .exact = (final, k)) :
    roundWithAccuracy Format.binary64 .positive m e accuracy =
      if zero : final.mantissa = 0 then .zero .positive
      else .finite .positive final.mantissa k (Nat.pos_of_ne_zero zero) := by
  unfold roundWithAccuracy
  rw [shifted]
  dsimp only
  rw [again]

/-- Of two positive floats the exponents are compared first. -/
theorem le_finite_iff {n : Nat} {k : Int} {positive : 0 < m} {positive' : 0 < n} :
    UnpackedFloat.le (.finite .positive m e positive) (.finite .positive n k positive') = true ↔
      e < k ∨ e = k ∧ m ≤ n := by
  change ((compare e k).then (compare m n)).isLE = true ↔ _
  rw [Ordering.isLE_then_iff_or, Int.compare_eq_lt, Int.compare_eq_eq, Nat.isLE_compare]

/-! ## Packing -/

theorem log2_append_one (bits : BitVec 52) : (1#1 ++ bits).toNat.log2 = 52 := by
  have bound := bits.isLt
  rw [BitVec.toNat_append, ← Nat.shiftLeft_add_eq_or_of_lt bound, Nat.log2_eq_iff] <;>
    simp [Nat.shiftLeft_eq]
  omega

theorem toNat_append_one (full : m.log2 = 52) : (1#1 ++ BitVec.ofNat 52 m).toNat = m := by
  have nonzero : m ≠ 0 := by
    rintro rfl
    simp at full
  obtain ⟨lower, upper⟩ := (Nat.log2_eq_iff nonzero).mp full
  have stored : (BitVec.ofNat 52 m).toNat = m - 2 ^ 52 := by
    rw [BitVec.toNat_ofNat, Nat.mod_eq_sub_mod lower, Nat.mod_eq_of_lt (by omega)]
  rw [BitVec.toNat_append, ← Nat.shiftLeft_add_eq_or_of_lt (BitVec.isLt _), stored]
  simp [Nat.shiftLeft_eq]
  omega

/-- A float has a short mantissa and an exponent in range, and one that is not the least only
with a full mantissa. -/
theorem unpack_finite {f : Float.Model} {sign : Sign} {positive : 0 < m}
    (known : f.unpack = .finite sign m e positive) :
    m < 2 ^ 53 ∧ -1074 ≤ e ∧ e ≤ 971 ∧ (2 ^ 52 ≤ m ∨ e = -1074) := by
  let packed : BitVec Format.binary64.numBits := f.toBits.toBitVec
  change UnpackedFloat.unpack Format.binary64 packed = _ at known
  unfold UnpackedFloat.unpack at known
  dsimp only at known
  by_cases special : unpackExponent packed = -1#11
  · rw [if_pos special] at known
    by_cases infinite : unpackMantissa packed = 0#52
    · rw [if_pos infinite] at known
      cases known
    · rw [if_neg infinite] at known
      cases known
  rw [if_neg special] at known
  by_cases least : unpackExponent packed = 0#11
  · rw [if_pos least] at known
    by_cases zero : unpackMantissa packed = 0#52
    · rw [dif_pos zero] at known
      cases known
    · rw [dif_neg zero] at known
      injection known with _ mantissa same
      have value : e = -1074 := by
        rw [← same, least]
        rfl
      have bound : m < 2 ^ 52 := mantissa ▸ (unpackMantissa packed).isLt
      omega
  · rw [if_neg least] at known
    injection known with _ mantissa same
    have bound : (unpackExponent packed).toNat < 2 ^ 11 := BitVec.isLt _
    have below : (unpackExponent packed).toNat ≠ 2047 :=
      fun value => special (BitVec.eq_of_toNat_eq value)
    have above : (unpackExponent packed).toNat ≠ 0 :=
      fun value => least (BitVec.eq_of_toNat_eq value)
    have bits : m.log2 = 52 := mantissa ▸ log2_append_one _
    have full := Nat.log2_self_le (Nat.ne_of_gt positive)
    have short := Nat.lt_log2_self (n := m)
    rw [bits] at full short
    have value : e = (unpackExponent packed).toNat - 1075 := same.symm
    omega

/-- The leading bit of what is packed with the positive sign is read as that sign. -/
theorem sign_packComponents (exponent : BitVec 11) (bits : BitVec 52) :
    Sign.ofBitVec (unpackSign (packComponents Format.binary64 .positive exponent bits))
      = .positive := by
  have leading : (0#1 ++ exponent ++ bits).extractLsb' 63 1 = 0#1 := by
    rw [BitVec.extractLsb'_append_eq_of_le (by omega),
      BitVec.extractLsb'_append_eq_of_le (by omega)]
    rfl
  exact congrArg Sign.ofBitVec leading

/-- What is packed with a biased exponent that is neither end of its range has a full mantissa. -/
theorem unpack_packComponents {exponent : BitVec 11} {bits : BitVec 52} (positive : 0 < m)
    (mantissa : (1#1 ++ bits).toNat = m) (biased : (exponent.toNat : Int) = e + 1075)
    (finite : exponent ≠ -1#11) (normal : exponent ≠ 0#11) :
    UnpackedFloat.unpack Format.binary64 (packComponents Format.binary64 .positive exponent bits)
      = .finite .positive m e positive := by
  unfold UnpackedFloat.unpack
  dsimp only
  rw [unpackExponent_packComponents, if_neg finite, if_neg normal, UnpackedFloat.finite.injEq,
    unpackMantissa_packComponents]
  refine ⟨sign_packComponents exponent bits, mantissa, ?_⟩
  change (exponent.toNat : Int) - 1075 = e
  omega

/-- Packing cuts off the leading bit, which unpacking puts back, or overflows. -/
theorem unpack_pack_full {positive : 0 < m} (full : m.log2 = 52) (least : -1074 ≤ e) :
    (Float.Model.pack (.finite .positive m e positive)).unpack
      = if e ≤ 971 then .finite .positive m e positive else .infinity .positive := by
  have biased : ((e + (1023 : Nat) + (52 : Nat)).toNat : Int) = e + 1075 := by omega
  change UnpackedFloat.unpack Format.binary64
    (if 2 ^ 11 ≤ (e + (1023 : Nat) + (52 : Nat)).toNat + 1 then
      packedInfinity Format.binary64 .positive
    else if m.log2 + 1 = 53 then packComponents Format.binary64 .positive
      (BitVec.ofNat 11 (e + (1023 : Nat) + (52 : Nat)).toNat) (BitVec.ofNat 52 m)
    else packComponents Format.binary64 .positive 0#11 (BitVec.ofNat 52 m)) = _
  generalize (e + (1023 : Nat) + (52 : Nat)).toNat = exponent at biased
  by_cases overflows : 2 ^ 11 ≤ exponent + 1
  · rw [if_pos overflows, if_neg (by omega)]
    rfl
  · rw [if_neg overflows, if_pos (by rw [full]), if_pos (by omega)]
    have stored : (BitVec.ofNat 11 exponent).toNat = exponent := by
      rw [BitVec.toNat_ofNat, Nat.mod_eq_of_lt (by omega)]
    have finite : BitVec.ofNat 11 exponent ≠ -1#11 := by
      intro same
      rw [same] at stored
      have value : (-1#11).toNat = 2047 := rfl
      omega
    have normal : BitVec.ofNat 11 exponent ≠ 0#11 := by
      intro same
      rw [same] at stored
      have value : (0#11).toNat = 0 := rfl
      omega
    have biased' : ((BitVec.ofNat 11 exponent).toNat : Int) = e + 1075 := by omega
    exact unpack_packComponents positive (toNat_append_one full) biased' finite normal

/-- With the least exponent a mantissa without its leading bit is stored as it is. -/
theorem unpack_pack_least (positive : 0 < m) (short : m < 2 ^ 52) :
    (Float.Model.pack (.finite .positive m (-1074) positive)).unpack
      = .finite .positive m (-1074) positive := by
  have bits : m.log2 + 1 ≠ 53 := by
    have := (Nat.log2_lt (Nat.ne_of_gt positive)).mpr short
    omega
  have stored : (BitVec.ofNat 52 m).toNat = m := by
    rw [BitVec.toNat_ofNat, Nat.mod_eq_of_lt short]
  have nonzero : BitVec.ofNat 52 m ≠ 0#52 := by
    intro same
    rw [same] at stored
    exact Nat.ne_of_lt positive stored
  have packed : (UnpackedFloat.pack Format.binary64 (.finite .positive m (-1074) positive))
      = packComponents Format.binary64 .positive 0#11 (BitVec.ofNat 52 m) :=
    if_neg bits
  have exponent : (0#11 : BitVec 11) ≠ -1#11 := by decide
  change UnpackedFloat.unpack Format.binary64 (UnpackedFloat.pack Format.binary64 _) = _
  rw [packed]
  unfold UnpackedFloat.unpack
  dsimp only
  have mantissa : unpackMantissa (packComponents Format.binary64 .positive 0#11 (BitVec.ofNat 52 m))
      = BitVec.ofNat 52 m := unpackMantissa_packComponents
  rw [unpackExponent_packComponents, if_neg exponent, if_pos rfl,
    dif_neg (fun zero => nonzero (mantissa.symm.trans zero)), finite.injEq, mantissa]
  exact ⟨sign_packComponents _ _, stored, rfl⟩

end ClauseLearning
