import QueryPlanning.Catalog.Decimal
import QueryPlanning.Proofs.Number.FloatArithmetic

/-!
# Decimals in double arithmetic

The double of a decimal comes from four steps: the unscaled number becomes a float in at most two
roundings, the power of ten in up to a dozen, and the quotient in two more. Each rounding moves a
number by a small part of itself, and so do all of them together.
-/

namespace QueryPlanning

open Number

namespace Decimal

open Double Float.Model Float.Model.UnpackedFloat

/-- The number that a decimal stands for. -/
def value (d : Decimal) : ℚ := d.unscaled / 10 ^ d.scale.toNat

theorem size_eq_ratio (x : Double) : x.size = x.ratio.1 / x.ratio.2 := by
  unfold size ratio
  simp only
  split
  · rename_i k hk
    rw [hk]
    push_cast
    rw [Int.ofNat_eq_natCast, zpow_natCast, div_one]
  · rename_i k hk
    rw [hk, zpow_negSucc]
    push_cast
    exact (div_eq_mul_inv ..).symm

/-- What the powers of ten up to the largest scale are as doubles. -/
theorem floatPower_bits : ∀ s < 256, let x := ofFloat (floatPower 10 1 s)
    x.isNegative = false ∧ hiddenBit ≤ x.magnitude ∧ x.isFinite = true ∧
      ((x.ratio.1 : Int) - 10 ^ s * x.ratio.2).natAbs * hiddenBit ≤ 4 * (10 ^ s * x.ratio.2) := by
  decide +kernel

theorem normal_floatPower {s : Nat} (hs : s < 256) :
    ∃ m e, Normal (floatPower 10 1 s) .positive m e ∧ Within (4 * ulp) (m * 2 ^ e) (10 ^ s) := by
  obtain ⟨hsign, hfull, hfinite, herror⟩ := floatPower_bits s hs
  obtain ⟨m, e, hnormal, hsize⟩ := normal_of_finite hsign hfull hfinite
  refine ⟨m, e, hnormal, ?_⟩
  rw [← hsize, size_eq_ratio]
  have hden := ratio_den_pos (ofFloat (floatPower 10 1 s))
  generalize (ofFloat (floatPower 10 1 s)).ratio = r at hden herror
  have hden' : (0 : ℚ) < r.2 := by exact_mod_cast hden
  have hhidden : (0 : ℚ) < hiddenBit := by norm_num [hiddenBit]
  have hcast : |(r.1 : ℚ) - 10 ^ s * r.2| * hiddenBit ≤ 4 * (10 ^ s * r.2) := by
    have : ((((r.1 : Int) - 10 ^ s * r.2).natAbs * hiddenBit : Nat) : ℚ) ≤
        (4 * (10 ^ s * r.2) : Nat) := by exact_mod_cast herror
    push_cast [Nat.cast_natAbs] at this
    exact this
  unfold Within
  calc |(r.1 : ℚ) / r.2 - 10 ^ s| = |(r.1 : ℚ) - 10 ^ s * r.2| / r.2 := by
        rw [← abs_of_pos hden', ← abs_div, abs_of_pos hden']
        congr 1
        field_simp
    _ ≤ 4 * (10 ^ s * r.2) / hiddenBit / r.2 := by
      gcongr
      exact (le_div_iff₀ hhidden).mpr hcast
    _ = 4 * ulp * 10 ^ s := by
      rw [ulp]
      field_simp

/-- The sign of a number, where zero counts as positive. -/
def signOfInt (n : Int) : Sign := if n < 0 then .negative else .positive

theorem abs_factor (s : Sign) : |factor s| = 1 := by
  cases s <;> simp [factor]

theorem div_positive (s : Sign) : s / .positive = s := by
  cases s <;> rfl

theorem factor_signOfInt (n : Int) : (n : ℚ) = factor (signOfInt n) * n.natAbs := by
  unfold signOfInt
  rcases lt_or_ge n 0 with hlt | hge
  · rw [if_pos hlt, Nat.cast_natAbs, abs_of_neg hlt]
    simp [factor]
  · rw [if_neg (not_lt_of_ge hge), Nat.cast_natAbs, abs_of_nonneg hge]
    exact (one_mul _).symm

theorem normal_ofInt {n : Int} (hne : n ≠ 0) (hlog : n.natAbs.log2 ≤ 200) :
    ∃ m e, Normal (Float.ofInt n) (signOfInt n) m e ∧
      Within (ulp + ulp + ulp * ulp) (m * 2 ^ e) n.natAbs := by
  have hpos : 0 < n.natAbs := Int.natAbs_pos.mpr hne
  obtain ⟨m, e, hnormal, herror⟩ := Normal.ofNat hpos hlog
  refine ⟨m, e, ?_, herror⟩
  cases n with
  | ofNat k =>
    have hsign : ¬ Int.ofNat k < 0 := not_lt_of_ge (Int.natCast_nonneg k)
    rw [signOfInt, if_neg hsign]
    exact hnormal
  | negSucc k =>
    rw [signOfInt, if_pos (Int.negSucc_lt_zero k)]
    exact hnormal.neg

theorem log2_natAbs_le (d : Decimal) : d.unscaled.natAbs.log2 ≤ 127 := by
  have hfits := d.fits
  simp only [fitsSigned, Bool.and_eq_true, decide_eq_true_eq] at hfits
  rcases Nat.eq_zero_or_pos d.unscaled.natAbs with hzero | hpos
  · rw [hzero]
    decide
  · apply Nat.le_of_lt_succ
    rw [Nat.log2_lt hpos.ne']
    omega

theorem log2_ten_pow_lt {s : Nat} (hs : s < 256) : (10 ^ s).log2 < 10 * 85 := by
  rw [Nat.log2_lt (by positivity)]
  calc 10 ^ s ≤ 10 ^ (3 * 85) := Nat.pow_le_pow_right (by decide) (by omega)
    _ = (10 ^ 3) ^ 85 := pow_mul ..
    _ < (2 ^ 10) ^ 85 := Nat.pow_lt_pow_left (by decide) (by decide)
    _ = 2 ^ (10 * 85) := (pow_mul ..).symm

theorem toDouble_of_zero {d : Decimal} (hzero : d.unscaled = 0) : d.toDouble = ⟨0⟩ := by
  obtain ⟨m, e, hden, -⟩ := normal_floatPower d.scale.toNat_lt
  have hdiv : Float.ofInt 0 / floatPower 10 1 d.scale.toNat = .ofModel (Float.Model.pack
      (UnpackedFloat.div .binary64 (Float.ofInt 0).toModel.unpack
        (floatPower 10 1 d.scale.toNat).toModel.unpack)) := rfl
  have hnum : (Float.ofInt 0).toModel.unpack = .zero .positive := rfl
  unfold toDouble
  rw [hzero, hdiv, hden.unpack hden.pos, hnum]
  rfl

theorem value_of_zero {d : Decimal} (hzero : d.unscaled = 0) : d.value = 0 := by
  rw [value, hzero, Int.cast_zero, zero_div]

theorem toDouble_within (d : Decimal) :
    |d.toDouble.value - d.value| ≤ 15 * ulp * |d.value| := by
  by_cases hzero : d.unscaled = 0
  · rw [toDouble_of_zero hzero, value_of_zero hzero, abs_zero, mul_zero]
    decide +kernel
  · obtain ⟨m, e, hnum, hnumError⟩ := normal_ofInt hzero (d.log2_natAbs_le.trans (by decide))
    obtain ⟨m', e', hden, hdenError⟩ := normal_floatPower d.scale.toNat_lt
    have hpos : 0 < d.unscaled.natAbs := Int.natAbs_pos.mpr hzero
    have hpos' : 0 < 10 ^ d.scale.toNat := by positivity
    have hnumExp := hnum.exponent_of_within hnumError (by norm_num [ulp, hiddenBit]) hpos
    have hdenExp := hden.exponent_of_within (n := 10 ^ d.scale.toNat)
      (by exact_mod_cast hdenError) (by norm_num [ulp, hiddenBit]) hpos'
    have hlog := d.log2_natAbs_le
    have hlog' := log2_ten_pow_lt d.scale.toNat_lt
    obtain ⟨m'', e'', hquot, hquotError⟩ := hnum.div hden (by omega) (by omega)
    have herror : Within (15 * ulp) (m'' * 2 ^ e'') (d.unscaled.natAbs / 10 ^ d.scale.toNat) := by
      have hdiv := hnumError.div hdenError (by norm_num [ulp, hiddenBit])
        (by norm_num [ulp, hiddenBit]) (Nat.cast_nonneg _) (by positivity)
      refine (hquotError.trans hdiv (by norm_num [ulp, hiddenBit])).mono ?_ (by positivity)
      norm_num [ulp, hiddenBit]
    have hvalue : d.value =
        factor (signOfInt d.unscaled) * (d.unscaled.natAbs / 10 ^ d.scale.toNat) := by
      rw [value, factor_signOfInt, mul_div_assoc]
    have hdouble : d.toDouble.value = factor (signOfInt d.unscaled) * (m'' * 2 ^ e'') := by
      rw [toDouble, hquot.value_eq, div_positive]
    have hsize : |d.value| = d.unscaled.natAbs / 10 ^ d.scale.toNat := by
      rw [hvalue, abs_mul, abs_factor, one_mul, abs_of_nonneg (by positivity)]
    calc |d.toDouble.value - d.value|
        = |(m'' : ℚ) * 2 ^ e'' - d.unscaled.natAbs / 10 ^ d.scale.toNat| := by
          rw [hdouble, hvalue, ← mul_sub, abs_mul, abs_factor, one_mul]
      _ ≤ 15 * ulp * (d.unscaled.natAbs / 10 ^ d.scale.toNat) := herror
      _ = 15 * ulp * |d.value| := by rw [hsize]

end Decimal

end QueryPlanning
