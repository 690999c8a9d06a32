import Mathlib.Algebra.Order.Field.Power
import Mathlib.Algebra.Order.Field.Rat
import Mathlib.Order.Monotone.Basic
import Mathlib.Tactic.FieldSimp
import Mathlib.Tactic.Linarith
import Mathlib.Tactic.NormNum
import Mathlib.Tactic.Positivity
import Mathlib.Tactic.Ring
import QueryPlanning.Number.Double

/-!
# Floating-point arithmetic against exact numbers
-/

namespace QueryPlanning.Double

open Float.Model Float.Model.UnpackedFloat

/-- The number that a pattern without a sign stands for. -/
def sizeAt (n : Nat) : ℚ :=
  if n / hiddenBit = 0 then (n % hiddenBit : Nat) * 2 ^ (-1074 : Int)
  else (n % hiddenBit + hiddenBit : Nat) * 2 ^ (((n / hiddenBit : Nat) : Int) - 1075)

/-- The magnitude of a finite double. -/
def size (x : Double) : ℚ := x.parts.1 * 2 ^ x.parts.2

theorem size_eq_sizeAt (x : Double) : x.size = sizeAt x.magnitude := by
  unfold size parts sizeAt
  simp only
  split <;> rfl

/-- The pattern of `m * 2 ^ e`. -/
def pattern (m : Nat) (e : Int) : Nat := (e + 1074).toNat * hiddenBit + m

theorem sizeAt_pattern {m : Nat} {e : Int} (hm : m ≤ 2 * hiddenBit) (he : -1074 ≤ e)
    (hfull : hiddenBit ≤ m ∨ e = -1074) : sizeAt (pattern m e) = m * 2 ^ e := by
  have hpos : 0 < hiddenBit := by decide
  rcases Nat.lt_or_ge m hiddenBit with hlt | hge
  · obtain rfl : e = -1074 := hfull.resolve_left (Nat.not_le_of_lt hlt)
    have hpattern : pattern m (-1074) = m := by simp [pattern]
    rw [sizeAt, hpattern, if_pos (Nat.div_eq_of_lt hlt), Nat.mod_eq_of_lt hlt]
  · obtain ⟨k, rfl⟩ : ∃ k : Nat, e = k - 1074 := ⟨(e + 1074).toNat, by omega⟩
    obtain ⟨f, rfl⟩ : ∃ f : Nat, m = hiddenBit + f := ⟨m - hiddenBit, by omega⟩
    have hk : ((k : Int) - 1074 + 1074).toNat = k := by omega
    rcases Nat.lt_or_ge f hiddenBit with hf | hf
    · have hpattern : pattern (hiddenBit + f) (k - 1074) = (k + 1) * hiddenBit + f := by
        rw [pattern, hk]
        ring
      have hdiv : ((k + 1) * hiddenBit + f) / hiddenBit = k + 1 := by
        rw [Nat.mul_comm, Nat.mul_add_div hpos, Nat.div_eq_of_lt hf, Nat.add_zero]
      have hmod : ((k + 1) * hiddenBit + f) % hiddenBit = f := by
        rw [Nat.mul_comm, Nat.mul_add_mod, Nat.mod_eq_of_lt hf]
      rw [hpattern, sizeAt, hdiv, hmod, if_neg (Nat.succ_ne_zero k), Nat.add_comm f]
      congr 2
      push_cast
      ring
    · obtain rfl : f = hiddenBit := by omega
      have hpattern : pattern (hiddenBit + hiddenBit) (k - 1074) = (k + 2) * hiddenBit := by
        rw [pattern, hk]
        ring
      rw [hpattern, sizeAt, Nat.mul_div_cancel _ hpos, Nat.mul_mod_left,
        if_neg (Nat.succ_ne_zero _)]
      have hexp : ((k + 2 : Nat) : Int) - 1075 = (k - 1074) + 1 := by
        push_cast
        ring
      rw [hexp, zpow_add_one₀ (two_ne_zero)]
      push_cast
      ring

theorem exists_pattern (n : Nat) : ∃ m e, m < 2 * hiddenBit ∧ -1074 ≤ e ∧
    (hiddenBit ≤ m ∨ e = -1074) ∧ pattern m e = n := by
  have hmod := Nat.mod_lt n (show 0 < hiddenBit by decide)
  have hsplit := Nat.div_add_mod n hiddenBit
  rw [Nat.mul_comm] at hsplit
  generalize n / hiddenBit = k at hsplit
  cases k with
  | zero =>
    rw [Nat.zero_mul, Nat.zero_add] at hsplit
    refine ⟨n, -1074, by omega, Int.le_refl _, .inr rfl, ?_⟩
    simp [pattern]
  | succ k =>
    refine ⟨n % hiddenBit + hiddenBit, k - 1074, by omega, by omega, .inl (Nat.le_add_left ..), ?_⟩
    have hexp : ((k : Int) - 1074 + 1074).toNat = k := by omega
    rw [pattern, hexp]
    rw [Nat.succ_mul] at hsplit
    omega

/-- Patterns are in the order of the numbers that they stand for. -/
theorem sizeAt_strictMono : StrictMono sizeAt := by
  apply strictMono_nat_of_lt_succ
  intro n
  obtain ⟨m, e, hm, he, hfull, rfl⟩ := exists_pattern n
  have hnext : pattern m e + 1 = pattern (m + 1) e := Nat.add_assoc ..
  rw [hnext, sizeAt_pattern hm.le he hfull, sizeAt_pattern hm he (hfull.imp_left Nat.le_succ_of_le)]
  apply mul_lt_mul_of_pos_right
  · exact_mod_cast Nat.lt_succ_self m
  · positivity

/-- What a sign contributes to a pattern. -/
def signOf : Sign → Nat
  | .negative => signBit
  | .positive => 0

theorem toNat_packComponents (s : Sign) (E : BitVec 11) (M : BitVec 52) :
    (packComponents .binary64 s E M).toNat = signOf s + (E.toNat * hiddenBit + M.toNat) := by
  have hE := E.isLt
  have hM := M.isLt
  change (s.toBitVec ++ E ++ M).toNat = _
  rw [BitVec.toNat_append, BitVec.toNat_append, ← Nat.shiftLeft_add_eq_or_of_lt hM,
    ← Nat.shiftLeft_add_eq_or_of_lt hE]
  simp only [Nat.shiftLeft_eq]
  cases s with
  | negative =>
    change (1 * _ + _) * _ + _ = signBit + _
    simp only [signBit, hiddenBit]
    omega
  | positive =>
    change (0 * _ + _) * _ + _ = 0 + _
    simp only [hiddenBit]
    omega

/-- A float with all bits of the significand in use: its sign, and its magnitude `m * 2 ^ e`. -/
structure Normal (f : Float) (s : Sign) (m : Nat) (e : Int) : Prop where
  full : hiddenBit ≤ m
  lt : m < 2 * hiddenBit
  low : -1074 ≤ e
  high : e ≤ 971
  bits : f.toBits.toNat = signOf s + pattern m e

theorem log2_of_full {m : Nat} (hfull : hiddenBit ≤ m) (hlt : m < 2 * hiddenBit) :
    m.log2 = 52 := by
  apply (Nat.log2_eq_iff (by simp only [hiddenBit] at hfull; omega)).mpr
  simp only [hiddenBit] at hfull hlt
  omega

theorem normal_pack {s : Sign} {m : Nat} {e : Int} (hpos : 0 < m) (hfull : hiddenBit ≤ m)
    (hlt : m < 2 * hiddenBit) (hlow : -1074 ≤ e) (hhigh : e ≤ 971) :
    Normal (.ofModel (Float.Model.pack (.finite s m e hpos))) s m e := by
  refine ⟨hfull, hlt, hlow, hhigh, ?_⟩
  change (UnpackedFloat.pack .binary64 (.finite s m e hpos)).toNat = _
  have hbias : e + (Format.binary64.exponentBias : Int) +
      (Format.binary64.mantissaBitsWithoutImplicit : Int) = e + 1075 := by
    change e + 1023 + 52 = e + 1075
    omega
  unfold UnpackedFloat.pack
  simp only [log2_of_full hfull hlt, hbias]
  rw [if_neg, if_pos (by rfl), toNat_packComponents, pattern, BitVec.toNat_ofNat,
    BitVec.toNat_ofNat]
  · simp only [hiddenBit] at hfull hlt ⊢
    omega
  · omega

theorem unpackSign_packComponents (s : Sign) (E : BitVec 11) (M : BitVec 52) :
    Sign.ofBitVec (unpackSign (packComponents .binary64 s E M)) = s := by
  change Sign.ofBitVec ((s.toBitVec ++ E ++ M).extractLsb' 63 1) = s
  rw [BitVec.extractLsb'_append_eq_of_le (by omega),
    BitVec.extractLsb'_append_eq_of_le (by omega)]
  cases s <;> rfl

theorem unpack_of_fields {b : BitVec 64} {s : Sign} {E : BitVec 11} {M : BitVec 52}
    (hzero : E ≠ 0#11) (hinfinite : E ≠ -1#11)
    (hE : @unpackExponent .binary64 b = E) (hM : @unpackMantissa .binary64 b = M)
    (hs : Sign.ofBitVec (@unpackSign .binary64 b) = s) (hpos : 0 < (1#1 ++ M).toNat) :
    UnpackedFloat.unpack .binary64 b = .finite s (1#1 ++ M).toNat (E.toNat - 1075) hpos := by
  subst hE hM hs
  unfold UnpackedFloat.unpack
  rw [if_neg hinfinite, if_neg hzero]
  rfl

theorem unpack_packComponents (s : Sign) {E : BitVec 11} {M : BitVec 52} (hzero : E ≠ 0#11)
    (hinfinite : E ≠ -1#11) (hpos : 0 < (1#1 ++ M).toNat) :
    UnpackedFloat.unpack .binary64 (packComponents .binary64 s E M) =
      .finite s (1#1 ++ M).toNat (E.toNat - 1075) hpos := by
  apply unpack_of_fields hzero hinfinite unpackExponent_packComponents
  · exact unpackMantissa_packComponents
  · exact unpackSign_packComponents s E M

theorem Normal.unpack {f : Float} {s : Sign} {m : Nat} {e : Int} (h : Normal f s m e)
    (hpos : 0 < m) : f.toModel.unpack = .finite s m e hpos := by
  obtain ⟨hfull, hlt, hlow, hhigh, hbits⟩ := h
  simp only [hiddenBit] at hfull hlt
  have hE : (BitVec.ofNat 11 (e + 1075).toNat).toNat = (e + 1075).toNat := by
    rw [BitVec.toNat_ofNat]
    omega
  have hM : (1#1 ++ BitVec.ofNat 52 m).toNat = m := by
    rw [BitVec.toNat_append, ← Nat.shiftLeft_add_eq_or_of_lt (BitVec.isLt _), BitVec.toNat_ofNat,
      BitVec.toNat_ofNat, Nat.shiftLeft_eq]
    omega
  have heq : f.toModel.toBits.toBitVec =
      packComponents .binary64 s (.ofNat _ (e + 1075).toNat) (.ofNat _ m) := by
    apply BitVec.eq_of_toNat_eq
    rw [toNat_packComponents, hE, BitVec.toNat_ofNat]
    change f.toBits.toNat = _
    rw [hbits, pattern]
    simp only [hiddenBit]
    omega
  unfold Float.Model.unpack
  rw [heq, unpack_packComponents s _ _ (hM.symm ▸ hpos)]
  · congr 1
    rw [hE]
    omega
  · intro hzero
    have := congrArg BitVec.toNat hzero
    rw [hE] at this
    change _ = 0 at this
    omega
  · intro hinfinite
    have := congrArg BitVec.toNat hinfinite
    rw [hE] at this
    change _ = 2047 at this
    omega

/-! ## Rounding -/

theorem mantissa_shiftRight (em : ExtendedMantissa) (k : Nat) :
    (em >>> k).mantissa = em.mantissa / 2 ^ k := by
  induction k with
  | zero => exact (Nat.div_one _).symm
  | succ k ih =>
    change (em >>> k).mantissa / 2 = _
    rw [ih, Nat.div_div_eq_div_mul, Nat.pow_succ]

theorem roundedMantissa_cases (em : ExtendedMantissa) :
    em.roundedMantissa = em.mantissa ∨ em.roundedMantissa = em.mantissa + 1 := by
  obtain ⟨m, r, s⟩ := em
  cases r <;> cases s
  · exact .inl rfl
  · exact .inl rfl
  · change m + m % 2 = m ∨ m + m % 2 = m + 1
    omega
  · exact .inr rfl

theorem targetExponent_eq {m : Nat} {e : Int} (h : -1022 ≤ m.log2 + e) :
    Format.binary64.targetExponent (totalExponent m e) = m.log2 + e - 52 := by
  change max ((m.log2 : Int) + 1 + e - 53) (-1074) = _
  omega

theorem shiftToTargetExponent_eq {m : Nat} {e : Int} (acc : Accuracy) (hm : 52 ≤ m.log2)
    (hlow : -1022 ≤ m.log2 + e) :
    shiftToTargetExponent .binary64 m e acc =
      (ExtendedMantissa.ofMantissaAndAccuracy m acc >>> (m.log2 - 52), m.log2 + e - 52) := by
  unfold shiftToTargetExponent shiftToExponent
  simp only [targetExponent_eq hlow]
  have hshift : ((m.log2 : Int) + e - 52 - e).toNat = m.log2 - 52 := by omega
  rw [hshift]
  congr 1
  omega

theorem mantissa_ofMantissaAndAccuracy (m : Nat) (acc : Accuracy) :
    (ExtendedMantissa.ofMantissaAndAccuracy m acc).mantissa = m := by
  cases acc with
  | exact => rfl
  | inexact o => cases o <;> rfl

theorem div_full {m k : Nat} (hlog : m.log2 = 52 + k) :
    hiddenBit ≤ m / 2 ^ k ∧ m / 2 ^ k < 2 * hiddenBit := by
  have hm : m ≠ 0 := by
    intro h
    rw [h] at hlog
    simp at hlog
    omega
  have hle := Nat.log2_self_le hm
  have hlt := Nat.lt_log2_self (n := m)
  rw [hlog] at hle hlt
  constructor
  · apply (Nat.le_div_iff_mul_le (Nat.two_pow_pos k)).mpr
    rw [Nat.pow_add] at hle
    exact hle
  · apply (Nat.div_lt_iff_lt_mul (Nat.two_pow_pos k)).mpr
    rw [Nat.add_right_comm, Nat.pow_add] at hlt
    exact hlt

/-- After rounding there is a full significand or the next power of two, which shifts once more. -/
theorem exists_renormalized {r : Nat} {e : Int} (hr : hiddenBit ≤ r) (hr' : r ≤ 2 * hiddenBit)
    (hlow : -1074 ≤ e) :
    ∃ em e', shiftToTargetExponent .binary64 r e .exact = (em, e') ∧ e ≤ e' ∧ e' ≤ e + 1 ∧
      hiddenBit ≤ em.mantissa ∧ em.mantissa < 2 * hiddenBit ∧
      (em.mantissa : ℚ) * 2 ^ e' = r * 2 ^ e := by
  rcases Nat.lt_or_ge r (2 * hiddenBit) with hlt | hge
  · have hlog := log2_of_full hr hlt
    have hshift := shiftToTargetExponent_eq (m := r) (e := e) .exact (by omega) (by omega)
    have hmantissa : (ExtendedMantissa.ofMantissaAndAccuracy r .exact >>> (r.log2 - 52)).mantissa =
        r := by
      rw [mantissa_shiftRight, mantissa_ofMantissaAndAccuracy, hlog]
      exact Nat.div_one r
    have hexp : (r.log2 : Int) + e - 52 = e := by omega
    refine ⟨_, _, hshift, by omega, by omega, ?_, ?_, ?_⟩
    all_goals rw [hmantissa]
    · exact hr
    · exact hlt
    · rw [hexp]
  · obtain rfl : r = 2 * hiddenBit := Nat.le_antisymm hr' hge
    have hlog : (2 * hiddenBit).log2 = 53 := by decide
    have hshift := shiftToTargetExponent_eq (m := 2 * hiddenBit) (e := e) .exact (by omega)
      (by omega)
    have hmantissa : (ExtendedMantissa.ofMantissaAndAccuracy (2 * hiddenBit) .exact >>>
        ((2 * hiddenBit).log2 - 52)).mantissa = hiddenBit := by
      rw [mantissa_shiftRight, mantissa_ofMantissaAndAccuracy, hlog]
      rfl
    have hexp : ((2 * hiddenBit).log2 : Int) + e - 52 = e + 1 := by omega
    refine ⟨_, _, hshift, by omega, by omega, ?_, ?_, ?_⟩
    all_goals rw [hmantissa]
    · decide
    · rw [hexp, zpow_add_one₀ two_ne_zero]
      push_cast
      ring

theorem abs_sub_le_of_div {m r k : Nat} (hr : r = m / 2 ^ k ∨ r = m / 2 ^ k + 1) :
    |(r : ℚ) * 2 ^ k - m| ≤ 2 ^ k := by
  have hsplit := Nat.div_add_mod' m (2 ^ k)
  have hmod := Nat.mod_lt m (Nat.two_pow_pos k)
  have hsucc : (m / 2 ^ k + 1) * 2 ^ k = m / 2 ^ k * 2 ^ k + 2 ^ k := Nat.succ_mul ..
  have hbelow : r * 2 ^ k ≤ m + 2 ^ k := by
    rcases hr with rfl | rfl <;> omega
  have habove : m ≤ r * 2 ^ k + 2 ^ k := by
    rcases hr with rfl | rfl <;> omega
  have hbelow' : (r : ℚ) * 2 ^ k ≤ m + 2 ^ k := by exact_mod_cast hbelow
  have habove' : (m : ℚ) ≤ r * 2 ^ k + 2 ^ k := by exact_mod_cast habove
  apply abs_le.mpr
  constructor <;> linarith

/-- Rounding moves a number by less than a unit in the last place. -/
theorem normal_round {m : Nat} {e : Int} (s : Sign) (acc : Accuracy) (hm : 52 ≤ m.log2)
    (hlow : -1022 ≤ m.log2 + e) (hhigh : m.log2 + e ≤ 1022) :
    ∃ m' e', Normal (.ofModel (Float.Model.pack (roundWithAccuracy .binary64 s m e acc))) s m' e' ∧
      |(m' : ℚ) * 2 ^ e' - m * 2 ^ e| ≤ 2 ^ ((m.log2 : Int) + e - 52) := by
  obtain ⟨k, hk⟩ := Nat.exists_eq_add_of_le hm
  have hfirst := shiftToTargetExponent_eq acc hm hlow
  obtain ⟨hfull, hlt⟩ := div_full hk
  have hsub : m.log2 - 52 = k := by omega
  have hexp : (m.log2 : Int) + e - 52 = e + k := by omega
  rw [hsub, hexp] at hfirst
  rw [hexp]
  generalize hem : ExtendedMantissa.ofMantissaAndAccuracy m acc >>> k = em at hfirst
  have hmantissa : em.mantissa = m / 2 ^ k := by
    rw [← hem, mantissa_shiftRight, mantissa_ofMantissaAndAccuracy]
  have hr := roundedMantissa_cases em
  rw [hmantissa] at hr
  obtain ⟨em', e', hsecond, hle, hge, hfull', hlt', hvalue⟩ :=
    exists_renormalized (r := em.roundedMantissa) (e := e + k) (by omega) (by omega) (by omega)
  have hpos : 0 < em'.mantissa := Nat.lt_of_lt_of_le (by decide) hfull'
  have hround : roundWithAccuracy .binary64 s m e acc = .finite s em'.mantissa e' hpos := by
    unfold roundWithAccuracy
    rw [hfirst]
    dsimp only
    rw [hsecond]
    exact dif_neg hpos.ne'
  rw [hround]
  refine ⟨_, _, normal_pack hpos hfull' hlt' (by omega) (by omega), ?_⟩
  rw [hvalue, zpow_add₀ two_ne_zero, zpow_natCast]
  have hpow : (0 : ℚ) < 2 ^ e := by positivity
  calc |(em.roundedMantissa : ℚ) * (2 ^ e * 2 ^ k) - m * 2 ^ e|
      = |((em.roundedMantissa : ℚ) * 2 ^ k - m) * 2 ^ e| := by ring_nf
    _ = |(em.roundedMantissa : ℚ) * 2 ^ k - m| * 2 ^ e := by rw [abs_mul, abs_of_pos hpow]
    _ ≤ 2 ^ k * 2 ^ e := mul_le_mul_of_nonneg_right (abs_sub_le_of_div hr) hpow.le
    _ = 2 ^ e * 2 ^ k := mul_comm ..

/-- The largest relative error of a rounding. -/
def ulp : ℚ := 1 / hiddenBit

/-- `x` is `y` up to a relative error. -/
def Within (ε x y : ℚ) : Prop := |x - y| ≤ ε * y

theorem Within.trans {ε δ x y z : ℚ} (h : Within ε x y) (h' : Within δ y z) (hε : 0 ≤ ε) :
    Within (ε + δ + ε * δ) x z := by
  unfold Within at *
  have hy := (abs_le.mp h').2
  calc |x - z| ≤ |x - y| + |y - z| := abs_sub_le x y z
    _ ≤ ε * y + δ * z := add_le_add h h'
    _ ≤ ε * (z + δ * z) + δ * z := by
      apply add_le_add_left
      apply mul_le_mul_of_nonneg_left _ hε
      linarith
    _ = (ε + δ + ε * δ) * z := by ring

theorem Within.mono {ε δ x y : ℚ} (h : Within ε x y) (hle : ε ≤ δ) (hy : 0 ≤ y) :
    Within δ x y :=
  le_trans h (mul_le_mul_of_nonneg_right hle hy)

theorem Within.bounds {ε x y : ℚ} (h : Within ε x y) (hε : ε ≤ 1 / 2) (hy : 0 < y) :
    y / 2 ≤ x ∧ x < 2 * y := by
  have hhalf : ε * y ≤ 1 / 2 * y := mul_le_mul_of_nonneg_right hε hy.le
  obtain ⟨hbelow, habove⟩ := abs_le.mp h
  constructor <;> linarith

theorem Within.mul_right {ε x y c : ℚ} (h : Within ε x y) (hc : 0 ≤ c) :
    Within ε (x * c) (y * c) := by
  unfold Within at *
  calc |x * c - y * c| = |x - y| * c := by rw [← sub_mul, abs_mul, abs_of_nonneg hc]
    _ ≤ ε * y * c := mul_le_mul_of_nonneg_right h hc
    _ = ε * (y * c) := mul_assoc ..

/-- A quotient of numbers that are off a little. -/
theorem Within.div {ε δ x y x' y' : ℚ} (h : Within ε x y) (h' : Within δ x' y') (hε : 0 ≤ ε)
    (hδ : δ ≤ 1 / 2) (hy : 0 ≤ y) (hy' : 0 < y') : Within (2 * (ε + δ)) (x / x') (y / y') := by
  obtain ⟨hhalf, -⟩ := h'.bounds hδ hy'
  have hx' : 0 < x' := by linarith
  have hδ₀ : 0 ≤ δ := nonneg_of_mul_nonneg_left (le_trans (abs_nonneg _) h') hy'
  unfold Within at *
  have hcross : |x * y' - y * x'| ≤ (ε + δ) * (y * y') := by
    calc |x * y' - y * x'| = |(x - y) * y' - y * (x' - y')| := by ring_nf
      _ ≤ |(x - y) * y'| + |y * (x' - y')| := abs_sub _ _
      _ = |x - y| * y' + y * |x' - y'| := by
        rw [abs_mul, abs_mul, abs_of_pos hy', abs_of_nonneg hy]
      _ ≤ ε * y * y' + y * (δ * y') := by gcongr
      _ = (ε + δ) * (y * y') := by ring
  calc |x / x' - y / y'| = |x * y' - y * x'| / (x' * y') := by
        rw [div_sub_div _ _ hx'.ne' hy'.ne', abs_div, abs_of_pos (mul_pos hx' hy'), mul_comm x' y]
    _ ≤ (ε + δ) * (y * y') / (x' * y') := by gcongr
    _ = (ε + δ) * (y / x') := by field_simp
    _ ≤ (ε + δ) * (y / (y' / 2)) := by gcongr
    _ = 2 * (ε + δ) * (y / y') := by field_simp

theorem within_round {m : Nat} {e : Int} (s : Sign) (acc : Accuracy) (hm : 52 ≤ m.log2)
    (hlow : -1022 ≤ m.log2 + e) (hhigh : m.log2 + e ≤ 1022) :
    ∃ m' e', Normal (.ofModel (Float.Model.pack (roundWithAccuracy .binary64 s m e acc))) s m' e' ∧
      Within ulp (m' * 2 ^ e') (m * 2 ^ e) := by
  obtain ⟨m', e', hnormal, herror⟩ := normal_round s acc hm hlow hhigh
  refine ⟨m', e', hnormal, herror.trans ?_⟩
  have hne : m ≠ 0 := by
    intro hzero
    rw [hzero] at hm
    exact absurd hm (by decide)
  have hle : (2 : ℚ) ^ m.log2 ≤ m := by exact_mod_cast Nat.log2_self_le hne
  have hhidden : ((hiddenBit : Nat) : ℚ) = 2 ^ (52 : Int) := by
    norm_num [hiddenBit]
  calc (2 : ℚ) ^ ((m.log2 : Int) + e - 52) = 2 ^ m.log2 * 2 ^ e / 2 ^ (52 : Int) := by
        rw [zpow_sub₀ two_ne_zero, zpow_add₀ two_ne_zero, zpow_natCast]
    _ ≤ m * 2 ^ e / 2 ^ (52 : Int) := by
      gcongr
    _ = ulp * (m * 2 ^ e) := by
      rw [ulp, hhidden]
      ring

/-! ## Operations -/

variable {f g : Float} {s s' : Sign} {m m' : Nat} {e e' : Int}

theorem Normal.pos (h : Normal f s m e) : 0 < m := Nat.lt_of_lt_of_le (by decide) h.full

theorem log2_mul_of_full (hm : hiddenBit ≤ m) (hm' : hiddenBit ≤ m') (hlt : m < 2 * hiddenBit)
    (hlt' : m' < 2 * hiddenBit) : 104 ≤ (m * m').log2 ∧ (m * m').log2 < 106 := by
  have hlow : hiddenBit * hiddenBit ≤ m * m' := Nat.mul_le_mul hm hm'
  have hhigh : m * m' < 2 * hiddenBit * (2 * hiddenBit) :=
    Nat.mul_lt_mul_of_lt_of_le hlt hlt'.le (by decide)
  have hne : m * m' ≠ 0 := (Nat.lt_of_lt_of_le (by decide) hlow).ne'
  exact ⟨(Nat.le_log2 hne).mpr hlow, (Nat.log2_lt hne).mpr hhigh⟩

theorem Normal.mul (hf : Normal f s m e) (hg : Normal g s' m' e') (hlow : -1100 ≤ e + e')
    (hhigh : e + e' ≤ 900) :
    ∃ m'' e'', Normal (f * g) (s * s') m'' e'' ∧
      Within ulp (m'' * 2 ^ e'') ((m * 2 ^ e) * (m' * 2 ^ e')) := by
  obtain ⟨hlog, hlog'⟩ := log2_mul_of_full hf.full hg.full hf.lt hg.lt
  obtain ⟨m'', e'', hnormal, herror⟩ := within_round (s * s') (m := m * m') (e := e + e') .exact
    (by omega) (by omega) (by omega)
  refine ⟨m'', e'', ?_, ?_⟩
  · have hmul : f * g = .ofModel (Float.Model.pack
        (UnpackedFloat.mul .binary64 f.toModel.unpack g.toModel.unpack)) := rfl
    rw [hmul, hf.unpack hf.pos, hg.unpack hg.pos]
    exact hnormal
  · rw [zpow_add₀ two_ne_zero] at herror
    push_cast at herror
    have hswap : (m : ℚ) * m' * (2 ^ e * 2 ^ e') = m * 2 ^ e * (m' * 2 ^ e') := by ring
    rwa [hswap] at herror

theorem divCore_eq (hm : hiddenBit ≤ m) (hm' : hiddenBit ≤ m') (hlt : m < 2 * hiddenBit)
    (hlt' : m' < 2 * hiddenBit) (hlow : -1000 ≤ e - e') :
    ∃ acc, divCore .binary64 m e m' e' = (m * (2 * hiddenBit) / m', e - e' - 53, acc) := by
  have htarget : min (e - e') (Format.binary64.targetExponent
      (totalExponent m e - totalExponent m' e')) = e - e' - 53 := by
    change min (e - e') (max (((m.log2 : Int) + 1 + e) - ((m'.log2 : Int) + 1 + e') - 53) (-1074)) =
      _
    rw [log2_of_full hm hlt, log2_of_full hm' hlt']
    omega
  unfold divCore
  simp only [htarget]
  have hshift : (e - e' - (e - e' - 53)).toNat = 53 := by omega
  rw [hshift, Nat.shiftLeft_eq]
  exact ⟨_, rfl⟩

theorem within_floor {a b : Nat} (hb : 0 < b) (h : hiddenBit ≤ a / b) :
    Within ulp (a / b : Nat) ((a : ℚ) / b) := by
  have hsplit := Nat.div_add_mod' a b
  have hmod := Nat.mod_lt a hb
  have hb' : (0 : ℚ) < b := by exact_mod_cast hb
  have hbelow : ((a / b : Nat) : ℚ) ≤ (a : ℚ) / b := by
    rw [le_div_iff₀ hb']
    exact_mod_cast Nat.div_mul_le_self a b
  have habove : (a : ℚ) / b ≤ (a / b : Nat) + 1 := by
    rw [div_le_iff₀ hb']
    have hle : a ≤ (a / b + 1) * b := by
      rw [Nat.succ_mul]
      omega
    exact_mod_cast hle
  have hone : (1 : ℚ) ≤ ulp * (a / b) := by
    have hhidden : (hiddenBit : ℚ) ≤ (a : ℚ) / b := by
      apply le_trans _ hbelow
      exact_mod_cast h
    have hpos : (0 : ℚ) < hiddenBit := by norm_num [hiddenBit]
    rw [ulp, div_mul_eq_mul_div, one_mul, le_div_iff₀ hpos, one_mul]
    exact hhidden
  unfold Within
  apply le_trans _ hone
  apply abs_le.mpr
  constructor <;> linarith

theorem Normal.div (hf : Normal f s m e) (hg : Normal g s' m' e') (hlow : -900 ≤ e - e')
    (hhigh : e - e' ≤ 900) :
    ∃ m'' e'', Normal (f / g) (s / s') m'' e'' ∧
      Within (ulp + ulp + ulp * ulp) (m'' * 2 ^ e'') ((m * 2 ^ e) / (m' * 2 ^ e')) := by
  have hgap : -1000 ≤ e - e' := by omega
  obtain ⟨acc, hcore⟩ := divCore_eq hf.full hg.full hf.lt hg.lt hgap
  have hq : hiddenBit ≤ m * (2 * hiddenBit) / m' := by
    apply (Nat.le_div_iff_mul_le hg.pos).mpr
    exact Nat.mul_le_mul hf.full hg.lt.le
  have hq' : m * (2 * hiddenBit) / m' < 4 * hiddenBit := by
    apply (Nat.div_lt_iff_lt_mul hg.pos).mpr
    have h₁ := hf.lt
    have h₂ := hg.full
    simp only [hiddenBit] at *
    omega
  have hne : m * (2 * hiddenBit) / m' ≠ 0 := (Nat.lt_of_lt_of_le (by decide) hq).ne'
  have hlog : 52 ≤ (m * (2 * hiddenBit) / m').log2 := (Nat.le_log2 hne).mpr hq
  have hlog' : (m * (2 * hiddenBit) / m').log2 < 54 := (Nat.log2_lt hne).mpr hq'
  obtain ⟨m'', e'', hnormal, herror⟩ := within_round (s / s') (e := e - e' - 53) acc hlog
    (by omega) (by omega)
  refine ⟨m'', e'', ?_, herror.trans ?_ (by norm_num [ulp, hiddenBit])⟩
  · have hdiv : f / g = .ofModel (Float.Model.pack
        (UnpackedFloat.div .binary64 f.toModel.unpack g.toModel.unpack)) := rfl
    rw [hdiv, hf.unpack hf.pos, hg.unpack hg.pos]
    unfold UnpackedFloat.div
    simp only [hcore]
    exact hnormal
  · have hfloor := within_floor hg.pos hq
    have hpow : (0 : ℚ) < 2 ^ (e - e' - 53) := by positivity
    have hpos : (0 : ℚ) < m' := by exact_mod_cast hg.pos
    have hvalue : (m : ℚ) * 2 ^ e / (m' * 2 ^ e') =
        ((m * (2 * hiddenBit) : Nat) : ℚ) / m' * 2 ^ (e - e' - 53) := by
      have hfull : (2 : ℚ) ^ (53 : Int) = (2 * hiddenBit : Nat) := by norm_num [hiddenBit]
      have hne' : ((2 * hiddenBit : Nat) : ℚ) ≠ 0 := by norm_num [hiddenBit]
      rw [zpow_sub₀ two_ne_zero, zpow_sub₀ two_ne_zero, hfull, Nat.cast_mul m]
      field_simp
    rw [hvalue]
    exact hfloor.mul_right hpow.le

theorem Normal.isInf_eq_false (h : Normal f s m e) : f.isInf = false := by
  change f.toModel.unpack.isInf = false
  rw [h.unpack h.pos]
  rfl

theorem Normal.neg (h : Normal f .positive m e) : Normal (-f) .negative m e := by
  have hneg : -f = .ofModel (Float.Model.pack f.toModel.unpack.neg) := rfl
  rw [hneg, h.unpack h.pos]
  exact normal_pack h.pos h.full h.lt h.low h.high

theorem normal_one : Normal (.ofBits 0x3FF0000000000000) .positive hiddenBit (-52) :=
  ⟨Nat.le_refl _, by decide, by decide, by decide, by decide +kernel⟩

theorem log2_shiftLeft {n : Nat} (hpos : 0 < n) (k : Nat) : (n <<< k).log2 = n.log2 + k := by
  have hle := Nat.log2_self_le hpos.ne'
  have hlt := Nat.lt_log2_self (n := n)
  have hk := Nat.two_pow_pos k
  rw [Nat.shiftLeft_eq]
  apply (Nat.log2_eq_iff (Nat.mul_pos hpos hk).ne').mpr
  constructor
  · rw [Nat.pow_add]
    exact Nat.mul_le_mul_right _ hle
  · rw [Nat.add_right_comm, Nat.pow_add]
    exact Nat.mul_lt_mul_of_pos_right hlt hk

theorem value_shiftLeft (n k : Nat) (e : Int) :
    ((n <<< k : Nat) : ℚ) * 2 ^ (e - k) = n * 2 ^ e := by
  rw [Nat.shiftLeft_eq, zpow_sub₀ two_ne_zero, zpow_natCast]
  push_cast
  field_simp

/-- An unsigned word becomes a float in one rounding. -/
theorem normal_toFloat {n : Nat} (hpos : 0 < n) (hlt : n < UInt64.size) :
    ∃ m e, Normal n.toUInt64.toFloat .positive m e ∧ Within ulp (m * 2 ^ e) n := by
  have hlog : n.log2 < 64 := (Nat.log2_lt hpos.ne').mpr hlt
  have hround : n.toUInt64.toFloat = .ofModel (Float.Model.pack (roundWithAccuracy .binary64
      .positive (n <<< (52 - n.log2)) (0 - (52 - n.log2 : Nat)) .exact)) := by
    have hn : n.toUInt64.toNat = n := UInt64.toNat_ofNat_of_lt hlt
    have hcompare : compare (n : Int) 0 = .gt := compare_gt_iff_gt.mpr (by omega)
    have hshift : ((0 : Int) - (n.log2 + 0 - 52)).toNat = 52 - n.log2 := by omega
    change Float.ofModel
      (.pack (UnpackedFloat.normalize .binary64 (n.toUInt64.toNat : Int) 0 .positive)) = _
    rw [hn]
    unfold UnpackedFloat.normalize
    rw [hcompare]
    unfold UnpackedFloat.round decreaseExponent
    simp only [Int.toNat_natCast, targetExponent_eq (m := n) (e := 0) (by omega), hshift]
  have hfull : (n <<< (52 - n.log2)).log2 = n.log2 + (52 - n.log2) := log2_shiftLeft hpos _
  obtain ⟨m, e, hnormal, herror⟩ := within_round .positive (m := n <<< (52 - n.log2))
    (e := 0 - (52 - n.log2 : Nat)) .exact (by omega) (by omega) (by omega)
  rw [value_shiftLeft, zpow_zero, mul_one] at herror
  rw [hround]
  exact ⟨m, e, hnormal, herror⟩

theorem Normal.bounds (h : Normal f s m e) :
    (2 : ℚ) ^ (e + 52) ≤ m * 2 ^ e ∧ (m : ℚ) * 2 ^ e < 2 ^ (e + 53) := by
  constructor
  · have hfull : (2 : ℚ) ^ (52 : Int) ≤ m := by
      have : (hiddenBit : ℚ) ≤ m := by exact_mod_cast h.full
      norm_num [hiddenBit] at this ⊢
      exact this
    rw [zpow_add₀ two_ne_zero, mul_comm]
    gcongr
  · have hlt : (m : ℚ) < 2 ^ (53 : Int) := by
      have : (m : ℚ) < (2 * hiddenBit : Nat) := by exact_mod_cast h.lt
      norm_num [hiddenBit] at this ⊢
      exact this
    rw [zpow_add₀ two_ne_zero, mul_comm]
    gcongr

theorem Normal.exponent (h : Normal f s m e) {j k : Int} (hj : (2 : ℚ) ^ j ≤ m * 2 ^ e)
    (hk : (m : ℚ) * 2 ^ e < 2 ^ k) : j ≤ e + 52 ∧ e + 52 < k := by
  obtain ⟨hlow, hhigh⟩ := h.bounds
  have h₁ := (zpow_lt_zpow_iff_right₀ one_lt_two).mp (hj.trans_lt hhigh)
  have h₂ := (zpow_lt_zpow_iff_right₀ one_lt_two).mp (hlow.trans_lt hk)
  omega

/-- The exponent of a quotient is not far from the difference of the exponents. -/
theorem Normal.exponent_of_div {q : Float} {t : Sign} {n : Nat} {k : Int} {ε : ℚ}
    (hf : Normal f s m e) (hg : Normal g s' m' e') (hq : Normal q t n k)
    (herror : Within ε (n * 2 ^ k) ((m * 2 ^ e) / (m' * 2 ^ e'))) (hε : ε ≤ 1 / 2) :
    e - e' - 2 ≤ k + 52 ∧ k + 52 < e - e' + 2 := by
  obtain ⟨hlow, hhigh⟩ := hf.bounds
  obtain ⟨hlow', hhigh'⟩ := hg.bounds
  have hpos : (0 : ℚ) < 2 ^ (e' + 52) := by positivity
  have hpos' : (0 : ℚ) < m' * 2 ^ e' := hpos.trans_le hlow'
  have hbelow : (2 : ℚ) ^ (e - e' - 1) ≤ (m * 2 ^ e) / (m' * 2 ^ e') := by
    have hsplit : e - e' - 1 = (e + 52) - (e' + 53) := by ring
    rw [hsplit, zpow_sub₀ two_ne_zero]
    gcongr
  have habove : (m * 2 ^ e) / (m' * 2 ^ e') < (2 : ℚ) ^ (e - e' + 1) := by
    have hsplit : e - e' + 1 = (e + 53) - (e' + 52) := by ring
    rw [hsplit, zpow_sub₀ two_ne_zero]
    exact div_lt_div₀ hhigh hlow' (by positivity) hpos
  obtain ⟨hhalf, htwice⟩ := herror.bounds hε (lt_of_lt_of_le (by positivity) hbelow)
  apply hq.exponent
  · calc (2 : ℚ) ^ (e - e' - 2) = 2 ^ (e - e' - 1) / 2 := by
          rw [div_eq_mul_inv, ← zpow_sub_one₀ two_ne_zero]
          ring_nf
      _ ≤ (m * 2 ^ e) / (m' * 2 ^ e') / 2 := by gcongr
      _ ≤ n * 2 ^ k := hhalf
  · calc (n : ℚ) * 2 ^ k < 2 * ((m * 2 ^ e) / (m' * 2 ^ e')) := htwice
      _ < 2 * 2 ^ (e - e' + 1) := by gcongr
      _ = 2 ^ (e - e' + 2) := by
          rw [mul_comm, ← zpow_add_one₀ two_ne_zero]
          ring_nf

theorem Normal.exponent_of_within {ε : ℚ} {n : Nat} (h : Normal f s m e)
    (herror : Within ε (m * 2 ^ e) n) (hε : ε ≤ 1 / 2) (hpos : 0 < n) :
    -1 ≤ e + 52 ∧ e + 52 < n.log2 + 2 := by
  have hn : (0 : ℚ) < n := by exact_mod_cast hpos
  have hone : (1 : ℚ) ≤ n := by exact_mod_cast hpos
  have hlt : (n : ℚ) < 2 ^ (n.log2 + 1) := by exact_mod_cast Nat.lt_log2_self
  obtain ⟨hlow, hhigh⟩ := herror.bounds hε hn
  apply h.exponent
  · apply le_trans _ hlow
    norm_num
    linarith
  · apply hhigh.trans
    have hexp : ((n.log2 : Int) + 2) = ((n.log2 + 1 : Nat) : Int) + 1 := by
      push_cast
      ring
    rw [hexp, zpow_add_one₀ two_ne_zero, zpow_natCast, mul_comm]
    gcongr

/-- A natural number becomes a float in at most two roundings. -/
theorem Normal.ofNat {n : Nat} (hpos : 0 < n) (hlog : n.log2 ≤ 200) :
    ∃ m e, Normal (Float.ofNat n) .positive m e ∧
      Within (ulp + ulp + ulp * ulp) (m * 2 ^ e) n := by
  have hunfold : Float.ofNat n = Float.ofScientific n false 0 := rfl
  rw [hunfold]
  unfold Float.ofScientific
  split
  · rename_i h
    have hsize : n < UInt64.size := Nat.lt_trans h.1 (by decide)
    obtain ⟨m, e, hnormal, herror⟩ := normal_toFloat hpos hsize
    have hexp := hnormal.exponent_of_within herror (by norm_num [ulp, hiddenBit]) hpos
    obtain ⟨m', e', hnormal', herror'⟩ := hnormal.mul normal_one (by omega) (by omega)
    refine ⟨m', e', hnormal', herror'.trans ?_ (by norm_num [ulp, hiddenBit])⟩
    have hone : ((hiddenBit : Nat) : ℚ) * 2 ^ (-52 : Int) = 1 := by norm_num [hiddenBit]
    rw [hone, mul_one]
    exact herror
  · have hround : Float.ofModel (Float.Model.ofScientific n 0) = .ofModel (Float.Model.pack
        (roundWithAccuracy .binary64 .positive (n <<< 53) (0 - (53 : Nat)) .exact)) := by
      unfold Float.Model.ofScientific UnpackedFloat.ofScientific
      have hbits : ¬ (0 : Int) < -((2 : Int) ^ Format.binary64.exponentBits + n.log2) := by
        change ¬ (0 : Int) < -((2048 : Int) + n.log2)
        omega
      rw [dif_neg hpos.ne', if_neg (by decide), if_neg hbits, if_pos (Int.le_refl _)]
      change Float.ofModel (.pack (roundWithAccuracy .binary64 .positive
        (n <<< 53 * 1) (-53 + 0) .exact)) = _
      rw [Nat.mul_one]
      rfl
    have hfull : (n <<< 53).log2 = n.log2 + 53 := log2_shiftLeft hpos 53
    obtain ⟨m, e, hnormal, herror⟩ := within_round .positive (m := n <<< 53)
      (e := 0 - (53 : Nat)) .exact (by omega) (by omega) (by omega)
    rw [value_shiftLeft, zpow_zero, mul_one] at herror
    refine ⟨m, e, ?_, herror.mono ?_ n.cast_nonneg⟩
    · change Normal (.ofModel (.ofScientific n 0)) .positive m e
      rw [hround]
      exact hnormal
    · norm_num [ulp, hiddenBit]

/-- The number that a finite double stands for. -/
def value (x : Double) : ℚ := if x.isNegative then -x.size else x.size

theorem size_nonneg (x : Double) : 0 ≤ x.size := by
  unfold size
  positivity

theorem size_lt_size {x y : Double} : x.size < y.size ↔ x.magnitude < y.magnitude := by
  rw [size_eq_sizeAt, size_eq_sizeAt]
  exact sizeAt_strictMono.lt_iff_lt

/-- The order of doubles is the order of the numbers, where these differ. -/
theorem order_lt_of_value_lt {x y : Double} (h : x.value < y.value) : x.order < y.order := by
  have hx := x.size_nonneg
  have hy := y.size_nonneg
  unfold value at h
  unfold order
  cases hnx : x.isNegative <;> cases hny : y.isNegative
  all_goals simp only [hnx, hny, if_true, Bool.false_eq_true, if_false] at h ⊢
  · have := size_lt_size.mp h
    omega
  · linarith
  · omega
  · have := size_lt_size.mp (neg_lt_neg_iff.mp h)
    omega

theorem Normal.pattern_lt (h : Normal f s m e) : pattern m e < signBit := by
  have hlt := h.lt
  have hhigh := h.high
  simp only [hiddenBit] at hlt
  simp only [pattern, signBit, hiddenBit]
  omega

theorem Normal.isNegative_iff (h : Normal f s m e) :
    (ofFloat f).isNegative = true ↔ s = .negative := by
  have hlt := h.pattern_lt
  have hbits : (ofFloat f).bits.toNat = signOf s + pattern m e := h.bits
  unfold isNegative
  rw [hbits, decide_eq_true_iff]
  cases s with
  | negative => exact iff_of_true (Nat.le_add_right ..) rfl
  | positive =>
    apply iff_of_false _ nofun
    change ¬ signBit ≤ 0 + pattern m e
    omega

theorem Normal.isNegative_eq_false (h : Normal f .positive m e) :
    (ofFloat f).isNegative = false := by
  rw [← Bool.not_eq_true]
  exact h.isNegative_iff.not.mpr nofun

theorem Normal.size_eq (h : Normal f s m e) : (ofFloat f).size = m * 2 ^ e := by
  have hlt := h.pattern_lt
  have hbits : (ofFloat f).bits.toNat = signOf s + pattern m e := h.bits
  have hmagnitude : (ofFloat f).magnitude = pattern m e := by
    unfold magnitude
    rw [hbits]
    cases s with
    | negative =>
      change (signBit + _) % _ = _
      rw [Nat.add_mod_left, Nat.mod_eq_of_lt hlt]
    | positive =>
      change (0 + _) % _ = _
      rw [Nat.zero_add, Nat.mod_eq_of_lt hlt]
  rw [size_eq_sizeAt, hmagnitude, sizeAt_pattern h.lt.le h.low (.inl h.full)]

/-- What a sign does to a number. -/
def factor : Sign → ℚ
  | .negative => -1
  | .positive => 1

theorem Normal.value_eq (h : Normal f s m e) : (ofFloat f).value = factor s * (m * 2 ^ e) := by
  unfold value
  rw [h.size_eq]
  cases s with
  | negative =>
    rw [if_pos (h.isNegative_iff.mpr rfl)]
    exact neg_eq_neg_one_mul _
  | positive =>
    rw [h.isNegative_eq_false, if_neg Bool.false_ne_true]
    exact (one_mul _).symm

theorem normal_of_finite (hsign : (ofFloat f).isNegative = false)
    (hfull : hiddenBit ≤ (ofFloat f).magnitude) (hfinite : (ofFloat f).isFinite = true) :
    ∃ m e, Normal f .positive m e ∧ (ofFloat f).size = m * 2 ^ e := by
  have hmagnitude : f.toBits.toNat = (ofFloat f).magnitude := by
    unfold isNegative at hsign
    unfold magnitude
    rw [decide_eq_false_iff_not, Nat.not_le] at hsign
    exact (Nat.mod_eq_of_lt hsign).symm
  obtain ⟨m, e, hlt, hlow, hm, hpattern⟩ := exists_pattern (ofFloat f).magnitude
  have hbits : f.toBits.toNat = signOf .positive + pattern m e := by
    rw [hmagnitude, hpattern]
    exact (Nat.zero_add _).symm
  have hm' : hiddenBit ≤ m := by
    rcases hm with hm | rfl
    · exact hm
    · rw [← hpattern] at hfull
      simpa [pattern] using hfull
  have hhigh : e ≤ 971 := by
    unfold isFinite at hfinite
    have hfinite : (ofFloat f).magnitude < infinity.magnitude := of_decide_eq_true hfinite
    have hinfinity : infinity.magnitude = 2047 * hiddenBit := by decide
    rw [← hpattern, hinfinity] at hfinite
    simp only [pattern, hiddenBit] at hfinite hm'
    omega
  have hnormal : Normal f .positive m e := ⟨hm', hlt, hlow, hhigh, hbits⟩
  exact ⟨m, e, hnormal, hnormal.size_eq⟩

end QueryPlanning.Double
