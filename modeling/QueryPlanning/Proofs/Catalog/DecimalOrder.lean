import QueryPlanning.Proofs.Catalog.DecimalDoubles
import QueryPlanning.Proofs.Catalog.LiteralOrder

/-!
# The order of decimals

Where both numbers are in range at the larger of two scales, decimals compare by value. Where one is
out of range the values are compared as doubles, and these tell values apart only if their distance
is not too small a part of them. Decimals with at most 38 digits never come that close: where such a
number is out of range at a scale, it is larger there than any other of them.
-/

namespace QueryPlanning

open Number

namespace Decimal

open Double

variable {a b : Decimal}

/-- The unscaled number of the same value at a larger scale. -/
def unscaledAt (d : Decimal) (scale : Nat) : Int := d.unscaled * 10 ^ (scale - d.scale.toNat)

/-- The larger of the two scales. -/
def sharedScale (a b : Decimal) : Nat := max a.scale.toNat b.scale.toNat

/-- Both numbers are in range at the larger scale. -/
def Aligned (a b : Decimal) : Prop :=
  fitsSigned 128 (a.unscaledAt (sharedScale a b)) = true ∧
    fitsSigned 128 (b.unscaledAt (sharedScale a b)) = true

/-- The part of themselves by which two values have to differ for their doubles to tell. -/
def blur : ℚ := 16 / hiddenBit

/-- Too large for a shared scale and too close for doubles. -/
structure Blurred (a b : Decimal) : Prop where
  unaligned : ¬Aligned a b
  close : |a.value - b.value| < blur * (|a.value| + |b.value|)

/-- The comparison is the one of the values. -/
structure Exact (a b : Decimal) : Prop where
  lt_iff : a.compare b = .lt ↔ a.value < b.value
  eq_iff : a.compare b = .eq ↔ a.value = b.value

/-- At most 38 digits. -/
def Short (d : Decimal) : Prop :=
  d.unscaled.natAbs < 100000000000000000000000000000000000000

theorem value_eq_unscaledAt {d : Decimal} {scale : Nat} (h : d.scale.toNat ≤ scale) :
    d.value = d.unscaledAt scale / 10 ^ scale := by
  obtain ⟨k, rfl⟩ := Nat.exists_eq_add_of_le h
  have hk : d.scale.toNat + k - d.scale.toNat = k := Nat.add_sub_cancel_left ..
  rw [value, unscaledAt, hk, pow_add]
  push_cast
  field_simp

theorem exact_of_cases (hlt : a.value < b.value → a.compare b = .lt)
    (heq : a.value = b.value → a.compare b = .eq)
    (hgt : b.value < a.value → a.compare b = .gt) : Exact a b := by
  rcases lt_trichotomy a.value b.value with h | h | h
  · have := hlt h
    constructor <;> simp [this, h, h.ne]
  · have := heq h
    constructor <;> simp [this, h]
  · have := hgt h
    constructor <;> simp [this, h.not_gt, h.ne']

theorem Exact.isLE_iff (h : Exact a b) : (a.compare b).isLE = true ↔ a.value ≤ b.value := by
  rw [le_iff_lt_or_eq, ← h.lt_iff, ← h.eq_iff]
  cases a.compare b <;> simp

/-! ## The comparison -/

theorem fitsSigned_iff {n : Int} : fitsSigned 128 n = true ↔
    -170141183460469231731687303715884105728 ≤ n ∧
      n < 170141183460469231731687303715884105728 := by
  unfold fitsSigned
  rw [Bool.and_eq_true, decide_eq_true_iff, decide_eq_true_iff]
  rfl

theorem fits_power_iff {k : Nat} : fitsSigned 128 (10 ^ k) = true ↔ k ≤ 38 := by
  constructor
  · intro h
    by_contra hlarge
    have hle : (10 : Int) ^ 39 ≤ 10 ^ k := pow_le_pow_right₀ (by decide) (by omega)
    have := (fitsSigned_iff.mp h).2
    omega
  · intro h
    have hle : (10 : Int) ^ k ≤ 10 ^ 38 := pow_le_pow_right₀ (by decide) h
    have hpos : (0 : Int) < 10 ^ k := by positivity
    exact fitsSigned_iff.mpr (by omega)

/-- Where a power of ten is out of range, so are its multiples. -/
theorem not_fits_mul {n : Int} {k : Nat} (hne : n ≠ 0) (h : fitsSigned 128 (10 ^ k) = false) :
    fitsSigned 128 (n * 10 ^ k) = false := by
  have hk : 39 ≤ k := by
    by_contra hsmall
    exact Bool.eq_false_iff.mp h (fits_power_iff.mpr (by omega))
  have hlarge : (10 : Int) ^ 39 ≤ |n * 10 ^ k| := by
    have hone : (1 : Int) ≤ |n| := Int.one_le_abs hne
    calc (10 : Int) ^ 39 ≤ 10 ^ k := pow_le_pow_right₀ (by decide) hk
      _ = 1 * |10 ^ k| := by rw [one_mul, abs_of_nonneg (by positivity)]
      _ ≤ |n| * |10 ^ k| := mul_le_mul_of_nonneg_right hone (abs_nonneg _)
      _ = |n * 10 ^ k| := (abs_mul ..).symm
  apply Bool.eq_false_iff.mpr
  intro hfits
  obtain ⟨hlow, hhigh⟩ := fitsSigned_iff.mp hfits
  have hsmall := abs_le.mpr ⟨hlow, hhigh.le⟩
  have := hlarge.trans hsmall
  norm_num at this

/-- At the shared scale a number is in range, or what it becomes there is not. -/
theorem shifted_cases (d : Decimal) (shared : Nat) :
    (if d.scale.toNat = shared then some d.unscaled
      else shifted? d.unscaled (shared - d.scale.toNat)) = some (d.unscaledAt shared) ∨
    ((if d.scale.toNat = shared then some d.unscaled
      else shifted? d.unscaled (shared - d.scale.toNat)) = none ∧
      (d.unscaled = 0 ∨ fitsSigned 128 (d.unscaledAt shared) = false)) := by
  by_cases hscale : d.scale.toNat = shared
  · left
    rw [if_pos hscale, unscaledAt, hscale, Nat.sub_self, pow_zero, mul_one]
  · rw [if_neg hscale, unscaledAt]
    generalize shared - d.scale.toNat = k
    cases hpower : fitsSigned 128 (10 ^ k)
    · have hnone : power? k = none := if_neg (by simp [hpower])
      refine .inr ⟨by rw [shifted?, hnone]; rfl, ?_⟩
      exact or_iff_not_imp_left.mpr fun hne ↦ not_fits_mul hne hpower
    · have hsome : power? k = some (10 ^ k) := if_pos hpower
      have hshift : shifted? d.unscaled k =
          if fitsSigned 128 (d.unscaled * 10 ^ k) then some (d.unscaled * 10 ^ k) else none := by
        rw [shifted?, hsome]
        rfl
      rw [hshift]
      cases hfits : fitsSigned 128 (d.unscaled * 10 ^ k)
      · exact .inr ⟨rfl, .inr rfl⟩
      · exact .inl rfl

theorem compare_cases (a b : Decimal) :
    a.compare b = Ord.compare (a.unscaledAt (sharedScale a b)) (b.unscaledAt (sharedScale a b)) ∨
    (a.compare b = Ord.compare a.toDouble.order b.toDouble.order ∧
      (a.unscaled = 0 ∨ b.unscaled = 0 ∨ ¬Aligned a b)) := by
  have ha := shifted_cases a (sharedScale a b)
  have hb := shifted_cases b (sharedScale a b)
  have hunaligned : (a.unscaled = 0 ∨ fitsSigned 128 (a.unscaledAt (sharedScale a b)) = false) ∨
      (b.unscaled = 0 ∨ fitsSigned 128 (b.unscaledAt (sharedScale a b)) = false) →
      a.unscaled = 0 ∨ b.unscaled = 0 ∨ ¬Aligned a b := by
    rintro ((hzero | hfits) | (hzero | hfits))
    · exact .inl hzero
    · exact .inr (.inr fun haligned ↦ Bool.eq_false_iff.mp hfits haligned.1)
    · exact .inr (.inl hzero)
    · exact .inr (.inr fun haligned ↦ Bool.eq_false_iff.mp hfits haligned.2)
  have hshared : max a.scale.toNat b.scale.toNat = sharedScale a b := rfl
  unfold Decimal.compare
  simp only [hshared]
  rcases ha with ha | ⟨ha, ha'⟩ <;> rcases hb with hb | ⟨hb, hb'⟩
  all_goals rw [ha, hb]
  · exact .inl rfl
  · exact .inr ⟨rfl, hunaligned (.inr hb')⟩
  · exact .inr ⟨rfl, hunaligned (.inl ha')⟩
  · exact .inr ⟨rfl, hunaligned (.inl ha')⟩

theorem exact_of_shared (h : a.compare b =
      Ord.compare (a.unscaledAt (sharedScale a b)) (b.unscaledAt (sharedScale a b))) :
    Exact a b := by
  have hpow : (0 : ℚ) < 10 ^ sharedScale a b := by positivity
  have ha : a.value = a.unscaledAt (sharedScale a b) / 10 ^ sharedScale a b :=
    value_eq_unscaledAt (Nat.le_max_left ..)
  have hb : b.value = b.unscaledAt (sharedScale a b) / 10 ^ sharedScale a b :=
    value_eq_unscaledAt (Nat.le_max_right ..)
  constructor
  · rw [h, ha, hb, div_lt_div_iff_of_pos_right hpow, Int.cast_lt]
    exact Std.compare_eq_lt
  · rw [h, ha, hb, div_left_inj' hpow.ne', Int.cast_inj]
    exact Std.compare_eq_iff_eq

theorem value_eq_zero {d : Decimal} : d.value = 0 ↔ d.unscaled = 0 := by
  have hpow : (10 : ℚ) ^ d.scale.toNat ≠ 0 := by positivity
  rw [value, div_eq_zero_iff, or_iff_left hpow, Int.cast_eq_zero]

/-- Values that are not close have doubles in the same order. -/
theorem toDouble_lt (hlt : a.value < b.value)
    (hfar : blur * (|a.value| + |b.value|) ≤ |a.value - b.value|) :
    a.toDouble.order < b.toDouble.order := by
  apply order_lt_of_value_lt
  have ha := (abs_le.mp (toDouble_within a)).2
  have hb := (abs_le.mp (toDouble_within b)).1
  have hpos : 0 < |a.value| + |b.value| := by
    rcases eq_or_ne a.value 0 with hzero | hne
    · rw [hzero, abs_zero, zero_add]
      exact abs_pos.mpr (hzero ▸ hlt).ne'
    · exact add_pos_of_pos_of_nonneg (abs_pos.mpr hne) (abs_nonneg _)
  have hunit : 15 * ulp * (|a.value| + |b.value|) < blur * (|a.value| + |b.value|) := by
    apply mul_lt_mul_of_pos_right _ hpos
    norm_num [ulp, blur, hiddenBit]
  rw [abs_sub_comm, abs_of_pos (sub_pos.mpr hlt)] at hfar
  linarith

theorem not_close_of_zero (h : a.unscaled = 0 ∨ b.unscaled = 0) :
    blur * (|a.value| + |b.value|) ≤ |a.value - b.value| := by
  have hblur : blur ≤ 1 := by norm_num [blur, hiddenBit]
  rcases h with h | h
  · rw [value_of_zero h, abs_zero, zero_add, zero_sub, abs_neg]
    exact mul_le_of_le_one_left (abs_nonneg _) hblur
  · rw [value_of_zero h, abs_zero, add_zero, sub_zero]
    exact mul_le_of_le_one_left (abs_nonneg _) hblur

theorem exact_of_not_blurred (h : ¬Blurred a b) : Exact a b := by
  rcases compare_cases a b with hshared | ⟨hdouble, hcases⟩
  · exact exact_of_shared hshared
  · have hfar : blur * (|a.value| + |b.value|) ≤ |a.value - b.value| := by
      rcases hcases with hzero | hzero | hunaligned
      · exact not_close_of_zero (.inl hzero)
      · exact not_close_of_zero (.inr hzero)
      · exact le_of_not_gt fun hclose ↦ h ⟨hunaligned, hclose⟩
    apply exact_of_cases
    · intro hlt
      rw [hdouble]
      exact Std.compare_eq_lt.mpr (toDouble_lt hlt hfar)
    · intro heq
      rw [heq, sub_self, abs_zero] at hfar
      have hzero : b.value = 0 := by
        have hblur : 0 < blur := by norm_num [blur, hiddenBit]
        have := nonpos_of_mul_nonpos_right hfar hblur
        have hb := abs_nonneg b.value
        exact abs_eq_zero.mp (by linarith)
      rw [hdouble, toDouble_of_zero (value_eq_zero.mp hzero),
        toDouble_of_zero (value_eq_zero.mp (heq.trans hzero))]
      rfl
    · intro hgt
      rw [hdouble]
      rw [add_comm, abs_sub_comm] at hfar
      exact Std.compare_eq_gt.mpr (toDouble_lt hgt hfar)

theorem unscaledAt_self (d : Decimal) : d.unscaledAt d.scale.toNat = d.unscaled := by
  rw [unscaledAt, Nat.sub_self, pow_zero, mul_one]

theorem not_blurred_self (d : Decimal) : ¬Blurred d d := by
  intro h
  apply h.unaligned
  unfold Aligned sharedScale
  rw [max_self, unscaledAt_self]
  exact ⟨d.fits, d.fits⟩

theorem Blurred.symm (h : Blurred a b) : Blurred b a := by
  obtain ⟨hunaligned, hclose⟩ := h
  constructor
  · unfold Aligned sharedScale at *
    rw [max_comm]
    exact fun h ↦ hunaligned h.symm
  · rw [abs_sub_comm, add_comm]
    exact hclose

theorem not_blurred_of_short (ha : Short a) (hb : Short b) : ¬Blurred a b := by
  intro h
  wlog hle : a.scale.toNat ≤ b.scale.toNat generalizing a b with hsymm
  · exact hsymm hb ha h.symm (Nat.le_of_not_le hle)
  obtain ⟨hunaligned, hclose⟩ := h
  have hshared : sharedScale a b = b.scale.toNat := max_eq_right hle
  have hsame := unscaledAt_self b
  have hpow : (0 : ℚ) < 10 ^ b.scale.toNat := by positivity
  have hlarge : 170141183460469231731687303715884105728 ≤ (a.unscaledAt b.scale.toNat).natAbs := by
    have hfits : ¬fitsSigned 128 (a.unscaledAt b.scale.toNat) = true := by
      intro hfits
      apply hunaligned
      unfold Aligned
      rw [hshared, hsame]
      exact ⟨hfits, b.fits⟩
    rw [fitsSigned_iff] at hfits
    omega
  have hlarge' : (170141183460469231731687303715884105728 : ℚ) ≤
      |(a.unscaledAt b.scale.toNat : ℚ)| := by
    rw [← Int.cast_abs, ← Nat.cast_natAbs]
    exact_mod_cast hlarge
  have hsmall : |(b.unscaled : ℚ)| < 100000000000000000000000000000000000000 := by
    rw [← Int.cast_abs, ← Nat.cast_natAbs]
    exact_mod_cast hb
  rw [value_eq_unscaledAt hle, value_eq_unscaledAt (Nat.le_refl b.scale.toNat), hsame, ← sub_div,
    abs_div, abs_div, abs_div, abs_of_pos hpow, ← add_div, ← mul_div_assoc,
    div_lt_div_iff_of_pos_right hpow] at hclose
  have hapart := abs_sub_abs_le_abs_sub (a.unscaledAt b.scale.toNat : ℚ) b.unscaled
  have hblur : blur * (|(a.unscaledAt b.scale.toNat : ℚ)| + |(b.unscaled : ℚ)|) ≤
      1 / 100 * (|(a.unscaledAt b.scale.toNat : ℚ)| + |(b.unscaled : ℚ)|) := by
    apply mul_le_mul_of_nonneg_right _ (by positivity)
    norm_num [blur, hiddenBit]
  linarith

end Decimal

/-- The order of patterns: a minus sign comes first, and among patterns with one the larger
magnitude. -/
def Double.Precedes (x y : Double) : Prop :=
  (x.isNegative = true ∧ y.isNegative = false) ∨
    (x.isNegative = false ∧ y.isNegative = false ∧ x.magnitude < y.magnitude) ∨
    (x.isNegative = true ∧ y.isNegative = true ∧ y.magnitude < x.magnitude)

theorem Double.order_lt_iff {x y : Double} : x.order < y.order ↔ x.Precedes y := by
  unfold Double.order Double.Precedes
  cases x.isNegative <;> cases y.isNegative
  all_goals simp
  all_goals omega

namespace Literal

theorem orderedOn_of_exact {P : Literal → Prop}
    (h : ∀ a b, P (.decimal a) → P (.decimal b) → a.Exact b) : OrderedOn P := by
  apply orderedOn_of_decimals
  intro x y z hx hy hz hxy hyz
  apply (h x z hx hz).isLE_iff.mpr
  exact le_trans ((h x y hx hy).isLE_iff.mp hxy) ((h y z hy hz).isLE_iff.mp hyz)

/-- Literals are in total order, decimals by value, if none of the decimals blur each other, which
decimals with at most 38 digits never do. Doubles are in the order of their patterns. -/
theorem compare_exact_unless_blurred {P : Literal → Prop}
    (hP : ∀ a b, P (.decimal a) → P (.decimal b) → ¬a.Blurred b) :
    OrderedOn P ∧ (∀ a b, P (.decimal a) → P (.decimal b) → a.Exact b) ∧
      OrderedOn (fun v ↦ ∀ d, v = .decimal d → d.Short) ∧
      (∀ a b : Decimal, a.Short → b.Short → a.Exact b) ∧
      (∀ v w : Literal, v.compare v = .eq ∧ v.compare w = (w.compare v).swap) ∧
      ∀ x y : Double, ((double x).compare (double y) = .lt ↔ x.Precedes y) ∧
        ((double x).compare (double y) = .eq ↔ x = y) := by
  have hexact : ∀ a b, P (.decimal a) → P (.decimal b) → a.Exact b :=
    fun a b ha hb ↦ Decimal.exact_of_not_blurred (hP a b ha hb)
  have hshort : ∀ a b : Decimal, a.Short → b.Short → a.Exact b :=
    fun a b ha hb ↦ Decimal.exact_of_not_blurred (Decimal.not_blurred_of_short ha hb)
  refine ⟨orderedOn_of_exact hexact, hexact, ?_, hshort, ?_, ?_⟩
  · apply orderedOn_of_exact
    intro a b ha hb
    exact hshort a b (ha a rfl) (hb b rfl)
  · intro v w
    exact ⟨Std.ReflCmp.compare_self, compare_swap v w⟩
  · intro x y
    constructor
    · rw [← Double.order_lt_iff]
      exact Std.compare_eq_lt
    · constructor
      · intro heq
        exact Double.order_injective (Std.compare_eq_iff_eq.mp heq)
      · rintro rfl
        exact Std.ReflCmp.compare_self

/-- The largest decimal of scale 0 is out of range at scale 1, but far from a tenth. -/
theorem compare_exact_largest :
    let largest : Decimal := ⟨170141183460469231731687303715884105727, 0, by decide⟩
    let tenth : Decimal := ⟨1, 1, by decide⟩
    let P : Literal → Prop := fun v ↦ v = .null ∨ v = .decimal largest ∨ v = .decimal tenth
    ¬largest.Aligned tenth ∧ OrderedOn P ∧ largest.Exact tenth := by
  intro largest tenth P
  have hfar : ¬largest.Blurred tenth := by
    rintro ⟨-, hclose⟩
    have hlargest : largest.value = 170141183460469231731687303715884105727 := div_one _
    have htenth : tenth.value = 1 / 10 := by
      have hscale : UInt8.toNat 1 = 1 := rfl
      norm_num [tenth, Decimal.value, hscale]
    rw [hlargest, htenth] at hclose
    norm_num [Decimal.blur, Double.hiddenBit, abs_of_pos] at hclose
  have hP : ∀ a b, P (.decimal a) → P (.decimal b) → ¬a.Blurred b := by
    rintro a b (h | ha | ha) (h' | hb | hb)
    all_goals try contradiction
    all_goals cases ha; cases hb
    · exact Decimal.not_blurred_self _
    · exact hfar
    · exact fun h ↦ hfar h.symm
    · exact Decimal.not_blurred_self _
  obtain ⟨hordered, hexact, -⟩ := compare_exact_unless_blurred hP
  exact ⟨by unfold Decimal.Aligned; decide, hordered,
    hexact _ _ (.inr (.inl rfl)) (.inr (.inr rfl))⟩

/-- Just above a tenth of the largest number there are decimals that compare equal to it and not to
each other. -/
theorem not_orderedOn_all :
    let below : Decimal := ⟨17014118346046923173168730371588410573, 0, by decide⟩
    let above : Decimal := ⟨17014118346046923173168730371588410574, 0, by decide⟩
    let limit : Decimal := ⟨170141183460469231731687303715884105727, 1, by decide⟩
    below.compare limit = .eq ∧ limit.compare above = .eq ∧ below.compare above = .lt ∧
      limit.value < below.value ∧ ¬OrderedOn fun _ ↦ True := by
  intro below above limit
  have heq : below.compare limit = .eq := by decide +kernel
  have heq' : limit.compare above = .eq := by decide +kernel
  have hlt : below.compare above = .lt := by decide +kernel
  refine ⟨heq, heq', hlt, ?_, ?_⟩
  · have hbelow : below.value = 17014118346046923173168730371588410573 := div_one _
    have hlimit : limit.value = 170141183460469231731687303715884105727 / 10 := by
      have hscale : UInt8.toNat 1 = 1 := rfl
      norm_num [limit, Decimal.value, hscale]
    rw [hbelow, hlimit]
    norm_num
  · intro h
    have hsame := h.congr_left (a := .decimal below) (b := .decimal limit) (c := .decimal above)
      trivial trivial trivial heq
    have : Ordering.lt = Ordering.eq := hlt.symm.trans (hsame.trans heq')
    cases this

end Literal

end QueryPlanning
