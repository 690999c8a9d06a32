import QueryPlanning.Proofs.Catalog.DecimalOrder

/-!
# Decimals at another scale

Moving a decimal to another scale multiplies or divides its number by a power of ten. What comes out
has the same value, and nothing comes out only where no number in range has it, with one exception:
the power of ten has to be in range as well. Multiples of a power that is not are out of range
themselves, except for zero. So zero is refused at scales too far from its own, although it is a
number in range at every scale.
-/

namespace QueryPlanning

open Number

namespace Decimal

variable {d e : Decimal} {scale : UInt8}

theorem power?_eq_some_iff {k : Nat} {n : Int} : power? k = some n ↔ k ≤ 38 ∧ n = 10 ^ k := by
  have hpower : power? k = if fitsSigned 128 (10 ^ k) then some (10 ^ k) else none := rfl
  rw [hpower, Option.ite_none_right_eq_some, fits_power_iff]
  exact and_congr_right' (Option.some_inj.trans eq_comm)

theorem ofInt?_eq_some_iff {n : Int} :
    ofInt? n scale = some e ↔ e.unscaled = n ∧ e.scale = scale := by
  constructor
  · exact unscaled_of_ofInt?
  · rintro ⟨rfl, rfl⟩
    exact ofInt?_unscaled e

theorem rescale?_up (h : d.scale ≤ scale) : d.rescale? scale = some e ↔
    scale.toNat - d.scale.toNat ≤ 38 ∧
      e.unscaled = d.unscaled * 10 ^ (scale.toNat - d.scale.toNat) ∧ e.scale = scale := by
  rw [rescale?, if_pos h]
  simp only [Option.bind_eq_bind, Option.bind_eq_some_iff, power?_eq_some_iff, ofInt?_eq_some_iff]
  constructor
  · rintro ⟨_, ⟨hk, rfl⟩, he⟩
    exact ⟨hk, he⟩
  · rintro ⟨hk, he⟩
    exact ⟨_, ⟨hk, rfl⟩, he⟩

theorem rescale?_down (h : ¬d.scale ≤ scale) : d.rescale? scale = some e ↔
    d.scale.toNat - scale.toNat ≤ 38 ∧
      d.unscaled = e.unscaled * 10 ^ (d.scale.toNat - scale.toNat) ∧ e.scale = scale := by
  have hpow : (10 : Int) ^ (d.scale.toNat - scale.toNat) ≠ 0 := by positivity
  rw [rescale?, if_neg h]
  simp only [Option.bind_eq_bind, Option.bind_eq_some_iff, power?_eq_some_iff,
    Option.ite_none_right_eq_some, ofInt?_eq_some_iff]
  constructor
  · rintro ⟨_, ⟨hk, rfl⟩, hmod, he, hscale⟩
    have hmul := Int.tdiv_mul_cancel (Int.dvd_of_tmod_eq_zero hmod)
    exact ⟨hk, by rw [he, hmul], hscale⟩
  · rintro ⟨hk, he, hscale⟩
    refine ⟨_, ⟨hk, rfl⟩, ?_, ?_, hscale⟩
    · rw [he]
      exact Int.mul_tmod_left ..
    · rw [he]
      exact (Int.mul_tdiv_cancel _ hpow).symm

/-- Scales with a power of ten in range between them. -/
def Near (a b : UInt8) : Prop := a.toNat ≤ b.toNat + 38 ∧ b.toNat ≤ a.toNat + 38

instance (a b : UInt8) : Decidable (Near a b) := inferInstanceAs (Decidable (_ ∧ _))

theorem Near.symm {a b : UInt8} (h : Near a b) : Near b a := ⟨h.2, h.1⟩

/-- Numbers at two scales agree if the larger scale has the power of ten between them more. -/
theorem mul_power_eq_iff {m n : Int} {a b : Nat} (h : a ≤ b) :
    m * 10 ^ a = n * 10 ^ b ↔ m = n * 10 ^ (b - a) := by
  have hpow : (10 : Int) ^ a ≠ 0 := by positivity
  have hsplit : (10 : Int) ^ b = 10 ^ (b - a) * 10 ^ a := by
    rw [← pow_add, Nat.sub_add_cancel h]
  rw [hsplit, ← mul_assoc]
  exact mul_left_inj' hpow

theorem div_power_eq_iff {m n : Int} {a b : Nat} :
    (m : ℚ) / 10 ^ a = n / 10 ^ b ↔ m * 10 ^ b = n * 10 ^ a := by
  have ha : (10 : ℚ) ^ a ≠ 0 := by positivity
  have hb : (10 : ℚ) ^ b ≠ 0 := by positivity
  rw [div_eq_div_iff ha hb]
  exact_mod_cast Iff.rfl

theorem value_eq_iff :
    e.value = d.value ↔ e.unscaled * 10 ^ d.scale.toNat = d.unscaled * 10 ^ e.scale.toNat :=
  div_power_eq_iff

theorem le_of_fits_mul {n : Int} {k : Nat} (hne : n ≠ 0)
    (h : fitsSigned 128 (n * 10 ^ k) = true) : k ≤ 38 := by
  rw [← fits_power_iff]
  by_contra hpower
  exact Bool.eq_false_iff.mp (not_fits_mul hne (Bool.eq_false_iff.mpr hpower)) h

/-- Whatever has the value at the scale is what comes out, unless zero is too far away. -/
theorem rescale?_eq_some_iff : d.rescale? scale = some e ↔
    e.scale = scale ∧ e.unscaled * 10 ^ d.scale.toNat = d.unscaled * 10 ^ scale.toNat ∧
      (d.unscaled = 0 → Near d.scale scale) := by
  by_cases h : d.scale ≤ scale
  · have hle : d.scale.toNat ≤ scale.toNat := UInt8.le_iff_toNat_le.mp h
    rw [rescale?_up h, mul_power_eq_iff hle]
    constructor
    · rintro ⟨hk, he, hscale⟩
      exact ⟨hscale, he, fun _ ↦ ⟨by omega, by omega⟩⟩
    · rintro ⟨hscale, he, hnear⟩
      refine ⟨?_, he, hscale⟩
      by_cases hzero : d.unscaled = 0
      · have := (hnear hzero).2
        omega
      · exact le_of_fits_mul hzero (he ▸ e.fits)
  · have hle : scale.toNat ≤ d.scale.toNat :=
      UInt8.le_iff_toNat_le.mp (UInt8.le_of_lt (UInt8.not_le.mp h))
    rw [rescale?_down h, eq_comm (a := e.unscaled * _), mul_power_eq_iff hle]
    constructor
    · rintro ⟨hk, he, hscale⟩
      exact ⟨hscale, he, fun _ ↦ ⟨by omega, by omega⟩⟩
    · rintro ⟨hscale, he, hnear⟩
      refine ⟨?_, he, hscale⟩
      by_cases hzero : d.unscaled = 0
      · have := (hnear hzero).1
        omega
      · have hne : e.unscaled ≠ 0 := by
          intro he0
          rw [he0, zero_mul] at he
          exact hzero he
        exact le_of_fits_mul hne (he ▸ d.fits)

theorem value_of_rescale? (h : d.rescale? scale = some e) : e.value = d.value := by
  obtain ⟨rfl, hcross, -⟩ := rescale?_eq_some_iff.mp h
  exact value_eq_iff.mpr hcross

theorem unscaled_eq_zero_of_value (h : e.value = d.value) : e.unscaled = 0 ↔ d.unscaled = 0 := by
  rw [← value_eq_zero, h, value_eq_zero]

/-- What has the value of another decimal is that decimal at its own scale. -/
theorem rescale?_of_value (h : e.value = d.value) (hnear : d.unscaled = 0 → Near d.scale e.scale) :
    d.rescale? e.scale = some e :=
  rescale?_eq_some_iff.mpr ⟨rfl, value_eq_iff.mp h, hnear⟩

theorem rescale?_back (h : d.rescale? scale = some e) : e.rescale? d.scale = some d := by
  have hvalue := value_of_rescale? h
  obtain ⟨rfl, -, hnear⟩ := rescale?_eq_some_iff.mp h
  apply rescale?_of_value hvalue.symm
  intro hzero
  exact (hnear ((unscaled_eq_zero_of_value hvalue).mp hzero)).symm

theorem rescale?_trans {f : Decimal} {scale' : UInt8} (h : d.rescale? scale = some e)
    (h' : e.rescale? scale' = some f) (hnear : d.unscaled = 0 → Near d.scale scale') :
    d.rescale? scale' = some f := by
  have hvalue : f.value = d.value := (value_of_rescale? h').trans (value_of_rescale? h)
  obtain ⟨rfl, -, -⟩ := rescale?_eq_some_iff.mp h'
  exact rescale?_of_value hvalue hnear

theorem rescale?_scale (d : Decimal) : d.rescale? d.scale = some d :=
  rescale?_of_value rfl fun _ ↦ ⟨by omega, by omega⟩

end Decimal

namespace Literal

open Decimal

variable {d : Decimal} {scale : UInt8} {v w : Literal}

theorem rescale?_decimal : (decimal d).rescale? scale = some v ↔
    ∃ e, d.rescale? scale = some e ∧ v = .decimal e := by
  rw [rescale?, Option.map_eq_some_iff]
  exact exists_congr fun e ↦ and_congr_right' eq_comm

/-- A decimal can be moved to a scale if and only if a number in range has its value there and, for
zero, the scale is near. What comes out has that number and so the same value, it can be moved back,
and moving it on comes to the same as moving the first one there. -/
theorem rescale?_exact (d : Decimal) (scale : UInt8) :
    (((decimal d).rescale? scale).isSome = true ↔
        (∃ n, fitsSigned 128 n = true ∧
          n * 10 ^ d.scale.toNat = d.unscaled * 10 ^ scale.toNat) ∧
        (d.unscaled = 0 → Near d.scale scale)) ∧
      ∀ v, (decimal d).rescale? scale = some v → ∃ e, v = .decimal e ∧ e.scale = scale ∧
        e.unscaled * 10 ^ d.scale.toNat = d.unscaled * 10 ^ scale.toNat ∧ e.value = d.value ∧
        v.rescale? d.scale = some (.decimal d) ∧
        ∀ scale' w, v.rescale? scale' = some w → (d.unscaled = 0 → Near d.scale scale') →
          (decimal d).rescale? scale' = some w := by
  refine ⟨?_, fun v hv ↦ ?_⟩
  · constructor
    · intro h
      obtain ⟨v, hv⟩ := Option.isSome_iff_exists.mp h
      obtain ⟨e, he, -⟩ := rescale?_decimal.mp hv
      obtain ⟨-, hcross, hnear⟩ := rescale?_eq_some_iff.mp he
      exact ⟨⟨e.unscaled, e.fits, hcross⟩, hnear⟩
    · rintro ⟨⟨n, hfits, hcross⟩, hnear⟩
      have he : d.rescale? scale = some ⟨n, scale, hfits⟩ :=
        rescale?_eq_some_iff.mpr ⟨rfl, hcross, hnear⟩
      exact Option.isSome_iff_exists.mpr ⟨_, rescale?_decimal.mpr ⟨_, he, rfl⟩⟩
  · obtain ⟨e, he, rfl⟩ := rescale?_decimal.mp hv
    obtain ⟨hscale, hcross, -⟩ := rescale?_eq_some_iff.mp he
    refine ⟨e, rfl, hscale, hcross, value_of_rescale? he,
      rescale?_decimal.mpr ⟨d, rescale?_back he, rfl⟩, ?_⟩
    intro scale' w hw hnear
    obtain ⟨f, hf, rfl⟩ := rescale?_decimal.mp hw
    exact rescale?_decimal.mpr ⟨f, rescale?_trans he hf hnear, rfl⟩

/-- Two zeros are taken off a number close to the lower bound, one by one or together. -/
theorem rescale?_exact_bound :
    let long : Decimal := ⟨-170141183460469231731687303715884105700, 255, by decide⟩
    let middle : Decimal := ⟨-17014118346046923173168730371588410570, 254, by decide⟩
    let short : Decimal := ⟨-1701411834604692317316873037158841057, 253, by decide⟩
    (decimal long).rescale? 254 = some (.decimal middle) ∧
      (decimal middle).rescale? 255 = some (.decimal long) ∧
      (decimal middle).rescale? 253 = some (.decimal short) ∧
      (decimal long).rescale? 253 = some (.decimal short) := by
  intro long middle short
  have hmiddle : (decimal long).rescale? 254 = some (.decimal middle) := by decide +kernel
  have hshort : (decimal middle).rescale? 253 = some (.decimal short) := by decide +kernel
  obtain ⟨-, hall⟩ := rescale?_exact long 254
  obtain ⟨_, -, -, -, -, hback, hon⟩ := hall _ hmiddle
  exact ⟨hmiddle, hback, hshort, hon 253 _ hshort fun hzero ↦ absurd hzero (by decide)⟩

/-- Zero has a number at every scale, but it is not moved by more than 38 digits at once. -/
theorem exists_rescale?_refuses :
    let zero : Decimal := ⟨0, 0, by decide⟩
    (∃ n, fitsSigned 128 n = true ∧
        n * 10 ^ zero.scale.toNat = zero.unscaled * 10 ^ UInt8.toNat 39) ∧
      (decimal zero).rescale? 39 = none ∧
      ∃ v w, (decimal zero).rescale? 38 = some v ∧ v.rescale? 39 = some w := by
  intro zero
  refine ⟨⟨0, by decide, ?_⟩, by decide +kernel, .decimal ⟨0, 38, by decide⟩,
    .decimal ⟨0, 39, by decide⟩, by decide +kernel, by decide +kernel⟩
  rw [zero_mul]
  exact (zero_mul _).symm

end Literal

end QueryPlanning
