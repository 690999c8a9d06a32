import QueryPlanning.Json.Basic
import QueryPlanning.Proofs.Number.FloatArithmetic

/-!
# What can be taken in as a whole

Every integer that fits into a word of 64 bits, with or without a sign, is in the range of the
doubles: all its digits go into the significand, and neither making this significand a double nor
scaling it by one leads to infinity. Arrays and objects are readable if all that they hold is.
-/

namespace QueryPlanning

open Number Double

namespace Numeral

theorem le_ofDigitChars (cs : List Char) (n : Nat) : n ≤ Nat.ofDigitChars 10 cs n := by
  rw [Nat.ofDigitChars_eq_ofDigitChars_zero]
  have hpow : 0 < 10 ^ cs.length := Nat.pow_pos (by decide)
  have hmul : n ≤ 10 ^ cs.length * n := Nat.le_mul_of_pos_left n hpow
  omega

/-- All digits are taken if the number that they make fits. -/
theorem takeDigits_of_fits {cs : List Char} {n : Nat}
    (h : Nat.ofDigitChars 10 cs n ≤ maxUInt64) :
    takeDigits n cs = (Nat.ofDigitChars 10 cs n, []) := by
  induction cs generalizing n with
  | nil => rw [takeDigits, Nat.ofDigitChars_nil]
  | cons c rest ih =>
    rw [Nat.ofDigitChars_cons] at h ⊢
    have hnext : 10 * n + (c.toNat - '0'.toNat) ≤ maxUInt64 := (le_ofDigitChars rest _).trans h
    rw [takeDigits, if_pos hnext, ih h]

theorem takeDigits_toString {n : Nat} (h : n ≤ maxUInt64) :
    takeDigits 0 (toString n).toList = (n, []) := by
  rw [Nat.toString_eq_ofList_toDigits, String.toList_ofList]
  rw [takeDigits_of_fits (by rwa [Nat.ofDigitChars_ten_toDigits]), Nat.ofDigitChars_ten_toDigits]

theorem not_isInf_mul_one {n : Nat} (hpos : 0 < n) (h : n ≤ maxUInt64) :
    (n.toUInt64.toFloat * Float.ofScientific 1 false 0).isInf = false := by
  have hsize : n < UInt64.size := Nat.lt_succ_of_le h
  have hlog : n.log2 < 64 := (Nat.log2_lt hpos.ne').mpr hsize
  obtain ⟨m, e, hn, hwithin⟩ := normal_toFloat hpos hsize
  obtain ⟨m', e', hone, hwithin'⟩ := Normal.ofNat Nat.one_pos (by decide)
  have he := hn.exponent_of_within hwithin (by norm_num [ulp, hiddenBit]) hpos
  have he' := hone.exponent_of_within hwithin' (by norm_num [ulp, hiddenBit]) Nat.one_pos
  have hlog' : Nat.log2 1 = 0 := rfl
  obtain ⟨_, _, hmul, -⟩ := hn.mul hone (by omega) (by omega)
  exact hmul.isInf_eq_false

theorem isSome_toDouble?_ofInt {n : Int} (h : n.natAbs ≤ maxUInt64) :
    (ofInt n).toDouble?.isSome = true := by
  unfold toDouble?
  simp only [ofInt, takeDigits_toString h, takeDigits]
  rcases Nat.eq_zero_or_pos n.natAbs with hzero | hpos
  · simp [hzero]
  · simp [hpos.ne', not_isInf_mul_one hpos h]

end Numeral

namespace Json

theorem isReadable_int {n : Int} (h : n.natAbs ≤ maxUInt64) : (int n).isReadable = true := by
  rw [int, isReadable, Numeral.isSome_toDouble?_ofInt h]

theorem itemsReadable_iff {items : List Json} :
    itemsReadable items = true ↔ ∀ j ∈ items, j.isReadable = true := by
  induction items with
  | nil => simp [itemsReadable]
  | cons item rest ih => simp [itemsReadable, ih]

end Json

end QueryPlanning
