/-!
# Machine words as integers

Counts, offsets and estimates are integers here; only where a number crosses a boundary does the
width of a machine word show. A reader takes a number if it is in the range of the word, a narrowing
wraps around, and two of the estimates stop at the largest word instead of growing on.
-/

namespace QueryPlanning.Number

-- The powers of the core library, whatever else is imported.
attribute [local instance (high)] instPowNat

/-- The range of a signed word of `bits` bits. -/
def fitsSigned (bits : Nat) (n : Int) : Bool :=
  -(2 ^ (bits - 1)) ≤ n && n < 2 ^ (bits - 1)

/-- The range of an unsigned word of `bits` bits. -/
def fitsUnsigned (bits : Nat) (n : Int) : Bool :=
  0 ≤ n && n < 2 ^ bits

/-- The signed word that agrees with `n` modulo `2 ^ bits`. -/
def wrapSigned (bits : Nat) (n : Int) : Int :=
  n.bmod (2 ^ bits)

theorem wrapSigned_of_fits {bits : Nat} {n : Int} (hbits : 0 < bits)
    (h : fitsSigned bits n = true) : wrapSigned bits n = n := by
  obtain ⟨k, rfl⟩ := Nat.exists_eq_succ_of_ne_zero (Nat.ne_of_gt hbits)
  simp only [fitsSigned, Nat.succ_sub_one, Bool.and_eq_true, decide_eq_true_eq] at h
  have hdouble : 2 ^ (k + 1) = 2 ^ k * 2 := Nat.pow_succ 2 k
  have hcast : ((2 ^ k : Nat) : Int) = 2 ^ k := Int.natCast_pow 2 k
  rw [wrapSigned, Int.bmod_eq_iff (Nat.two_pow_pos _), hdouble, Int.sub_self]
  refine ⟨?_, ?_, Int.dvd_zero _⟩ <;> omega

/-- The largest signed word of 64 bits. -/
def maxInt64 : Int := 0x7FFFFFFFFFFFFFFF

/-- The smallest signed word of 64 bits. -/
def minInt64 : Int := -0x8000000000000000

/-- The nearest signed word of 64 bits. -/
def clampInt64 (n : Int) : Int :=
  max minInt64 (min maxInt64 n)

theorem clampInt64_le (n : Int) : clampInt64 n ≤ maxInt64 := by
  simp only [clampInt64, minInt64, maxInt64]
  omega

theorem clampInt64_nonneg {n : Int} (h : 0 ≤ n) : 0 ≤ clampInt64 n := by
  simp only [clampInt64, minInt64, maxInt64]
  omega

/-- The largest unsigned word of 64 bits. -/
def maxUInt64 : Nat := 0xFFFFFFFFFFFFFFFF

/-- `a / b` rounded towards zero after adding `b - 1`: the ceiling of the quotient for natural `a`
and positive `b`. Without a positive divisor the dividend is returned. -/
def divCeil (a b : Int) : Int :=
  if b ≤ 0 then a else (a + b - 1).tdiv b

end QueryPlanning.Number
