import QueryPlanning.Proofs.Number.FloatArithmetic
import QueryPlanning.Scan.Memory

/-!
# Bounds of the memory of a scan

The estimate is a product of three factors with bounds of their own: threads are limited by the
cores, buffers by what a thread keeps in flight, and a buffer has a fixed size. So the product fits
a word of 64 bits with room to spare, although it can exceed what all scans together may take, and
is then cut off. The steps of the estimate are repeated here on checked words, which shows that
none of them leaves the range.
-/

namespace QueryPlanning

namespace Number

variable {a b n : Int}

theorem fits_iff : fitsSigned 64 n = true ↔ minInt64 ≤ n ∧ n ≤ maxInt64 := by
  rw [fitsSigned, Bool.and_eq_true, decide_eq_true_iff, decide_eq_true_iff]
  change minInt64 ≤ n ∧ n < maxInt64 + 1 ↔ _
  rw [Int.lt_add_one_iff]

/-- A result of arithmetic on signed words of 64 bits, unless it is out of their range. -/
def checked (n : Int) : Option Int :=
  if fitsSigned 64 n then some n else none

theorem checked_eq_some (hlow : minInt64 ≤ n) (hhigh : n ≤ maxInt64) : checked n = some n :=
  if_pos (fits_iff.mpr ⟨hlow, hhigh⟩)

theorem checked_bind {f : Int → Option Int} (hlow : minInt64 ≤ n) (hhigh : n ≤ maxInt64) :
    (checked n >>= f) = f n := by
  rw [checked_eq_some hlow hhigh]
  rfl

theorem minInt64_le (h : 0 ≤ n) : minInt64 ≤ n := Int.le_trans (by decide) h

theorem le_of_fits (h : fitsSigned 32 n = true) : n ≤ 0x7FFFFFFF := by
  rw [fitsSigned, Bool.and_eq_true, decide_eq_true_iff, decide_eq_true_iff] at h
  exact Int.le_of_lt_add_one h.2

/-- The ceiling of a quotient in words. -/
def divCeil? (a b : Int) : Option Int :=
  if b ≤ 0 then some a
  else do
    let sum ← checked (a + b)
    let raised ← checked (sum - 1)
    checked (raised.tdiv b)

theorem divCeil_nonneg (ha : 0 ≤ a) : 0 ≤ divCeil a b := by
  unfold divCeil
  split
  · exact ha
  · exact Int.tdiv_nonneg (by omega) (by omega)

/-- A ceiling is not more than the dividend. -/
theorem divCeil_le (ha : 0 ≤ a) : divCeil a b ≤ a := by
  unfold divCeil
  split
  · exact Int.le_refl a
  · have hle : a * 1 ≤ a * b := Int.mul_le_mul_of_nonneg_left (by omega) ha
    rw [Int.tdiv_eq_ediv_of_nonneg (by omega)]
    apply Int.le_of_lt_add_one
    apply Int.ediv_lt_of_lt_mul (by omega)
    rw [Int.add_mul]
    omega

theorem divCeil_mono (h : a ≤ n) : divCeil a b ≤ divCeil n b := by
  unfold divCeil
  split
  · exact h
  · exact Int.tdiv_le_tdiv (by omega) (by omega)

theorem divCeil?_eq_some (ha : 0 ≤ a) (hsum : a + b ≤ maxInt64) :
    divCeil? a b = some (divCeil a b) := by
  have hnonneg : 0 ≤ divCeil a b := divCeil_nonneg ha
  have hle : divCeil a b ≤ a := divCeil_le ha
  unfold divCeil? divCeil at *
  split
  · rfl
  · rename_i hb
    rw [if_neg hb] at hnonneg hle
    rw [checked_bind (minInt64_le (by omega)) hsum,
      checked_bind (minInt64_le (by omega)) (by omega)]
    exact checked_eq_some (minInt64_le hnonneg) (by omega)

end Number

namespace ScanMemory

open Number

variable {o : Options} {l : Load}

theorem normal_skew : Double.Normal skew .positive 0x13333333333333 (-52) :=
  ⟨by decide, by decide, by decide, by decide, by decide +kernel⟩

/-- Words are far from the ends of the range of floats, so the division stays among positive
normal numbers. -/
theorem rangesPerHost_nonneg {ranges : Nat} {nodes : Int} (hpos : 0 < ranges)
    (hranges : ranges ≤ maxInt64) (hnodes : nodes ≤ maxInt64) :
    0 ≤ rangesPerHost ranges nodes := by
  obtain ⟨k, hk⟩ : ∃ k : Nat, max nodes 1 = k := ⟨(max nodes 1).toNat, by omega⟩
  have hkpos : 0 < k := by omega
  have hlog {n : Nat} (hn : 0 < n) (hle : (n : Int) ≤ maxInt64) : n.log2 < 63 :=
    (Nat.log2_lt hn.ne').mpr (by simp only [maxInt64] at hle; omega)
  have hlog₁ : ranges.log2 < 63 := hlog hpos hranges
  have hlog₂ : k.log2 < 63 := hlog hkpos (by simp only [maxInt64] at *; omega)
  obtain ⟨m₁, e₁, hnormal₁, herror₁⟩ := Double.Normal.ofNat hpos (by omega)
  obtain ⟨m₂, e₂, hnormal₂, herror₂⟩ := Double.Normal.ofNat hkpos (by omega)
  have hε : Double.ulp + Double.ulp + Double.ulp * Double.ulp ≤ 1 / 2 := by
    norm_num [Double.ulp, Double.hiddenBit]
  have hexp₁ := hnormal₁.exponent_of_within herror₁ hε hpos
  have hexp₂ := hnormal₂.exponent_of_within herror₂ hε hkpos
  obtain ⟨m, e, hquotient, herror⟩ := hnormal₁.div hnormal₂ (by omega) (by omega)
  have hexp := hnormal₁.exponent_of_div hnormal₂ hquotient herror hε
  obtain ⟨_, _, hproduct, -⟩ := hquotient.mul normal_skew (by omega) (by omega)
  have hsign : (Double.ofFloat (ranges.toFloat / Float.ofInt k * skew)).isNegative = false :=
    hproduct.isNegative_eq_false
  unfold rangesPerHost
  rw [hk]
  apply clampInt64_nonneg
  simp only [Double.ceil, hsign]
  exact Int.natCast_nonneg _

def upperBound? (cores : Int) : Option Int := do
  let threads ← checked (max cores 1 * threadsPerCore)
  let buffers ← checked (threads * buffersPerThread)
  checked (buffers * bufferSize)

def threads? (o : Options) (l : Load) : Option Int := do
  let wanted ← checked (if l.byColumn then l.columns else rangesPerHost l.ranges l.nodes)
  let most ← checked (max o.cores 1 * threadsPerCore)
  let limited := min wanted most
  return if 0 < o.scannerThreads then min limited o.scannerThreads else limited

def buffers? (l : Load) : Option Int := do
  let ranges ← checked l.ranges
  let average ← divCeil? l.bytes ranges
  let filled ← divCeil? average bufferSize
  checked (min filled buffersPerThread + 1)

/-- The estimate, with every number on the way in a word of 64 bits. -/
def estimate? (o : Options) (l : Load) : Option Int :=
  if l.ranges = 0 then some 0
  else do
    let threads ← threads? o l
    let buffers ← buffers? l
    let held ← checked (threads * buffers)
    let cost ← checked (held * bufferSize)
    let most ← upperBound? o.cores
    return min cost most

/-- What is to be read can be counted in words: the bytes leave room for the number of the ranges
and for the size of a buffer. -/
structure Load.Fits (l : Load) : Prop where
  columns : l.columns ≤ maxInt64
  bytes_nonneg : 0 ≤ l.bytes
  bytes : l.bytes ≤ maxInt64 - max (l.ranges : Int) bufferSize
  nodes : fitsSigned 32 l.nodes = true

theorem Load.Fits.ranges (hl : l.Fits) : (l.ranges : Int) ≤ maxInt64 := by
  have := hl.bytes_nonneg
  have := hl.bytes
  omega

theorem Load.Fits.wrapSigned_columns (hl : l.Fits) : wrapSigned 64 l.columns = l.columns := by
  apply wrapSigned_of_fits (by decide)
  exact fits_iff.mpr ⟨minInt64_le (Int.natCast_nonneg _), hl.columns⟩

theorem Load.Fits.rangesPerHost_nonneg (hl : l.Fits) (hpos : 0 < l.ranges) :
    0 ≤ rangesPerHost l.ranges l.nodes := by
  apply ScanMemory.rangesPerHost_nonneg hpos hl.ranges
  have := le_of_fits hl.nodes
  simp only [maxInt64]
  omega

/-- The threads that a scan can make use of. -/
theorem Load.Fits.wanted_mem (hl : l.Fits) (hpos : 0 < l.ranges) :
    0 ≤ (if l.byColumn then (l.columns : Int) else rangesPerHost l.ranges l.nodes) ∧
      (if l.byColumn then (l.columns : Int) else rangesPerHost l.ranges l.nodes) ≤ maxInt64 := by
  split
  · exact ⟨Int.natCast_nonneg _, hl.columns⟩
  · exact ⟨hl.rangesPerHost_nonneg hpos, clampInt64_le _⟩

/-- The cores limit the threads, whatever else does. -/
theorem threads_mem (hl : l.Fits) (hpos : 0 < l.ranges) :
    0 ≤ threads o l ∧ threads o l ≤ max o.cores 1 * threadsPerCore := by
  obtain ⟨hwanted, -⟩ := hl.wanted_mem hpos
  have hmost : 0 ≤ max o.cores 1 * threadsPerCore := Int.mul_nonneg (by omega) (by decide)
  unfold threads
  rw [hl.wrapSigned_columns]
  dsimp only
  split <;> omega

theorem threads?_eq_some (hl : l.Fits) (hpos : 0 < l.ranges)
    (hcores : fitsSigned 32 o.cores = true) : threads? o l = some (threads o l) := by
  obtain ⟨hwanted, hwanted'⟩ := hl.wanted_mem hpos
  have hmost : max o.cores 1 * threadsPerCore ≤ maxInt64 := by
    have := le_of_fits hcores
    simp only [threadsPerCore, maxInt64]
    omega
  unfold threads? threads
  rw [hl.wrapSigned_columns, checked_bind (minInt64_le hwanted) hwanted', checked_bind _ hmost]
  · rfl
  · exact minInt64_le (Int.mul_nonneg (by omega) (by decide))

theorem buffers_mem (hbytes : 0 ≤ l.bytes) : 1 ≤ buffers l ∧ buffers l ≤ buffersPerThread + 1 := by
  have : 0 ≤ divCeil (divCeil l.bytes l.ranges) bufferSize := divCeil_nonneg (divCeil_nonneg hbytes)
  simp only [buffers, buffersPerThread]
  omega

/-- More bytes never take fewer buffers. -/
theorem buffers_mono {bytes : Int} (h : l.bytes ≤ bytes) :
    buffers l ≤ buffers { l with bytes } := by
  have : divCeil (divCeil l.bytes l.ranges) bufferSize ≤
      divCeil (divCeil bytes l.ranges) bufferSize := divCeil_mono (divCeil_mono h)
  simp only [buffers]
  omega

theorem buffers?_eq_some (hl : l.Fits) : buffers? l = some (buffers l) := by
  have hnonneg := hl.bytes_nonneg
  have hbytes := hl.bytes
  have haverage : divCeil l.bytes l.ranges ≤ l.bytes := divCeil_le hnonneg
  obtain ⟨hlow, hhigh⟩ := buffers_mem hnonneg
  unfold buffers?
  rw [checked_bind (minInt64_le (Int.natCast_nonneg _)) hl.ranges,
    divCeil?_eq_some hnonneg (by omega), Option.bind_eq_bind, Option.bind_some,
    divCeil?_eq_some (divCeil_nonneg hnonneg) (by omega), Option.bind_some]
  exact checked_eq_some (minInt64_le (Int.le_of_lt hlow)) (Int.le_trans hhigh (by decide))

/-! ## The estimate -/

theorem upperBound_nonneg (cores : Int) : 0 ≤ upperBound cores := by
  simp only [upperBound, threadsPerCore, buffersPerThread, bufferSize]
  omega

theorem upperBound?_eq_some (hcores : fitsSigned 32 o.cores = true) :
    upperBound? o.cores = some (upperBound o.cores) := by
  have := le_of_fits hcores
  unfold upperBound? upperBound
  simp only [threadsPerCore, buffersPerThread, bufferSize]
  rw [checked_bind, checked_bind, checked_eq_some]
  all_goals simp only [minInt64, maxInt64]; omega

/-- Threads and buffers are few enough for their product. -/
theorem held_mem (hl : l.Fits) (hpos : 0 < l.ranges) (hcores : fitsSigned 32 o.cores = true) :
    0 ≤ threads o l * buffers l ∧ threads o l * buffers l ≤ 0x2000000000 := by
  obtain ⟨hthreads, hmost⟩ := threads_mem (o := o) hl hpos
  obtain ⟨hbuffers, hfull⟩ := buffers_mem hl.bytes_nonneg
  have hcores := le_of_fits hcores
  refine ⟨Int.mul_nonneg hthreads (by omega), ?_⟩
  calc threads o l * buffers l
      ≤ max o.cores 1 * threadsPerCore * (buffersPerThread + 1) :=
        Int.mul_le_mul hmost hfull (by omega) (Int.le_trans hthreads hmost)
    _ ≤ 0x7FFFFFFF * 3 * 11 := by
        simp only [threadsPerCore, buffersPerThread]
        omega
    _ ≤ 0x2000000000 := by decide

/-- No step of the estimate leaves the range of a word. -/
theorem estimate?_eq_some (hl : l.Fits) (hcores : fitsSigned 32 o.cores = true) :
    estimate? o l = some (estimate o l) := by
  unfold estimate? estimate
  by_cases hzero : l.ranges = 0
  · rw [if_pos hzero, if_pos hzero]
  · have hpos : 0 < l.ranges := Nat.pos_of_ne_zero hzero
    obtain ⟨hheld, hheld'⟩ := held_mem hl hpos hcores
    rw [if_neg hzero, if_neg hzero, threads?_eq_some hl hpos hcores, buffers?_eq_some hl,
      upperBound?_eq_some hcores, Option.bind_eq_bind, Option.bind_some, Option.bind_some,
      ← Option.bind_eq_bind, checked_bind (minInt64_le hheld), checked_bind]
    · rfl
    · exact minInt64_le (Int.mul_nonneg hheld (by decide))
    · simp only [bufferSize, maxInt64]
      omega
    · simp only [maxInt64]
      omega

theorem estimate_nonneg (hl : l.Fits) : 0 ≤ estimate o l := by
  unfold estimate
  split
  · exact Int.le_refl 0
  · rename_i hzero
    have hthreads : 0 ≤ threads o l := (threads_mem hl (Nat.pos_of_ne_zero hzero)).1
    have hbuffers : 1 ≤ buffers l := (buffers_mem hl.bytes_nonneg).1
    have hcost : 0 ≤ threads o l * buffers l * bufferSize :=
      Int.mul_nonneg (Int.mul_nonneg hthreads (by omega)) (by decide)
    exact Int.le_min.mpr ⟨hcost, upperBound_nonneg o.cores⟩

theorem estimate_le (o : Options) (l : Load) : estimate o l ≤ upperBound o.cores := by
  unfold estimate
  split
  · exact upperBound_nonneg o.cores
  · exact Int.min_le_right ..

theorem estimate_mono (hl : l.Fits) {bytes : Int} (h : l.bytes ≤ bytes) :
    estimate o l ≤ estimate o { l with bytes } := by
  unfold estimate
  by_cases hzero : l.ranges = 0
  · rw [if_pos hzero, if_pos hzero]
  · have hthreads : 0 ≤ threads o l := (threads_mem hl (Nat.pos_of_ne_zero hzero)).1
    have hheld : threads o l * buffers l ≤ threads o l * buffers { l with bytes } :=
      Int.mul_le_mul_of_nonneg_left (buffers_mono h) hthreads
    have hcost : threads o l * buffers l * bufferSize ≤
        threads o l * buffers { l with bytes } * bufferSize :=
      Int.mul_le_mul_of_nonneg_right hheld (by decide)
    rw [if_neg hzero, if_neg hzero]
    change min _ _ ≤ min (threads o l * buffers { l with bytes } * bufferSize) _
    omega

/-- The estimate is made without an overflow. It is not negative and not more than the bound, it is
zero if there is nothing to read, and it does not decrease if there are more bytes. -/
theorem estimate_mem (hl : l.Fits) (hcores : fitsSigned 32 o.cores = true) :
    estimate? o l = some (estimate o l) ∧ 0 ≤ estimate o l ∧ estimate o l ≤ upperBound o.cores ∧
      (l.ranges = 0 → estimate o l = 0) ∧
      ∀ bytes, l.bytes ≤ bytes → estimate o l ≤ estimate o { l with bytes } :=
  ⟨estimate?_eq_some hl hcores, estimate_nonneg hl, estimate_le o l, fun h ↦ if_pos h,
    fun _ ↦ estimate_mono hl⟩

/-- Three ranges of text on two nodes. -/
def threeRanges : Load where
  ranges := 3
  bytes := 200 * 1024 * 1024
  columns := 4
  byColumn := false
  nodes := 2

/-- Two threads with ten buffers each; no larger files would take less. -/
theorem estimate_threeRanges :
    threeRanges.Fits ∧ estimate? { cores := 1 } threeRanges = some (2 * 10 * bufferSize) ∧
      2 * 10 * bufferSize ≤ upperBound 1 ∧
      ∀ bytes, threeRanges.bytes ≤ bytes →
        2 * 10 * bufferSize ≤ estimate { cores := 1 } { threeRanges with bytes } := by
  have hl : threeRanges.Fits := ⟨by decide, by decide, by decide, by decide⟩
  have hcores : fitsSigned 32 ({ cores := 1 } : Options).cores = true := by decide
  obtain ⟨hestimate, -, hbound, -, hmono⟩ := estimate_mem hl hcores
  have hvalue : estimate { cores := 1 } threeRanges = 2 * 10 * bufferSize := by decide +kernel
  rw [hvalue] at hestimate hbound hmono
  exact ⟨hl, hestimate, hbound, hmono⟩

end ScanMemory

end QueryPlanning
