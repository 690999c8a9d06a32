import QueryPlanning.Proofs.Catalog.IndexConsistency
import QueryPlanning.Proofs.Scan.IterationOrder
import QueryPlanning.Scan.Statistics

/-!
# Scan statistics as summaries

The statistics of a scan are collected one partition at a time, with a sum of rows that stops at the
largest word. As no count that is added is negative, stopping on the way is the same as stopping at
the end, so that the statistics are sums and counts over the list of partitions, whatever its order.
Over all partitions of a table the sums are the totals that the table keeps.
-/

namespace QueryPlanning

-- The sums of the core library, whatever else is imported.
attribute [local instance (high)] Zero.ofOfNat0

namespace ScanStatistics

open Number (maxInt64)

variable {t t₀ : Table} {s : ScanStatistics} {ps qs : List Partition}

/-- The numbers of rows of the partitions that know theirs. -/
def counts (ps : List Partition) : List Int := (ps.map (·.rows)).filter (0 ≤ ·)

theorem counts_cons (p : Partition) (ps : List Partition) :
    counts (p :: ps) = if 0 ≤ p.rows then p.rows :: counts ps else counts ps := by
  simp only [counts, List.map_cons, List.filter_cons, decide_eq_true_eq]

theorem sum_counts_nonneg (ps : List Partition) : 0 ≤ (counts ps).sum := by
  induction ps with
  | nil => exact Int.le_refl 0
  | cons p ps ih =>
    rw [counts_cons]
    split
    · rw [List.sum_cons]
      omega
    · exact ih

/-- What a scan has collected when it has seen some more partitions. -/
def collect (s : ScanStatistics) (ps : List Partition) : ScanStatistics where
  rows := min maxInt64 (s.rows + (counts ps).sum)
  missing := s.missing + ps.countP (·.rows < 0)
  files := s.files + (ps.map (·.fileCount)).sum
  bytes := s.bytes + (ps.map (·.size)).sum
  corrupt := s.corrupt || ps.any fun p ↦ isCorrupt p.rows p.size

theorem collect_nil (hhigh : s.rows ≤ maxInt64) : s.collect [] = s := by
  have hrows : min maxInt64 s.rows = s.rows := by omega
  simp [collect, counts, hrows]

/-- Once the sum has stopped it stays at the largest word. -/
theorem collect_cons (hlow : 0 ≤ s.rows) (p : Partition) (ps : List Partition) :
    s.collect (p :: ps) = (s.add p).collect ps := by
  have hsum := sum_counts_nonneg ps
  have hrows : (s.collect (p :: ps)).rows = ((s.add p).collect ps).rows := by
    simp only [collect, add, counts_cons, Number.clampInt64, Number.minInt64, maxInt64]
    by_cases hp : 0 ≤ p.rows
    · rw [if_pos hp, if_pos (by omega), List.sum_cons]
      omega
    · rw [if_neg hp, if_neg (by omega)]
  have hmissing : (s.collect (p :: ps)).missing = ((s.add p).collect ps).missing := by
    simp only [collect, add, List.countP_cons, decide_eq_true_eq]
    by_cases hp : 0 ≤ p.rows
    · rw [if_neg (by omega), if_pos (by omega)]
      omega
    · rw [if_pos (by omega), if_neg (by omega)]
      omega
  simp only [collect, add, mk.injEq] at hrows hmissing ⊢
  refine ⟨hrows, hmissing, ?_, ?_, ?_⟩
  · rw [List.map_cons, List.sum_cons, Int.add_assoc]
  · rw [List.map_cons, List.sum_cons, Int.add_assoc]
  · rw [List.any_cons, Bool.or_assoc]

theorem rows_add_mem (hlow : 0 ≤ s.rows) (hhigh : s.rows ≤ maxInt64) (p : Partition) :
    0 ≤ (s.add p).rows ∧ (s.add p).rows ≤ maxInt64 := by
  simp only [add, Number.clampInt64, Number.minInt64, maxInt64] at hhigh ⊢
  split <;> omega

/-- Partitions that are taken into account one after the other. -/
theorem foldl_add (hlow : 0 ≤ s.rows) (hhigh : s.rows ≤ maxInt64) (ps : List Partition) :
    ps.foldl add s = s.collect ps := by
  induction ps generalizing s with
  | nil => rw [List.foldl_nil, collect_nil hhigh]
  | cons p ps ih =>
    obtain ⟨hlow', hhigh'⟩ := rows_add_mem hlow hhigh p
    rw [List.foldl_cons, ih hlow' hhigh', collect_cons hlow]

/-- The sums and counts do not depend on the order of the partitions. -/
theorem collect_perm (s : ScanStatistics) (h : qs.Perm ps) : s.collect qs = s.collect ps := by
  have hany : (qs.any fun p ↦ isCorrupt p.rows p.size) = ps.any fun p ↦ isCorrupt p.rows p.size :=
    h.any_eq
  have hcounts : (counts qs).Perm (counts ps) := (h.map _).filter _
  rw [collect, collect, hcounts.sum_eq, h.countP_eq, (h.map (·.fileCount)).sum_eq,
    (h.map (·.size)).sum_eq, hany]

/-- The partitions do not know their rows, so those of the table are taken. -/
def FallsBack (ps : List Partition) : Prop := ps ≠ [] ∧ ∀ p ∈ ps, p.rows < 0

instance (ps : List Partition) : Decidable (FallsBack ps) := inferInstanceAs (Decidable (_ ∧ _))

theorem settle_eq (s : ScanStatistics) :
    s.settle = { s with rows := max s.rows (-1), corrupt := s.corrupt || s.rows < -1 } := by
  unfold settle
  split
  · rename_i hrows
    rw [Int.max_eq_right (by omega), decide_eq_true hrows, Bool.or_true]
  · rename_i hrows
    rw [Int.max_eq_left (by omega), decide_eq_false hrows, Bool.or_false]

theorem missing_collect_eq_length (ps : List Partition) :
    (collect {} ps).missing = ps.length ↔ ∀ p ∈ ps, p.rows < 0 := by
  have hmissing : (collect {} ps).missing = ps.countP (·.rows < 0) := Nat.zero_add _
  rw [hmissing, List.countP_eq_length]
  simp only [decide_eq_true_eq]

theorem ofPartitions_of_partitioned (h : t.isPartitioned = true) (ps : List Partition) :
    ofPartitions t ps =
      if FallsBack ps then settle { collect {} ps with rows := t.rows } else collect {} ps := by
  have hsum : ps.foldl add {} = collect {} ps := foldl_add (Int.le_refl 0) (by decide) ps
  have hfalls : (!ps.isEmpty && decide ((collect {} ps).missing = ps.length)) = true ↔
      FallsBack ps := by
    rw [Bool.and_eq_true, Bool.not_eq_true', List.isEmpty_eq_false_iff, decide_eq_true_eq,
      missing_collect_eq_length]
    rfl
  unfold ofPartitions
  simp only [if_pos h, hsum, hfalls]

theorem ofPartitions_of_unpartitioned (h : t.isPartitioned = false) (ps : List Partition) :
    ofPartitions t ps = settle {
      rows := if ps.isEmpty then 0 else t.rows
      files := (ps.map (·.fileCount)).sum
      bytes := (ps.map (·.size)).sum
      corrupt := isCorrupt t.rows t.bytes } := by
  unfold ofPartitions
  rw [h]
  rfl

theorem ofPartitions_perm (t : Table) (h : qs.Perm ps) : ofPartitions t qs = ofPartitions t ps := by
  cases hpartitioned : t.isPartitioned with
  | true =>
    have hfalls : FallsBack qs ↔ FallsBack ps := by
      unfold FallsBack
      rw [Ne, Ne, ← List.length_eq_zero_iff, ← List.length_eq_zero_iff, h.length_eq]
      simp only [h.mem_iff]
    rw [ofPartitions_of_partitioned hpartitioned, ofPartitions_of_partitioned hpartitioned,
      collect_perm {} h]
    simp only [hfalls]
  | false =>
    rw [ofPartitions_of_unpartitioned hpartitioned, ofPartitions_of_unpartitioned hpartitioned,
      h.isEmpty_eq, (h.map (·.fileCount)).sum_eq, (h.map (·.size)).sum_eq]

/-- A number of rows that cannot be right for so many bytes. -/
def Suspect (rows bytes : Int) : Prop := rows < -1 ∨ rows = 0 ∧ 0 < bytes

theorem isCorrupt_iff {rows bytes : Int} : isCorrupt rows bytes = true ↔ Suspect rows bytes := by
  simp [isCorrupt, Suspect]

/-- The statistics sum some partitions of a table up. -/
structure Summarizes (s : ScanStatistics) (t : Table) (ps : List Partition) : Prop where
  files : s.files = (ps.map (·.fileCount)).sum
  bytes : s.bytes = (ps.map (·.size)).sum
  neg_one_le : -1 ≤ s.rows
  rows_nil : ps = [] → s.rows = 0
  /-- Of partitions with and without numbers of rows, those with one count. -/
  rows_counted : t.isPartitioned = true → (∃ p ∈ ps, 0 ≤ p.rows) →
    s.rows = min maxInt64 (counts ps).sum
  /-- Without a number of rows from the partitions, that of the table counts. -/
  rows_table : ps ≠ [] → (t.isPartitioned = true → ∀ p ∈ ps, p.rows < 0) →
    s.rows = max t.rows (-1)
  missing : s.missing = if t.isPartitioned then ps.countP (·.rows < 0) else 0
  corrupt_partitioned : t.isPartitioned = true → (s.corrupt = true ↔
    (∃ p ∈ ps, Suspect p.rows p.size) ∨ FallsBack ps ∧ t.rows < -1)
  corrupt_unpartitioned : t.isPartitioned = false → (s.corrupt = true ↔ Suspect t.rows t.bytes)

theorem corrupt_collect (ps : List Partition) :
    (collect {} ps).corrupt = true ↔ ∃ p ∈ ps, Suspect p.rows p.size := by
  simp only [collect, Bool.false_or, List.any_eq_true, isCorrupt_iff]

theorem summarizes_of_partitioned (h : t.isPartitioned = true) (ps : List Partition) :
    (ofPartitions t ps).Summarizes t ps := by
  have hsum := sum_counts_nonneg ps
  have hrows : (collect {} ps).rows = min maxInt64 (counts ps).sum :=
    congrArg (min maxInt64) (Int.zero_add _)
  have hfiles : (collect {} ps).files = (ps.map (·.fileCount)).sum := Int.zero_add _
  have hbytes : (collect {} ps).bytes = (ps.map (·.size)).sum := Int.zero_add _
  have hmissing : (collect {} ps).missing = ps.countP (·.rows < 0) := Nat.zero_add _
  have hnonneg : 0 ≤ min maxInt64 (counts ps).sum := by
    simp only [maxInt64]
    omega
  have hpartitioned : t.isPartitioned ≠ false := h ▸ Bool.noConfusion
  rw [ofPartitions_of_partitioned h, settle_eq]
  by_cases hfalls : FallsBack ps
  · obtain ⟨hne, hunknown⟩ := id hfalls
    rw [if_pos hfalls]
    refine ⟨hfiles, hbytes, Int.le_max_right _ _, fun hnil ↦ absurd hnil hne, ?_, fun _ _ ↦ rfl, ?_,
      fun _ ↦ ?_, fun h' ↦ absurd h' hpartitioned⟩
    · rintro - ⟨p, hp, hknown⟩
      exact absurd (hunknown p hp) (Int.not_lt.mpr hknown)
    · rw [if_pos h]
      exact hmissing
    · simp only [Bool.or_eq_true, corrupt_collect, decide_eq_true_eq, hfalls, true_and]
  · rw [if_neg hfalls]
    refine ⟨hfiles, hbytes, ?_, ?_, fun _ _ ↦ hrows, ?_, ?_, fun _ ↦ ?_,
      fun h' ↦ absurd h' hpartitioned⟩
    · rw [hrows]
      omega
    · rintro rfl
      rfl
    · exact fun hne hunknown ↦ absurd ⟨hne, hunknown h⟩ hfalls
    · rw [if_pos h]
      exact hmissing
    · rw [corrupt_collect, or_iff_left fun hback ↦ hfalls hback.1]

theorem summarizes_of_unpartitioned (h : t.isPartitioned = false) (ps : List Partition) :
    (ofPartitions t ps).Summarizes t ps := by
  have hpartitioned : t.isPartitioned ≠ true := h ▸ Bool.noConfusion
  rw [ofPartitions_of_unpartitioned h, settle_eq]
  refine ⟨rfl, rfl, Int.le_max_right _ _, ?_, fun h' ↦ absurd h' hpartitioned, ?_, ?_,
    fun h' ↦ absurd h' hpartitioned, fun _ ↦ ?_⟩
  · rintro rfl
    rfl
  · intro hne _
    rw [if_neg (by rwa [List.isEmpty_iff])]
  · rw [h]
    rfl
  · -- An empty list has no rows, but the table has shown by then that its number is corrupt.
    rw [Bool.or_eq_true, isCorrupt_iff, decide_eq_true_eq, or_iff_left_iff_imp]
    cases hempty : ps.isEmpty with
    | true => exact fun hrows ↦ absurd hrows (by decide : ¬(0 : Int) < -1)
    | false => exact .inl

theorem summarizes (t : Table) (ps : List Partition) : (ofPartitions t ps).Summarizes t ps := by
  cases h : t.isPartitioned with
  | true => exact summarizes_of_partitioned h ps
  | false => exact summarizes_of_unpartitioned h ps

/-- The statistics of a scan sum the scanned partitions up, in whatever order they come. If these
are all partitions of a table that any calls led to, files and bytes are the totals of the table. -/
theorem ofPartitions_summarizes (t : Table) (ps : List Partition) :
    (ofPartitions t ps).Summarizes t ps ∧
      (∀ qs, qs.Perm ps → ofPartitions t qs = ofPartitions t ps) ∧
      ∀ {database name baseDirectory : String} {columns : List Column} {clustering : Nat}
        {t₀ : Table} {ops : List TableOp},
        Table.new database name columns clustering baseDirectory = .ok t₀ → t₀.run ops = t →
          ps.Perm t.partitions →
            (ofPartitions t ps).files = t.files ∧ (ofPartitions t ps).bytes = t.bytes := by
  refine ⟨summarizes t ps, fun _ hperm ↦ ofPartitions_perm t hperm, ?_⟩
  rintro _ _ _ _ _ t₀ ops hnew rfl hall
  have h := (Table.Consistent.of_new hnew).run ops
  have hsummary := summarizes (t₀.run ops) ps
  constructor
  · rw [hsummary.files, h.files, (hall.map _).sum_eq]
  · rw [hsummary.bytes, h.bytes, (hall.map _).sum_eq]

/-- Two days with numbers of rows that no word can hold together, and one with less than none. -/
def countedOps : List TableOp :=
  [.add { id := ⟨1⟩, values := [.integer 1], location := "/1", format := .text, rows := maxInt64 },
    .add { id := ⟨2⟩, values := [.integer 2], location := "/2", format := .text, rows := 5 },
    .add { id := ⟨3⟩, values := [.integer 3], location := "/3", format := .text, rows := -2,
           files := [.named "a.gz" 10 0 []] }]

theorem ofPartitions_summarizes_counted :
    let t := Table.visits.run countedOps
    let s := ofPartitions t t.partitions.reverse
    s.rows = maxInt64 ∧ s.missing = 1 ∧ s.files = t.files ∧ s.bytes = t.bytes ∧
      s.corrupt = true := by
  intro t s
  have hpartitioned : t.isPartitioned = true := by decide +kernel
  have hknown : ∃ p ∈ t.partitions, 0 ≤ p.rows := by decide +kernel
  have hcounts : min maxInt64 (counts t.partitions).sum = maxInt64 := by decide +kernel
  have hmissing : t.partitions.countP (·.rows < 0) = 1 := by decide +kernel
  have hsuspect : ∃ p ∈ t.partitions, p.rows < -1 := by decide +kernel
  obtain ⟨h, horder, htotals⟩ := ofPartitions_summarizes t t.partitions
  obtain ⟨hfiles, hbytes⟩ := htotals Table.new_visits rfl (.refl _)
  have hs : s = ofPartitions t t.partitions := horder _ t.partitions.reverse_perm
  rw [hs]
  refine ⟨(h.rows_counted hpartitioned hknown).trans hcounts, ?_, hfiles, hbytes, ?_⟩
  · rw [h.missing, if_pos hpartitioned, hmissing]
  · obtain ⟨p, hp, hrows⟩ := hsuspect
    exact (h.corrupt_partitioned hpartitioned).mpr (.inl ⟨p, hp, .inl hrows⟩)

end ScanStatistics

end QueryPlanning
