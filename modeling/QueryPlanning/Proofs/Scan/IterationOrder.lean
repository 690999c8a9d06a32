import Mathlib.Algebra.BigOperators.Group.List.Basic
import QueryPlanning.Catalog.Listing
import QueryPlanning.Proofs.Catalog.PartitionOrder
import QueryPlanning.Proofs.Scan.PruningEvaluation

/-!
# Answers and the order of iteration

Partitions, and the sets of partitions in a key index, are listed in ascending order here, but
nothing in them says so: they may come in any order. What a table tells about its partitions is the
same for all of these orders.
-/

namespace QueryPlanning

-- The sums of the core library, whatever else is imported.
attribute [local instance (high)] Zero.ofOfNat0

/-- The same keys with the same partitions. -/
structure KeyColumn.Shuffled (c d : KeyColumn) : Prop where
  buckets : List.Forall₂ (fun a b ↦ a.1 = b.1 ∧ a.2.Perm b.2) c.buckets d.buckets
  nulls : c.nulls.Perm d.nulls

structure KeyIndex.Shuffled (ix jx : KeyIndex) : Prop where
  columns : List.Forall₂ KeyColumn.Shuffled ix.columns jx.columns
  ids : ix.ids.Perm jx.ids

/-- Two tables differ in the orders of their partitions and sets only, as far as it matters for what
they tell about their partitions. -/
structure Table.Shuffled (t s : Table) : Prop where
  partitions : s.partitions.Perm t.partitions
  index : t.index.Shuffled s.index
  database : s.database = t.database
  name : s.name = t.name
  columns : s.columns = t.columns
  clustering : s.clustering = t.clustering
  baseDirectory : s.baseDirectory = t.baseDirectory
  nullKey : s.nullKey = t.nullKey
  default : s.default = t.default
  rows : s.rows = t.rows
  cached : s.cached = t.cached
  files : s.files = t.files
  bytes : s.bytes = t.bytes

theorem KeyColumn.Shuffled.refl (c : KeyColumn) : c.Shuffled c :=
  ⟨List.forall₂_same.mpr fun _ _ ↦ ⟨rfl, .refl _⟩, .refl _⟩

theorem KeyIndex.Shuffled.refl (ix : KeyIndex) : ix.Shuffled ix :=
  ⟨List.forall₂_same.mpr fun c _ ↦ .refl c, .refl _⟩

theorem KeyColumn.Shuffled.symm {c d : KeyColumn} (h : c.Shuffled d) : d.Shuffled c :=
  ⟨h.buckets.flip.imp fun _ _ hab ↦ ⟨hab.1.symm, hab.2.symm⟩, h.nulls.symm⟩

theorem KeyIndex.Shuffled.symm {ix jx : KeyIndex} (h : ix.Shuffled jx) : jx.Shuffled ix :=
  ⟨h.columns.flip.imp fun _ _ hcd ↦ hcd.symm, h.ids.symm⟩

/-- Partitions in ascending order. -/
def IdSet.sort (ids : IdSet) : IdSet := ids.mergeSort fun i j ↦ i.val ≤ j.val

/-- The result of pruning in ascending order. -/
def Pruning.sort (r : Pruning) : Pruning := ⟨r.retained.sort, r.pruned.sort⟩

theorem IdSet.sort_eq_of_perm {ids ids' : IdSet} (h : ids.Perm ids') : ids.sort = ids'.sort := by
  have htrans (i j k : PartitionId) (hij : decide (i.val ≤ j.val) = true)
      (hjk : decide (j.val ≤ k.val) = true) : decide (i.val ≤ k.val) = true :=
    decide_eq_true (Int.le_trans (of_decide_eq_true hij) (of_decide_eq_true hjk))
  have htotal (i j : PartitionId) : (decide (i.val ≤ j.val) || decide (j.val ≤ i.val)) = true := by
    rw [Bool.or_eq_true, decide_eq_true_iff, decide_eq_true_iff]
    exact Int.le_total i.val j.val
  have hsorted : ids.sort.Perm ids'.sort :=
    ((List.mergeSort_perm ids _).trans h).trans (List.mergeSort_perm ids' _).symm
  refine hsorted.eq_of_pairwise (fun i j _ _ hij hji ↦ ?_) (List.pairwise_mergeSort htrans htotal _)
    (List.pairwise_mergeSort htrans htotal _)
  exact congrArg Id.mk (Int.le_antisymm (of_decide_eq_true hij) (of_decide_eq_true hji))

namespace KeyIndex.Shuffled

variable {ix jx : KeyIndex} {col : Nat} {id : PartitionId}

theorem cases (h : ix.Shuffled jx) (col : Nat) :
    (ix.columns[col]? = none ∧ jx.columns[col]? = none) ∨
      ∃ c d, ix.columns[col]? = some c ∧ jx.columns[col]? = some d ∧ c.Shuffled d := by
  obtain ⟨hcolumns, -⟩ := h
  generalize ix.columns = cs at hcolumns ⊢
  generalize jx.columns = ds at hcolumns ⊢
  induction hcolumns generalizing col with
  | nil => exact .inl ⟨rfl, rfl⟩
  | @cons c d _ _ hfirst _ ih =>
    cases col with
    | zero => exact .inr ⟨c, d, rfl, rfl, hfirst⟩
    | succ col => exact ih col

theorem mem_bucket? {v : Literal} {bs ds : List (Literal × IdSet)}
    (h : List.Forall₂ (fun a b ↦ a.1 = b.1 ∧ a.2.Perm b.2) bs ds) :
    id ∈ (KeyColumn.bucket? v bs).getD [] ↔ id ∈ (KeyColumn.bucket? v ds).getD [] := by
  induction h with
  | nil => exact Iff.rfl
  | @cons a b _ _ hab _ ih =>
    obtain ⟨k, ids⟩ := a
    obtain ⟨k', ids'⟩ := b
    obtain ⟨rfl, hids⟩ := hab
    unfold KeyColumn.bucket?
    cases v.compare k with
    | lt => exact Iff.rfl
    | eq => exact hids.mem_iff
    | gt => exact ih

theorem mem_withValue (h : ix.Shuffled jx) (v : Literal) :
    id ∈ ix.withValue col v ↔ id ∈ jx.withValue col v := by
  unfold withValue
  rcases h.cases col with ⟨hc, hd⟩ | ⟨c, d, hc, hd, hshuffled⟩
  · rw [hc, hd]
  · rw [hc, hd]
    dsimp only
    split
    · exact hshuffled.nulls.mem_iff
    · exact mem_bucket? hshuffled.buckets

theorem mem_nulls? (h : ix.Shuffled jx) :
    id ∈ (ix.nulls? col).getD [] ↔ id ∈ (jx.nulls? col).getD [] := by
  unfold nulls?
  rcases h.cases col with ⟨hc, hd⟩ | ⟨c, d, hc, hd, hshuffled⟩
  · rw [hc, hd]
  · rw [hc, hd]
    exact hshuffled.nulls.mem_iff

theorem exists_bucket (h : ix.Shuffled jx) {P : Literal → Prop}
    (hix : ∃ e ∈ (ix.buckets? col).getD [], P e.1 ∧ id ∈ e.2) :
    ∃ e ∈ (jx.buckets? col).getD [], P e.1 ∧ id ∈ e.2 := by
  unfold buckets? at hix ⊢
  rcases h.cases col with ⟨hc, hd⟩ | ⟨c, d, hc, hd, hshuffled⟩
  · rw [hc] at hix
    rw [hd]
    exact hix
  · rw [hc] at hix
    rw [hd]
    obtain ⟨e, he, hP, hid⟩ := hix
    obtain ⟨e', he', hkey, hids⟩ := Outcome.exists_of_mem_forall₂ hshuffled.buckets.flip he
    exact ⟨e', he', hkey ▸ hP, hids.mem_iff.mp hid⟩

theorem mem_buckets_within (h : ix.Shuffled jx) (within : Literal → Bool) :
    id ∈ (((ix.buckets? col).getD []).filter fun e ↦ within e.1).foldr
        (fun e found ↦ IdSet.union e.2 found) [] ↔
      id ∈ (((jx.buckets? col).getD []).filter fun e ↦ within e.1).foldr
        (fun e found ↦ IdSet.union e.2 found) [] := by
  simp only [IdSet.mem_foldr_union, List.mem_filter, and_assoc]
  exact ⟨h.exists_bucket (P := (within · = true)), h.symm.exists_bucket (P := (within · = true))⟩

theorem mem_inRange (h : ix.Shuffled jx) (lower upper : Option RangeBound) :
    id ∈ ix.inRange col lower upper ↔ id ∈ jx.inRange col lower upper := by
  have hif (isEmpty : Bool) {a b : IdSet} (hab : id ∈ a ↔ id ∈ b) :
      id ∈ (if isEmpty then [] else a) ↔ id ∈ if isEmpty then [] else b := by
    cases isEmpty with
    | false => exact hab
    | true => exact Iff.rfl
  exact hif _ (h.mem_buckets_within fun v ↦ lower.all (·.isBelow v) && upper.all (·.isAbove v))

theorem mem_matching (h : ix.Shuffled jx) (test : KeyTest) :
    id ∈ test.matching ix col ↔ id ∈ test.matching jx col := by
  cases test with
  | eq value => exact h.mem_withValue value
  | oneOf values =>
    apply (IdSet.mem_foldr_union (ix.withValue col) values).trans
    apply Iff.trans _ (IdSet.mem_foldr_union (jx.withValue col) values).symm
    simp only [h.mem_withValue]
  | range lower upper => exact h.mem_inRange lower upper
  | isNull => exact h.mem_nulls?
  | isNotNull =>
    simp only [KeyTest.matching, List.mem_filter, h.ids.mem_iff, Bool.not_eq_true',
      List.contains_eq_mem, decide_eq_false_iff_not, h.mem_nulls?]

end KeyIndex.Shuffled

namespace Table

variable {s t : Table} {types : List ColumnType}

/-- Two tables tell the same about their partitions. -/
structure SameAnswers (t s : Table) : Prop where
  sorted : s.sorted = t.sorted
  stats : Listing.ofStats s = Listing.ofStats t
  files : Listing.ofFiles s = Listing.ofFiles t
  format : s.majorityFormat = t.majorityFormat
  writable : s.isWritable = t.isWritable
  columns : s.columns = t.columns
  totals : s.files = t.files ∧ s.bytes = t.bytes
  pruning (predicates : List KeyPredicate) :
    (s.prune predicates).map Pruning.sort = (t.prune predicates).map Pruning.sort

theorem SameAnswers.symm (h : SameAnswers t s) : SameAnswers s t :=
  ⟨h.sorted.symm, h.stats.symm, h.files.symm, h.format.symm, h.writable.symm, h.columns.symm,
    h.totals.imp Eq.symm Eq.symm, fun predicates ↦ (h.pruning predicates).symm⟩

theorem SameAnswers.trans {r : Table} (h : SameAnswers t s) (h' : SameAnswers s r) :
    SameAnswers t r :=
  ⟨h'.sorted.trans h.sorted, h'.stats.trans h.stats, h'.files.trans h.files,
    h'.format.trans h.format, h'.writable.trans h.writable, h'.columns.trans h.columns,
    ⟨h'.totals.1.trans h.totals.1, h'.totals.2.trans h.totals.2⟩,
    fun predicates ↦ (h'.pruning predicates).trans (h.pruning predicates)⟩

namespace Shuffled

variable (h : t.Shuffled s)

include h

theorem clusteringColumns : s.clusteringColumns = t.clusteringColumns := by
  rw [Table.clusteringColumns, h.columns, h.clustering]
  rfl

theorem sorted (hfits : ∀ p ∈ t.partitions, p.Fits types)
    (hnodup : (t.partitions.map (·.id)).Nodup) : s.sorted = t.sorted :=
  Partition.sort_eq_of_perm Literal.orderedOn_fits hfits hnodup h.partitions

theorem majorityFormat : s.majorityFormat = t.majorityFormat := by
  have hcount (f : FileFormat) :
      s.partitions.countP (·.format = f) = t.partitions.countP (·.format = f) :=
    h.partitions.countP_eq _
  simp only [Table.majorityFormat, hcount, h.default]

theorem isWritable : s.isWritable = t.isWritable := by
  have hempty (r : Table) : r.isWritable = r.allPartitions.all fun p ↦ p.access.writes := by
    rw [Bool.eq_iff_iff, Table.isWritable, unwritable, List.isEmpty_iff, List.map_eq_nil_iff,
      List.filter_eq_nil_iff, List.all_eq_true]
    simp only [Bool.not_eq_true', Bool.not_eq_false]
  rw [hempty, hempty, allPartitions, allPartitions, List.all_cons, List.all_cons, h.default,
    h.partitions.all_eq]

theorem isPartitioned : s.isPartitioned = t.isPartitioned := by
  rw [Table.isPartitioned, h.clustering]
  rfl

theorem tableRow : Listing.tableRow s = Listing.tableRow t := by
  have hcachedBytes :
      (s.partitions.map (·.cachedBytes)).sum = (t.partitions.map (·.cachedBytes)).sum :=
    (h.partitions.map _).sum_eq
  simp only [Listing.tableRow, h.rows, h.files, h.bytes, h.cached, hcachedBytes, h.majorityFormat,
    h.baseDirectory]

theorem totalRow (hsorted : s.sorted = t.sorted) : Listing.totalRow s = Listing.totalRow t := by
  simp only [Listing.totalRow, hsorted, h.clustering, h.rows, h.files, h.bytes]

theorem ofStats (hsorted : s.sorted = t.sorted) : Listing.ofStats s = Listing.ofStats t := by
  unfold Listing.ofStats
  rw [h.clusteringColumns, h.isPartitioned, hsorted, h.nullKey, h.totalRow hsorted, h.tableRow]

theorem ofFiles (hsorted : s.sorted = t.sorted) : Listing.ofFiles s = Listing.ofFiles t := by
  have hrows (p : Partition) : Listing.fileRows s p = Listing.fileRows t p := by
    simp only [Listing.fileRows, directoryOf, h.clusteringColumns, h.nullKey]
  simp only [Listing.ofFiles, Listing.ofPartitions, hsorted, funext hrows]

theorem positionOf (q : KeyPredicate) : s.positionOf q = t.positionOf q := by
  simp only [Table.positionOf, clusteringPosition?, h.clusteringColumns, fullName, h.database,
    h.name]

theorem retain (predicates : List KeyPredicate) {ids ids' : IdSet} (hids : ids'.Perm ids) :
    (∃ e, t.retain predicates ids = .error e ∧ s.retain predicates ids' = .error e) ∨
      ∃ r r', t.retain predicates ids = .ok r ∧ s.retain predicates ids' = .ok r' ∧ r'.Perm r := by
  induction predicates generalizing ids ids' with
  | nil => exact .inr ⟨ids, ids', rfl, rfl, hids⟩
  | cons q rest ih =>
    rw [Table.retain, Table.retain, h.positionOf]
    cases t.positionOf q with
    | error e => exact .inl ⟨e, rfl, rfl⟩
    | ok col =>
      have hfound : ids'.filter (q.test.matching s.index col).contains =
          ids'.filter (q.test.matching t.index col).contains := by
        apply List.filter_congr
        intro id _
        rw [List.contains_eq_mem, List.contains_eq_mem]
        exact decide_eq_decide.mpr (h.index.mem_matching q.test).symm
      apply ih
      rw [hfound]
      exact hids.filter _

theorem prune (predicates : List KeyPredicate) :
    (s.prune predicates).map Pruning.sort = (t.prune predicates).map Pruning.sort := by
  have hids : s.index.ids.Perm t.index.ids := h.index.ids.symm
  rw [Table.prune, Table.prune]
  rcases h.retain predicates hids with ⟨e, ht, hs⟩ | ⟨r, r', ht, hs, hperm⟩
  · rw [ht, hs]
    rfl
  · have hpruned : (s.index.ids.filter fun id ↦ !r'.contains id).Perm
        (t.index.ids.filter fun id ↦ !r.contains id) := by
      have hcontains (id : PartitionId) : r'.contains id = r.contains id := by
        rw [List.contains_eq_mem, List.contains_eq_mem]
        exact decide_eq_decide.mpr hperm.mem_iff
      simp only [hcontains]
      exact hids.filter _
    rw [ht, hs]
    exact congrArg Except.ok (congrArg₂ Pruning.mk (IdSet.sort_eq_of_perm hperm)
      (IdSet.sort_eq_of_perm hpruned))

theorem sameAnswers (hfits : ∀ p ∈ t.partitions, p.Fits types)
    (hnodup : (t.partitions.map (·.id)).Nodup) : SameAnswers t s := by
  have hsorted := h.sorted hfits hnodup
  exact ⟨hsorted, h.ofStats hsorted, h.ofFiles hsorted, h.majorityFormat, h.isWritable, h.columns,
    ⟨h.files, h.bytes⟩, h.prune⟩

end Shuffled

end Table

end QueryPlanning
