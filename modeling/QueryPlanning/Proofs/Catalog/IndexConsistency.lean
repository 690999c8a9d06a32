import Mathlib.Data.List.Infix
import QueryPlanning.Proofs.Catalog.KeyColumns
import QueryPlanning.Proofs.Catalog.TableChanges

/-!
# Consistency of the index

Partitions, key index, statistics and totals of a table are changed together, one partition at a
time. Through any calls, refused ones among them, they stay what a pass over the partitions would
find. For the buckets of a column that needs the values ever stored there to be in total order: a
bucket keeps the key that it was made for after the partition with that very key has gone.
-/

namespace QueryPlanning

-- The sums of the core library, whatever else is imported.
attribute [local instance (high)] Zero.ofOfNat0

namespace KeyIndex

variable {f : Literal → KeyColumn → ColumnStats → KeyColumn × ColumnStats} {values : List Literal}
  {columns : List KeyColumn} {stats : List ColumnStats} {col : Nat} {v : Literal} {c : KeyColumn}
  {s : ColumnStats}

theorem length_update (f : Literal → KeyColumn → ColumnStats → KeyColumn × ColumnStats)
    (values : List Literal) (columns : List KeyColumn) (stats : List ColumnStats) :
    (update f values columns stats).1.length = columns.length ∧
      (update f values columns stats).2.length = stats.length := by
  induction values generalizing columns stats with
  | nil => exact ⟨rfl, rfl⟩
  | cons v vs ih =>
    cases columns with
    | nil => exact ⟨rfl, rfl⟩
    | cons c cs =>
      cases stats with
      | nil => exact ⟨rfl, rfl⟩
      | cons s ss => exact (ih cs ss).imp (congrArg (· + 1)) (congrArg (· + 1))

theorem update_getElem? (hv : values[col]? = some v) (hc : columns[col]? = some c)
    (hs : stats[col]? = some s) :
    (update f values columns stats).1[col]? = some (f v c s).1 ∧
      (update f values columns stats).2[col]? = some (f v c s).2 := by
  induction values generalizing col columns stats with
  | nil => cases hv
  | cons w vs ih =>
    cases columns with
    | nil => cases hc
    | cons d cs =>
      cases stats with
      | nil => cases hs
      | cons r ss =>
        cases col with
        | zero =>
          obtain rfl := Option.some.inj hv
          obtain rfl := Option.some.inj hc
          obtain rfl := Option.some.inj hs
          exact ⟨rfl, rfl⟩
        | succ col => exact ih hv hc hs

end KeyIndex

namespace Table

theorem withStats_getElem? {columns : List Column} {stats : List ColumnStats} {col : Nat}
    {k : Column} {s : ColumnStats} (hk : columns[col]? = some k) (hs : stats[col]? = some s) :
    (withStats columns stats)[col]? = some { k with stats := s } := by
  induction columns generalizing col stats with
  | nil => cases hk
  | cons d cs ih =>
    cases stats with
    | nil => cases hs
    | cons r ss =>
      cases col with
      | zero =>
        obtain rfl := Option.some.inj hk
        obtain rfl := Option.some.inj hs
        rfl
      | succ col => exact ih hk hs

/-- The identifiers, the totals, the nulls and the statistics are those of the partitions. -/
structure Consistent (t : Table) : Prop where
  ascending : t.partitions.Pairwise fun p q ↦ p.id.val < q.id.val
  inRange {p : Partition} : p ∈ t.partitions → 0 < p.id.val ∧ p.id.val ≤ t.highest
  highest : 0 ≤ t.highest
  values {p : Partition} : p ∈ t.partitions → p.values.length = t.clustering
  clustering : t.clustering ≤ t.columns.length
  columns : t.index.columns.length = t.clustering
  ids : t.index.ids = t.partitions.map (·.id)
  default : t.default.id = Partition.defaultId
  files : t.files = (t.partitions.map (·.fileCount)).sum
  bytes : t.bytes = (t.partitions.map (·.size)).sum
  counted {col : Nat} {c : KeyColumn} {k : Column} :
    t.index.columns[col]? = some c → t.columns[col]? = some k →
      c.Counted col t.partitions k.stats

/-- The buckets of a column are those of the partitions, whose values have a property. -/
def BucketedAt (P : Literal → Prop) (col : Nat) (t : Table) : Prop :=
  ∀ c, t.index.columns[col]? = some c → KeyColumn.Bucketed P col t.partitions c.buckets

variable {t t' : Table} {p : Partition} {col : Nat} {c : KeyColumn}
  {f : Literal → KeyColumn → ColumnStats → KeyColumn × ColumnStats} {values : List Literal}

theorem Consistent.nodup (h : t.Consistent) : (t.partitions.map (·.id)).Nodup := by
  refine List.pairwise_map.mpr (h.ascending.imp fun {p q} hlt heq ↦ ?_)
  rw [heq] at hlt
  exact Int.lt_irrefl _ hlt

theorem partition?_of_mem (hnodup : (t.partitions.map (·.id)).Nodup) (hp : p ∈ t.partitions) :
    t.partition? p.id = some p := by
  cases hfind : t.partition? p.id with
  | none =>
    have hnone := List.find?_eq_none.mp hfind p hp
    exact absurd (decide_eq_true rfl) hnone
  | some q =>
    obtain ⟨hq, hid⟩ := mem_of_partition? hfind
    rw [Partition.eq_of_id hnodup hp hq hid]

/-- A column after a change of all columns. -/
theorem Consistent.column_of_update (h : t.Consistent) (hvalues : values.length = t.clustering)
    (hc : (KeyIndex.update f values t.index.columns t.stats).1[col]? = some c) :
    ∃ v d k, values[col]? = some v ∧ t.index.columns[col]? = some d ∧ t.columns[col]? = some k ∧
      c = (f v d k.stats).1 ∧
      (withStats t.columns (KeyIndex.update f values t.index.columns t.stats).2)[col]? =
        some { k with stats := (f v d k.stats).2 } := by
  have hlt : col < t.clustering := by
    rw [← h.columns, ← (KeyIndex.length_update f values t.index.columns t.stats).1]
    exact (List.getElem?_eq_some_iff.mp hc).1
  have hlt' : col < t.columns.length := Nat.lt_of_lt_of_le hlt h.clustering
  have hlt'' : col < t.index.columns.length := h.columns.symm ▸ hlt
  have hv : values[col]? = some values[col] := List.getElem?_eq_getElem _
  have hd := List.getElem?_eq_getElem hlt''
  have hk := List.getElem?_eq_getElem hlt'
  have hs : t.stats[col]? = some t.columns[col].stats := by
    rw [stats, clusteringColumns, List.getElem?_map, List.getElem?_take_of_lt hlt, hk]
    rfl
  obtain ⟨hfst, hsnd⟩ := KeyIndex.update_getElem? (f := f) hv hd hs
  refine ⟨_, _, _, hv, hd, hk, ?_, withStats_getElem? hk hsnd⟩
  exact Option.some.inj (hc.symm.trans hfst)

theorem sum_without {ps : List Partition} (hnodup : (ps.map (·.id)).Nodup) (hmem : p ∈ ps)
    (g : Partition → Int) :
    ((ps.filter (·.id ≠ p.id)).map g).sum = (ps.map g).sum - g p := by
  induction ps with
  | nil => cases hmem
  | cons q rest ih =>
    obtain ⟨hq, hrest⟩ := List.nodup_cons.mp hnodup
    rcases List.mem_cons.mp hmem with rfl | hp
    · have hkept : rest.filter (·.id ≠ p.id) = rest := by
        apply List.filter_eq_self.mpr
        intro r hr
        simp only [ne_eq, decide_eq_true_eq]
        intro hid
        exact hq (List.mem_map.mpr ⟨r, hr, hid⟩)
      rw [List.filter_cons_of_neg (by simp), hkept, List.map_cons, List.sum_cons]
      omega
    · have hne : q.id ≠ p.id := by
        intro hid
        exact hq (List.mem_map.mpr ⟨p, hp, hid.symm⟩)
      rw [List.filter_cons_of_pos (by simpa using hne), List.map_cons, List.map_cons,
        List.sum_cons, List.sum_cons, ih hrest hp]
      omega

/-- A partition more, with an identifier above all others. -/
theorem Consistent.insert (h : t.Consistent) (hid : t.highest < p.id.val)
    (hvalues : p.values.length = t.clustering) : (t.insert p).Consistent := by
  have hfresh : ∀ q ∈ t.partitions, q.id.val < p.id.val :=
    fun q hq ↦ Int.lt_of_le_of_lt (h.inRange hq).2 hid
  have hpos : 0 < p.id.val := Int.lt_of_le_of_lt h.highest hid
  have old_or_new {q : Partition} (hq : q ∈ (t.insert p).partitions) : q ∈ t.partitions ∨ q = p :=
    (List.mem_append.mp hq).imp_right List.mem_singleton.mp
  refine ⟨?_, fun {q} hq ↦ ?_, Int.le_of_lt hpos, fun {q} hq ↦ ?_, ?_, ?_, ?_, h.default, ?_, ?_,
    fun {col c k} hc hk ↦ ?_⟩
  · refine List.pairwise_append.mpr ⟨h.ascending, List.pairwise_singleton _ _, ?_⟩
    intro q hq r hr
    obtain rfl := List.mem_singleton.mp hr
    exact hfresh q hq
  · rcases old_or_new hq with hq | rfl
    · exact ⟨(h.inRange hq).1, Int.le_of_lt (hfresh q hq)⟩
    · exact ⟨hpos, Int.le_refl _⟩
  · rcases old_or_new hq with hq | rfl
    · exact h.values hq
    · exact hvalues
  · exact (length_withStats ..).symm ▸ h.clustering
  · exact (KeyIndex.length_update ..).1.trans h.columns
  · have hlt : ∀ j ∈ t.index.ids, j.val < p.id.val := by
      intro j hj
      rw [h.ids] at hj
      obtain ⟨q, hq, rfl⟩ := List.mem_map.mp hj
      exact hfresh q hq
    calc (t.insert p).index.ids = IdSet.insert p.id t.index.ids := rfl
      _ = t.index.ids ++ [p.id] := IdSet.insert_of_lt hlt
      _ = (t.partitions ++ [p]).map (·.id) := by rw [h.ids, List.map_append]; rfl
  · calc (t.insert p).files = t.files + p.fileCount := rfl
      _ = ((t.partitions ++ [p]).map (·.fileCount)).sum := by
        rw [h.files, List.map_append, List.sum_append]
        simp
  · calc (t.insert p).bytes = t.bytes + p.size := rfl
      _ = ((t.partitions ++ [p]).map (·.size)).sum := by
        rw [h.bytes, List.map_append, List.sum_append]
        simp
  · obtain ⟨v, d, k', hv, hd, hk', rfl, hstats⟩ := h.column_of_update hvalues hc
    obtain rfl := Option.some.inj (hstats.symm.trans hk)
    exact (h.counted hd hk').add hv hfresh

theorem Consistent.remove (h : t.Consistent) (hp : p ∈ t.partitions) :
    (t.remove p).Consistent := by
  have kept {q : Partition} (hq : q ∈ (t.remove p).partitions) : q ∈ t.partitions :=
    (List.mem_filter.mp hq).1
  refine ⟨h.ascending.sublist List.filter_sublist, fun hq ↦ h.inRange (kept hq), h.highest,
    fun hq ↦ h.values (kept hq), ?_, ?_, ?_, h.default, ?_, ?_, fun {col c k} hc hk ↦ ?_⟩
  · exact (length_withStats ..).symm ▸ h.clustering
  · exact (KeyIndex.length_update ..).1.trans h.columns
  · calc (t.remove p).index.ids = t.index.ids.erase p.id := rfl
      _ = (t.partitions.filter (·.id ≠ p.id)).map (·.id) := by
        rw [h.ids, Partition.ids_without h.nodup]
  · calc (t.remove p).files = t.files - p.fileCount := rfl
      _ = _ := by rw [h.files]; exact (sum_without h.nodup hp _).symm
  · calc (t.remove p).bytes = t.bytes - p.size := rfl
      _ = _ := by rw [h.bytes]; exact (sum_without h.nodup hp _).symm
  · obtain ⟨v, d, k', hv, hd, hk', rfl, hstats⟩ := h.column_of_update (h.values hp) hc
    obtain rfl := Option.some.inj (hstats.symm.trans hk)
    exact (h.counted hd hk').remove h.nodup hp hv

theorem counted_empty (col : Nat) : KeyColumn.Counted col [] {} .zero := ⟨rfl, rfl, rfl⟩

/-- A table without partitions is consistent if it has counted none. -/
theorem Consistent.of_empty (hpartitions : t.partitions = [])
    (hindex : t.index = .empty t.clustering) (hclustering : t.clustering ≤ t.columns.length)
    (hstats : ∀ (col : Nat) (k : Column), col < t.clustering → t.columns[col]? = some k →
      k.stats = .zero) (hhighest : 0 ≤ t.highest) (hdefault : t.default.id = Partition.defaultId)
    (hfiles : t.files = 0) (hbytes : t.bytes = 0) : t.Consistent := by
  constructor
  case ascending => exact hpartitions ▸ .nil
  case inRange =>
    rw [hpartitions]
    nofun
  case highest => exact hhighest
  case values =>
    rw [hpartitions]
    nofun
  case clustering => exact hclustering
  case columns =>
    rw [hindex]
    exact List.length_replicate
  case ids =>
    rw [hindex, hpartitions]
    rfl
  case default => exact hdefault
  case files =>
    rw [hfiles, hpartitions]
    rfl
  case bytes =>
    rw [hbytes, hpartitions]
    rfl
  case counted =>
    intro col c k hc hk
    rw [hindex] at hc
    obtain ⟨hlt, rfl⟩ := List.getElem?_eq_some_iff.mp hc
    have hlt' : col < t.clustering := by simpa [KeyIndex.empty] using hlt
    have hempty : (KeyIndex.empty t.clustering).columns[col] = {} := List.getElem_replicate _
    rw [hempty, hpartitions, hstats col k hlt' hk]
    exact counted_empty col

theorem Consistent.reset (h : t.Consistent) : t.reset.Consistent := by
  apply Consistent.of_empty rfl
  · exact congrArg KeyIndex.empty h.columns
  · exact (length_withStats ..).symm ▸ h.clustering
  · intro col k hcol hk
    have hlt : col < t.clustering := hcol
    have hlt' : col < t.columns.length := Nat.lt_of_lt_of_le hlt h.clustering
    have hzero : (t.clusteringColumns.map fun _ ↦ ColumnStats.zero)[col]? = some .zero := by
      rw [clusteringColumns, List.getElem?_map, List.getElem?_take_of_lt hlt,
        List.getElem?_eq_getElem hlt']
      rfl
    have hk' := withStats_getElem? (List.getElem?_eq_getElem hlt') hzero
    obtain rfl := Option.some.inj (hk'.symm.trans hk)
    rfl
  · exact h.highest
  · exact h.default
  · rfl
  · rfl

theorem Consistent.change {allowed : Partition → Prop} (h : t.Consistent)
    (hchange : Change allowed t t') : t'.Consistent := by
  cases hchange with
  | insert hid hvalues _ => exact h.insert hid hvalues
  | remove hp => exact h.remove hp
  | reset => exact h.reset
  | other hclustering hcolumns hpartitions hindex hhighest hfiles hbytes hdefault =>
    constructor
    all_goals simp only [hclustering, hcolumns, hpartitions, hindex, hhighest, hfiles, hbytes,
      hdefault]
    exacts [h.ascending, h.inRange, h.highest, h.values, h.clustering, h.columns, h.ids, h.default,
      h.files, h.bytes, h.counted]

theorem new_eq_ok {database name baseDirectory : String} {columns : List Column}
    {clustering : Nat} (h : Table.new database name columns clustering baseDirectory = .ok t) :
    clustering ≤ columns.length ∧ ∃ id, id = Partition.defaultId ∧ t = {
      database, name, clustering, baseDirectory
      columns := (columns.take clustering).map (fun c ↦ { c with stats := .zero }) ++
        columns.drop clustering
      default := { id, values := [], location := baseDirectory, format := .text }
      index := .empty clustering } := by
  unfold Table.new at h
  by_cases hcount : columns.length < clustering
  · rw [if_pos hcount] at h
    cases h
  · rw [if_neg hcount] at h
    refine ⟨Nat.le_of_not_lt hcount, _, rfl, ?_⟩
    cases hfind : (columns.take clustering).find? fun c ↦ !c.type.isPartitionable with
    | some c =>
      rw [hfind] at h
      cases h
    | none =>
      rw [hfind] at h
      exact (Outcome.pure_eq_ok.mp h).symm

theorem Consistent.of_new {database name baseDirectory : String} {columns : List Column}
    {clustering : Nat} (h : Table.new database name columns clustering baseDirectory = .ok t) :
    t.Consistent := by
  obtain ⟨hle, _, rfl, rfl⟩ := new_eq_ok h
  apply Consistent.of_empty rfl rfl
  · simp only [List.length_append, List.length_map, List.length_take, List.length_drop]
    omega
  · intro col k hlt hk
    have hlt' : col < (columns.take clustering).length := by
      rw [List.length_take]
      exact Nat.lt_min.mpr ⟨hlt, Nat.lt_of_lt_of_le hlt hle⟩
    rw [List.getElem?_append_left (by simpa using hlt'), List.getElem?_map,
      List.getElem?_eq_getElem hlt'] at hk
    rw [← Option.some.inj hk]
  · exact Int.le_refl _
  · rfl
  · rfl
  · rfl

theorem bucketed_empty (P : Literal → Prop) (col : Nat) : KeyColumn.Bucketed P col [] [] :=
  ⟨nofun, .nil, nofun, nofun, nofun⟩

theorem BucketedAt.of_empty {P : Literal → Prop} {n : Nat} (hpartitions : t.partitions = [])
    (hindex : t.index = .empty n) : t.BucketedAt P col := by
  intro c hc
  rw [hindex] at hc
  obtain ⟨hlt, rfl⟩ := List.getElem?_eq_some_iff.mp hc
  have hempty : (KeyIndex.empty n).columns[col] = {} := List.getElem_replicate _
  rw [hpartitions, hempty]
  exact bucketed_empty P col

theorem BucketedAt.change {P : Literal → Prop} {allowed : Partition → Prop}
    (h : t.BucketedAt P col) (ht : t.Consistent) (hP : Literal.OrderedOn P)
    (hallowed : ∀ p, allowed p → ∀ v, p.values[col]? = some v → P v)
    (hchange : Change allowed t t') : t'.BucketedAt P col := by
  intro c hc
  cases hchange with
  | @insert p hid hvalues hp =>
    obtain ⟨v, d, k, hv, hd, _, rfl, _⟩ := ht.column_of_update hvalues hc
    have hfresh : ∀ q ∈ t.partitions, q.id.val < p.id.val :=
      fun q hq ↦ Int.lt_of_le_of_lt (ht.inRange hq).2 hid
    exact (h d hd).add hP (hallowed p hp v hv) hv hfresh k.stats
  | remove hp =>
    obtain ⟨v, d, k, hv, hd, _, rfl, _⟩ := ht.column_of_update (ht.values hp) hc
    exact (h d hd).remove hP ht.nodup hp hv k.stats
  | reset => exact BucketedAt.of_empty rfl rfl c hc
  | other _ _ hpartitions hindex =>
    rw [hindex] at hc
    rw [hpartitions]
    exact h c hc

/-! ## Runs -/

section Run

variable {t₀ : Table} {ops : List TableOp} {database name baseDirectory : String}
  {columns : List Column} {clustering : Nat} {P : Literal → Prop} {v : Literal} {ids : IdSet}

theorem Consistent.run (h : t₀.Consistent) (ops : List TableOp) : (t₀.run ops).Consistent :=
  run_invariant Consistent (fun _ _ hchange ht ↦ ht.change hchange) h

theorem run_clustering (t₀ : Table) (ops : List TableOp) :
    (t₀.run ops).clustering = t₀.clustering := by
  refine run_invariant (·.clustering = t₀.clustering) (fun _ _ hchange h ↦ ?_) rfl
  cases hchange with
  | other hclustering => exact hclustering.trans h
  | _ => exact h

/-- The buckets of a column stay right while all values ever stored in it are in order. -/
theorem BucketedAt.run (h : t₀.BucketedAt (t₀.Stores ops col) col) (ht : t₀.Consistent)
    (hkeys : Literal.OrderedOn (t₀.Stores ops col)) :
    (t₀.run ops).BucketedAt (t₀.Stores ops col) col := by
  have hboth : (t₀.run ops).Consistent ∧ (t₀.run ops).BucketedAt (t₀.Stores ops col) col := by
    refine run_invariant (fun t ↦ t.Consistent ∧ t.BucketedAt (t₀.Stores ops col) col) ?_ ⟨ht, h⟩
    rintro t₁ t₂ hchange ⟨ht₁, h₁⟩
    exact ⟨ht₁.change hchange, h₁.change ht₁ hkeys (fun _ hp v hv ↦ hp col v hv) hchange⟩
  exact hboth.2

theorem bucketedAt_run
    (hnew : Table.new database name columns clustering baseDirectory = .ok t₀)
    (hkeys : Literal.OrderedOn (t₀.Stores ops col)) :
    (t₀.run ops).BucketedAt (t₀.Stores ops col) col := by
  have ht := Consistent.of_new hnew
  obtain ⟨_, _, _, rfl⟩ := new_eq_ok hnew
  exact BucketedAt.run (BucketedAt.of_empty rfl rfl) ht hkeys

/-- Whatever is called on a new table, its index, its statistics and its totals are what its
partitions give. A value that is looked up has to be in order with those ever stored. -/
theorem run_index_consistent
    (hnew : Table.new database name columns clustering baseDirectory = .ok t₀)
    (hkeys : ∀ col, Literal.OrderedOn (t₀.Stores ops col)) (hrun : t₀.run ops = t) :
    t.index.ids = t.partitions.map (·.id) ∧ t.index.ids.Nodup ∧
      Partition.defaultId ∉ t.index.ids ∧
      t.files = (t.partitions.map (·.fileCount)).sum ∧
      t.bytes = (t.partitions.map (·.size)).sum ∧
      ∀ col < clustering, ∃ c k, t.index.columns[col]? = some c ∧ t.columns[col]? = some k ∧
        (∀ v ids, Literal.OrderedOn (fun w ↦ t₀.Stores ops col w ∨ w = v) → v.isNull = false →
          (KeyColumn.bucket? v c.buckets = some ids ↔
            ids ≠ [] ∧ ids = Partition.idsWhere col (·.same v) t.partitions)) ∧
        (c.buckets.Pairwise fun a b ↦ a.1.compare b.1 = .lt) ∧
        (∀ e ∈ c.buckets, t₀.Stores ops col e.1 ∧ e.1.isNull = false) ∧
        c.nulls = Partition.idsWhere col (·.isNull) t.partitions ∧
        k.stats.nulls = c.nulls.length ∧
        k.stats.distinct = c.buckets.length + if c.nulls.isEmpty then 0 else 1 := by
  subst hrun
  have h : (t₀.run ops).Consistent := (Consistent.of_new hnew).run ops
  refine ⟨h.ids, h.ids ▸ h.nodup, ?_, h.files, h.bytes, fun col hcol ↦ ?_⟩
  · rw [h.ids]
    intro hmem
    obtain ⟨p, hp, hid⟩ := List.mem_map.mp hmem
    have hpos := (h.inRange hp).1
    rw [hid] at hpos
    exact Int.lt_irrefl _ hpos
  · have hclustering : (t₀.run ops).clustering = clustering := by
      rw [run_clustering]
      obtain ⟨_, _, _, rfl⟩ := new_eq_ok hnew
      rfl
    have hlt : col < (t₀.run ops).index.columns.length := by
      rw [h.columns, hclustering]
      exact hcol
    have hlt' : col < (t₀.run ops).columns.length :=
      Nat.lt_of_lt_of_le (hclustering.symm ▸ hcol) h.clustering
    have hc := List.getElem?_eq_getElem hlt
    have hk := List.getElem?_eq_getElem hlt'
    obtain ⟨hnulls, hcount, hdistinct⟩ := h.counted hc hk
    have hbucketed := bucketedAt_run hnew (hkeys col) _ hc
    refine ⟨_, _, hc, hk, fun v ids hv hnull ↦ ?_, hbucketed.ascending, fun e he ↦ hbucketed.key he,
      hnulls, hcount, hdistinct⟩
    exact (hbucketed.mono fun w hw ↦ .inl hw).bucket?_eq_some_iff hv (.inr rfl) hnull

end Run

/-- A table of visits by day. -/
def visits : Table where
  database := "db"
  name := "visits"
  columns := [{ name := "day", type := .int, position := 0, stats := .zero }]
  clustering := 1
  baseDirectory := "/visits"
  default := { id := Partition.defaultId, values := [], location := "/visits", format := .text }
  index := .empty 1

/-- A day comes twice and one is missing; the first partition goes. -/
def visitOps : List TableOp :=
  [.create [.integer 1] "/1" .text [], .create [.null] "/2" .text [],
    .create [.integer 1] "/3" .text [], .drop ⟨1⟩]

theorem new_visits :
    Table.new "db" "visits" [{ name := "day", type := .int, position := 0 }] 1 "/visits" =
      .ok visits := rfl

/-- No decimal is stored, so days are in order, along with any other that is no decimal. -/
theorem orderedOn_visits (col : Nat) {v : Literal} (hv : v.rank ≠ 4) :
    Literal.OrderedOn fun w ↦ visits.Stores visitOps col w ∨ w = v := by
  have hrank : ∀ done ∈ visitOps.inits, ∀ p ∈ (visits.run done).partitions, ∀ w ∈ p.values,
      w.rank ≠ 4 := by decide +kernel
  apply (Literal.orderedOn_scale 0).mono
  rintro _ (⟨done, hdone, p, hp, hw⟩ | rfl) d rfl
  · have hne := hrank done ((List.mem_inits _ _).mpr hdone) p hp _ (List.mem_of_getElem? hw)
    exact absurd rfl hne
  · exact absurd rfl hv

theorem run_index_consistent_visits :
    (∀ col, Literal.OrderedOn (visits.Stores visitOps col)) ∧
      (visits.run visitOps).index.ids = [⟨2⟩, ⟨3⟩] ∧
      ∃ c k, (visits.run visitOps).index.columns[0]? = some c ∧
        (visits.run visitOps).columns[0]? = some k ∧
        KeyColumn.bucket? (.integer 1) c.buckets = some [⟨3⟩] ∧ c.nulls = [⟨2⟩] ∧
        k.stats.nulls = 1 := by
  have hkeys (col : Nat) : Literal.OrderedOn (visits.Stores visitOps col) :=
    (orderedOn_visits col (v := .null) (by decide)).mono fun _ ↦ .inl
  obtain ⟨hids, _, _, _, _, hcolumns⟩ := run_index_consistent new_visits hkeys rfl
  obtain ⟨c, k, hc, hk, hbucket, _, _, hnulls, hcount, _⟩ := hcolumns 0 Nat.one_pos
  have hlive : (visits.run visitOps).partitions.map (·.id) = [⟨2⟩, ⟨3⟩] := by decide +kernel
  have hsame : [⟨3⟩] =
      Partition.idsWhere 0 (·.same (.integer 1)) (visits.run visitOps).partitions := by
    decide +kernel
  have hnull : Partition.idsWhere 0 (·.isNull) (visits.run visitOps).partitions = [⟨2⟩] := by
    decide +kernel
  refine ⟨hkeys, hids.trans hlive, c, k, hc, hk, ?_, hnulls.trans hnull, ?_⟩
  · have hone := orderedOn_visits 0 (v := .integer 1) (by decide)
    exact (hbucket _ _ hone rfl).mpr ⟨List.cons_ne_nil _ _, hsame⟩
  · rw [hcount, hnulls, hnull]
    rfl

end Table

end QueryPlanning
