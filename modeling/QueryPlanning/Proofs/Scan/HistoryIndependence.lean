import Mathlib.Data.List.Sort
import QueryPlanning.Proofs.Scan.IterationOrder

/-!
# Answers and the history of a table

What a table keeps besides its partitions was counted along with every call: the buckets of the key
index, the statistics and the totals. A bucket even keeps the very key that it was made for. Still
two runs that end with the same partitions end with the same of all this, as long as the values of
each column are of the kind of the column: then values that count as one key are equal.
-/

namespace QueryPlanning

open Relation (ReflTransGen)

/-- A null or a literal of the kind of a type. -/
def Literal.isOf : ColumnType → Literal → Bool
  | _, .null => true
  | .boolean, .boolean _ => true
  | .tinyInt, .integer _ | .smallInt, .integer _ | .int, .integer _ | .bigInt, .integer _ => true
  | .float, .double _ | .double, .double _ => true
  | .decimal _ _, .decimal _ => true
  | .string, .string _ | .varchar _, .string _ | .char _, .string _ => true
  | _, _ => false

/-- A column of decimals is the only one for decimals. -/
theorem Literal.exists_of_isOf_decimal {type : ColumnType} {d : Decimal}
    (h : Literal.isOf type (.decimal d) = true) :
    ∃ precision scale, type = .decimal precision scale := by
  cases type with
  | decimal precision scale => exact ⟨precision, scale, rfl⟩
  | _ => cases h

namespace KeyColumn.Bucketed

variable {P : Literal → Prop} {col : Nat} {ps : List Partition}
  {buckets buckets' : List (Literal × IdSet)}

theorem subset (h : Bucketed P col ps buckets) (h' : Bucketed P col ps buckets')
    (hexact : ∀ v w, P v → P w → v.same w = true → v = w) : buckets ⊆ buckets' := by
  intro e he
  obtain ⟨hne, hids⟩ := h.ids he
  obtain ⟨hkey, hnull⟩ := h.key he
  obtain ⟨id, hid⟩ := List.exists_mem_of_ne_nil _ hne
  rw [hids] at hid
  obtain ⟨p, hp, -, v, hv, hsame⟩ := Partition.mem_idsWhere.mp hid
  obtain rfl := hexact v e.1 (h.stored hp hv) hkey hsame
  obtain ⟨e', he', hsame'⟩ := h'.bucket hp hv hnull
  have hfst : e.1 = e'.1 := hexact _ _ hkey (h'.key he').1 hsame'
  have hsnd : e.2 = e'.2 := by rw [hids, (h'.ids he').2, hfst]
  rwa [Prod.ext hfst hsnd]

/-- There is one way to put partitions into buckets. -/
theorem unique (h : Bucketed P col ps buckets) (h' : Bucketed P col ps buckets')
    (hexact : ∀ v w, P v → P w → v.same w = true → v = w) : buckets = buckets' := by
  have hirrefl : Std.Irrefl fun a b : Literal × IdSet ↦ a.1.compare b.1 = .lt := by
    refine ⟨fun a ha ↦ ?_⟩
    have heq : a.1.compare a.1 = .eq := Std.ReflCmp.compare_self
    rw [heq] at ha
    cases ha
  have hantisymm : Std.Antisymm fun a b : Literal × IdSet ↦ a.1.compare b.1 = .lt := by
    refine ⟨fun a b hab hba ↦ ?_⟩
    rw [Literal.compare_swap, hba] at hab
    cases hab
  exact h.ascending.eq_of_mem_iff h'.ascending fun e ↦
    ⟨fun he ↦ h.subset h' hexact he, fun he ↦ h'.subset h hexact he⟩

end KeyColumn.Bucketed

namespace Table

variable {t t' t₀ t₁ t₂ s₁ s₂ : Table} {ops ops₁ ops₂ : List TableOp} {col : Nat}

/-- Partitions in the order of their identifiers are known by which they are. -/
theorem Consistent.partitions_ext (h₁ : t₁.Consistent) (h₂ : t₂.Consistent)
    (hmem : ∀ p, p ∈ t₁.partitions ↔ p ∈ t₂.partitions) : t₁.partitions = t₂.partitions := by
  have hirrefl : Std.Irrefl fun p q : Partition ↦ p.id.val < q.id.val :=
    ⟨fun p ↦ Int.lt_irrefl p.id.val⟩
  have hantisymm : Std.Antisymm fun p q : Partition ↦ p.id.val < q.id.val :=
    ⟨fun p q hpq hqp ↦ absurd hpq (Int.lt_asymm hqp)⟩
  exact h₁.ascending.eq_of_mem_iff h₂.ascending hmem

/-- A table is consistent, and its buckets are right for values that fit their columns. -/
structure Fitting (t : Table) : Prop where
  consistent : t.Consistent
  bucketed {col : Nat} {type : ColumnType} : t.keyTypes[col]? = some type →
    t.BucketedAt (Literal.Fits type) col

/-- A clustering column has an index and statistics. -/
theorem Consistent.column (h : t.Consistent) (hcol : col < t.clustering) :
    ∃ (c : KeyColumn) (s : ColumnStats) (type : ColumnType), t.index.columns[col]? = some c ∧
      t.stats[col]? = some s ∧ t.keyTypes[col]? = some type ∧ c.Counted col t.partitions s := by
  have hlt : col < t.columns.length := Nat.lt_of_lt_of_le hcol h.clustering
  have hc := List.getElem?_eq_getElem (h.columns.symm ▸ hcol)
  have hk := List.getElem?_eq_getElem hlt
  have hclustered := (List.getElem?_take_of_lt hcol).trans hk
  refine ⟨_, _, t.columns[col].type, hc, ?_, ?_, h.counted hc hk⟩
  · rw [stats, List.getElem?_map, clusteringColumns, hclustered, Option.map_some]
  · rw [keyTypes, List.getElem?_map, clusteringColumns, hclustered, Option.map_some]

theorem Fitting.column_ext (h₁ : t₁.Fitting) (h₂ : t₂.Fitting)
    (hpartitions : t₁.partitions = t₂.partitions) (htypes : t₁.keyTypes = t₂.keyTypes)
    (hcol₁ : col < t₁.clustering) (hcol₂ : col < t₂.clustering) :
    t₁.index.columns[col]? = t₂.index.columns[col]? ∧ t₁.stats[col]? = t₂.stats[col]? := by
  obtain ⟨c₁, stats₁, type, hc₁, hstats₁, htype, hcounted₁⟩ := h₁.consistent.column hcol₁
  obtain ⟨c₂, stats₂, _, hc₂, hstats₂, _, hcounted₂⟩ := h₂.consistent.column hcol₂
  have hbuckets₁ := h₁.bucketed htype c₁ hc₁
  have hbuckets₂ := h₂.bucketed (htypes ▸ htype) c₂ hc₂
  rw [hpartitions] at hbuckets₁ hcounted₁
  have hbuckets : c₁.buckets = c₂.buckets :=
    hbuckets₁.unique hbuckets₂ fun _ _ hv hw hsame ↦ hv.eq_of_same hw hsame
  have hnulls : c₁.nulls = c₂.nulls := hcounted₁.nulls.trans hcounted₂.nulls.symm
  have hcount : stats₁.nulls = stats₂.nulls := by
    rw [hcounted₁.nullCount, hcounted₂.nullCount, hnulls]
  have hdistinct : stats₁.distinct = stats₂.distinct := by
    rw [hcounted₁.distinct, hcounted₂.distinct, hnulls, hbuckets]
  rw [hc₁, hc₂, hstats₁, hstats₂]
  exact ⟨congrArg some (congrArg₂ KeyColumn.mk hbuckets hnulls),
    congrArg some (congrArg₂ ColumnStats.mk hcount hdistinct)⟩

theorem Consistent.length_stats (h : t.Consistent) : t.stats.length = t.clustering := by
  rw [stats, List.length_map, clusteringColumns, List.length_take_of_le h.clustering]

theorem Fitting.index_ext (h₁ : t₁.Fitting) (h₂ : t₂.Fitting)
    (hpartitions : t₁.partitions = t₂.partitions) (htypes : t₁.keyTypes = t₂.keyTypes)
    (hclustering : t₁.clustering = t₂.clustering) :
    t₁.index = t₂.index ∧ t₁.stats = t₂.stats := by
  have hcolumn (col : Nat) :
      t₁.index.columns[col]? = t₂.index.columns[col]? ∧ t₁.stats[col]? = t₂.stats[col]? := by
    by_cases hcol : col < t₁.clustering
    · exact h₁.column_ext h₂ hpartitions htypes hcol (hclustering ▸ hcol)
    · have hcol₁ : t₁.clustering ≤ col := Nat.le_of_not_lt hcol
      have hcol₂ : t₂.clustering ≤ col := hclustering ▸ hcol₁
      rw [List.getElem?_eq_none (h₁.consistent.columns.symm ▸ hcol₁),
        List.getElem?_eq_none (h₂.consistent.columns.symm ▸ hcol₂),
        List.getElem?_eq_none (h₁.consistent.length_stats.symm ▸ hcol₁),
        List.getElem?_eq_none (h₂.consistent.length_stats.symm ▸ hcol₂)]
      exact ⟨rfl, rfl⟩
  have hcolumns : t₁.index.columns = t₂.index.columns := List.ext_getElem? fun col ↦ (hcolumn col).1
  have hids : t₁.index.ids = t₂.index.ids := by
    rw [h₁.consistent.ids, h₂.consistent.ids, hpartitions]
  exact ⟨congrArg₂ KeyIndex.mk hcolumns hids, List.ext_getElem? fun col ↦ (hcolumn col).2⟩

/-- A column without its statistics. -/
def unstated (c : Column) : Column := { c with stats := .zero }

/-- All of the schema but the statistics of the clustering columns is the same. -/
structure Schema (t t' : Table) : Prop where
  database : t'.database = t.database
  name : t'.name = t.name
  baseDirectory : t'.baseDirectory = t.baseDirectory
  clustering : t'.clustering = t.clustering
  columns : t'.columns.map unstated = t.columns.map unstated
  others : t'.columns.drop t.clustering = t.columns.drop t.clustering

theorem Schema.refl (t : Table) : t.Schema t := ⟨rfl, rfl, rfl, rfl, rfl, rfl⟩

theorem Schema.trans (h : t.Schema t₁) (h' : t₁.Schema t') : t.Schema t' where
  database := h'.database.trans h.database
  name := h'.name.trans h.name
  baseDirectory := h'.baseDirectory.trans h.baseDirectory
  clustering := h'.clustering.trans h.clustering
  columns := h'.columns.trans h.columns
  others := by
    have hothers := h'.others
    rw [h.clustering] at hothers
    exact hothers.trans h.others

theorem drop_withStats {columns : List Column} {stats : List ColumnStats} {n : Nat}
    (h : stats.length ≤ n) : (withStats columns stats).drop n = columns.drop n := by
  induction columns generalizing stats n with
  | nil => rfl
  | cons c cs ih =>
    cases stats with
    | nil => rfl
    | cons s ss =>
      cases n with
      | zero => cases h
      | succ n => exact ih (Nat.le_of_succ_le_succ h)

theorem schema_of_withStats {stats : List ColumnStats} (hlength : stats.length ≤ t.clustering)
    (hdatabase : t'.database = t.database) (hname : t'.name = t.name)
    (hbaseDirectory : t'.baseDirectory = t.baseDirectory)
    (hclustering : t'.clustering = t.clustering)
    (hcolumns : t'.columns = withStats t.columns stats) : t.Schema t' where
  database := hdatabase
  name := hname
  baseDirectory := hbaseDirectory
  clustering := hclustering
  columns := hcolumns ▸ map_withStats (fun _ _ ↦ rfl) t.columns stats
  others := hcolumns ▸ drop_withStats hlength

theorem length_stats_le (t : Table) : t.stats.length ≤ t.clustering := by
  rw [stats, List.length_map]
  exact List.length_take_le ..

theorem schema_insert (t : Table) (p : Partition) : t.Schema (t.insert p) :=
  schema_of_withStats ((KeyIndex.length_update ..).2.trans_le t.length_stats_le) rfl rfl rfl rfl rfl

theorem clearing_schema : Clearing Schema where
  remove _ :=
    schema_of_withStats ((KeyIndex.length_update ..).2.trans_le (length_stats_le _))
      rfl rfl rfl rfl rfl
  reset := schema_of_withStats ((List.length_map _).trans_le (List.length_take_le ..))
    rfl rfl rfl rfl rfl
  setDefault := ⟨rfl, rfl, rfl, rfl, rfl, rfl⟩
  nextId := ⟨rfl, rfl, rfl, rfl, rfl, rfl⟩

theorem schema_of_steps (h : ReflTransGen Schema t t') : t.Schema t' := by
  induction h with
  | refl => exact .refl t
  | tail _ hlast ih => exact ih.trans hlast

theorem schema_apply (t : Table) (op : TableOp) : t.Schema (op.apply t) := by
  have hreaches : Reaches Schema t (op.apply t) := by
    apply clearing_schema.apply
    rintro nullKey nullColumn hosts rows cached rfl
    exact ⟨rfl, rfl, rfl, rfl, rfl, rfl⟩
  obtain ⟨t₁, hsteps, hend | ⟨q, -, -, -, hend⟩⟩ := hreaches
  · rw [hend]
    exact schema_of_steps hsteps
  · rw [hend]
    exact (schema_of_steps hsteps).trans (t₁.schema_insert q)

theorem schema_run (t : Table) (ops : List TableOp) : t.Schema (t.run ops) := by
  induction ops using List.reverseRecOn with
  | nil => exact .refl t
  | append_singleton done op ih =>
    rw [run_append]
    exact ih.trans ((t.run done).schema_apply op)

theorem eq_of_unstated {cs ds : List Column} (h : cs.map unstated = ds.map unstated)
    (hstats : cs.map (·.stats) = ds.map (·.stats)) : cs = ds := by
  have hinjective : Function.Injective fun c : Column ↦ (unstated c, c.stats) := by
    intro c d hcd
    obtain ⟨hrest, hstats⟩ := Prod.ext_iff.mp hcd
    cases c
    cases d
    simp only [unstated, Column.mk.injEq] at hrest hstats ⊢
    simp only [hrest, hstats, and_true]
  apply List.map_injective_iff.mpr hinjective
  calc cs.map (fun c ↦ (unstated c, c.stats))
      = (cs.map unstated).zip (cs.map (·.stats)) := List.zip_map'.symm
    _ = (ds.map unstated).zip (ds.map (·.stats)) := by rw [h, hstats]
    _ = ds.map (fun c ↦ (unstated c, c.stats)) := List.zip_map'

/-- A schema and statistics make up the columns. -/
theorem Schema.columns_ext (h₁ : t₀.Schema t₁) (h₂ : t₀.Schema t₂) (hstats : t₁.stats = t₂.stats) :
    t₁.columns = t₂.columns := by
  have htake : t₁.columns.take t₀.clustering = t₂.columns.take t₀.clustering := by
    apply eq_of_unstated
    · rw [List.map_take, List.map_take, h₁.columns, h₂.columns]
    · rw [stats, stats, clusteringColumns, clusteringColumns, h₁.clustering,
        h₂.clustering] at hstats
      exact hstats
  rw [← List.take_append_drop t₀.clustering t₁.columns, htake, h₁.others, ← h₂.others,
    List.take_append_drop]

/-- All values that come in during a run are nulls or of the kinds of their columns. -/
def OwnKinds (t : Table) (ops : List TableOp) : Prop :=
  ∀ col type v, t.keyTypes[col]? = some type → t.Stores ops col v → Literal.isOf type v = true

theorem OwnKinds.fits (h : t.OwnKinds ops) (hempty : t.partitions = []) {type : ColumnType}
    {v : Literal} (htype : t.keyTypes[col]? = some type) (hv : t.Stores ops col v) :
    Literal.Fits type v := by
  rintro d rfl
  obtain ⟨precision, scale, rfl⟩ := Literal.exists_of_isOf_decimal (h col type _ htype hv)
  obtain ⟨done, _, p, hp, hd⟩ := hv
  exact ⟨precision, by rw [scaled_run hempty done p hp col precision scale d htype hd]⟩

section Run

variable {database name baseDirectory : String} {columns : List Column} {clustering : Nat}

theorem fitting_run (hnew : Table.new database name columns clustering baseDirectory = .ok t)
    (hkinds : t.OwnKinds ops) : (t.run ops).Fitting := by
  have hempty : t.partitions = [] := by
    obtain ⟨_, _, _, rfl⟩ := new_eq_ok hnew
    rfl
  refine ⟨(Consistent.of_new hnew).run ops, fun {col type} htype c hc ↦ ?_⟩
  rw [run_keyTypes] at htype
  have hfits (v : Literal) (hv : t.Stores ops col v) : Literal.Fits type v :=
    hkinds.fits hempty htype hv
  exact (bucketedAt_run hnew ((Literal.orderedOn_fits type).mono hfits) c hc).mono hfits

theorem fits_run (hnew : Table.new database name columns clustering baseDirectory = .ok t)
    (hkinds : t.OwnKinds ops) : ∀ p ∈ (t.run ops).partitions, p.Fits t.keyTypes := by
  intro p hp
  have hconsistent := Consistent.of_new hnew
  have hempty : t.partitions = [] := by
    obtain ⟨_, _, _, rfl⟩ := new_eq_ok hnew
    rfl
  apply List.forall₂_iff_get.mpr
  constructor
  · rw [(hconsistent.run ops).values hp, run_clustering, keyTypes, List.length_map,
      clusteringColumns, List.length_take_of_le hconsistent.clustering]
  · intro col htype hv
    apply hkinds.fits hempty (List.getElem?_eq_getElem htype)
    exact ⟨ops, List.prefix_refl ops, p, hp, List.getElem?_eq_getElem hv⟩

/-- Two runs on a new table that end with the same partitions end with the same index and the same
answers, in whatever order partitions and sets are gone through. What a table is told from outside,
such as the text that stands for null, has to agree as well. -/
theorem run_answers_eq (hnew : Table.new database name columns clustering baseDirectory = .ok t₀)
    (hrun₁ : t₀.run ops₁ = t₁) (hrun₂ : t₀.run ops₂ = t₂) (hkinds₁ : t₀.OwnKinds ops₁)
    (hkinds₂ : t₀.OwnKinds ops₂) (hlive : ∀ p, p ∈ t₁.partitions ↔ p ∈ t₂.partitions)
    (hdefault : t₁.default = t₂.default) (hrows : t₁.rows = t₂.rows)
    (hcached : t₁.cached = t₂.cached) (hnullKey : t₁.nullKey = t₂.nullKey) :
    t₁.index = t₂.index ∧
      ∀ s₁ s₂, t₁.Shuffled s₁ → t₂.Shuffled s₂ → s₁.SameAnswers s₂ := by
  subst hrun₁ hrun₂
  have hfitting₁ := fitting_run hnew hkinds₁
  have hfitting₂ := fitting_run hnew hkinds₂
  have hconsistent₁ := hfitting₁.consistent
  have hconsistent₂ := hfitting₂.consistent
  have hschema₁ := t₀.schema_run ops₁
  have hschema₂ := t₀.schema_run ops₂
  have hpartitions := hconsistent₁.partitions_ext hconsistent₂ hlive
  have htypes : (t₀.run ops₁).keyTypes = (t₀.run ops₂).keyTypes := by
    rw [run_keyTypes, run_keyTypes]
  have hclustering : (t₀.run ops₁).clustering = (t₀.run ops₂).clustering :=
    hschema₁.clustering.trans hschema₂.clustering.symm
  obtain ⟨hindex, hstats⟩ := hfitting₁.index_ext hfitting₂ hpartitions htypes hclustering
  have hsame : (t₀.run ops₁).Shuffled (t₀.run ops₂) := {
    partitions := hpartitions ▸ .refl _
    index := hindex ▸ .refl _
    database := hschema₂.database.trans hschema₁.database.symm
    name := hschema₂.name.trans hschema₁.name.symm
    columns := (hschema₁.columns_ext hschema₂ hstats).symm
    clustering := hclustering.symm
    baseDirectory := hschema₂.baseDirectory.trans hschema₁.baseDirectory.symm
    nullKey := hnullKey.symm
    default := hdefault.symm
    rows := hrows.symm
    cached := hcached.symm
    files := by rw [hconsistent₁.files, hconsistent₂.files, hpartitions]
    bytes := by rw [hconsistent₁.bytes, hconsistent₂.bytes, hpartitions] }
  have hfits₁ := fits_run hnew hkinds₁
  have hfits₂ := fits_run hnew hkinds₂
  refine ⟨hindex, fun s₁ s₂ hs₁ hs₂ ↦ ?_⟩
  have hanswers₁ := hs₁.sameAnswers hfits₁ hconsistent₁.nodup
  have hanswers₂ := hs₂.sameAnswers hfits₂ hconsistent₂.nodup
  exact (hanswers₁.symm.trans (hsame.sameAnswers hfits₁ hconsistent₁.nodup)).trans hanswers₂

end Run

/-- Another way to the partitions that `visitOps` leaves, with a call that is refused. -/
def visitDetour : List TableOp :=
  [.create [] "/1" .text [], .create [.null] "/2" .text [], .create [.integer 1] "/3" .text [],
    .create [.integer 7] "/4" .text [], .drop ⟨4⟩]

theorem ownKinds_of_prefixes {ops : List TableOp}
    (h : ∀ done ∈ ops.inits, ∀ p ∈ (visits.run done).partitions, ∀ v ∈ p.values,
      Literal.isOf .int v = true) : visits.OwnKinds ops := by
  rintro col type v htype ⟨done, hdone, p, hp, hv⟩
  have htypes : visits.keyTypes = [.int] := rfl
  rw [htypes] at htype
  obtain rfl := List.mem_singleton.mp (List.mem_of_getElem? htype)
  exact h done ((List.mem_inits _ _).mpr hdone) p hp v (List.mem_of_getElem? hv)

theorem run_answers_eq_visits :
    (visits.run visitOps).index = (visits.run visitDetour).index ∧
      (visits.run visitOps).SameAnswers
        { visits.run visitDetour with
          partitions := (visits.run visitDetour).partitions.reverse } := by
  have hkinds₁ : visits.OwnKinds visitOps := ownKinds_of_prefixes (by decide +kernel)
  have hkinds₂ : visits.OwnKinds visitDetour := ownKinds_of_prefixes (by decide +kernel)
  have hpartitions : (visits.run visitOps).partitions = (visits.run visitDetour).partitions := rfl
  obtain ⟨hindex, hanswers⟩ := run_answers_eq new_visits rfl rfl
    hkinds₁ hkinds₂ (fun p ↦ by rw [hpartitions]) rfl rfl rfl rfl
  refine ⟨hindex, hanswers _ _ ?_ ?_⟩
  · exact ⟨.refl _, .refl _, rfl, rfl, rfl, rfl, rfl, rfl, rfl, rfl, rfl, rfl, rfl⟩
  · exact ⟨List.reverse_perm _, .refl _, rfl, rfl, rfl, rfl, rfl, rfl, rfl, rfl, rfl, rfl, rfl⟩

end Table

end QueryPlanning
