import Mathlib.Data.List.Perm.Basic
import QueryPlanning.Proofs.Catalog.IndexConsistency
import QueryPlanning.Proofs.Scan.IterationOrder

/-!
# Complete listings

The statistics and the files of a table are listed by partition, in the order of key values and
then of identifiers. Whatever calls led to the table and whatever the order of iteration, each live
partition is listed once, and so is each of its files, and the last row of the statistics sums up
the rows above it although it is made from totals that the table keeps.
-/

namespace QueryPlanning

-- The sums of the core library, whatever else is imported.
attribute [local instance (high)] Zero.ofOfNat0

namespace Partition

variable {ι : Type} {R : ι → Literal → Prop} {columns : List ι} {p q r : Partition}
  {ps : List Partition}

/-- Strictly before another partition in the order of partitions. -/
def Before (p q : Partition) : Prop :=
  Literal.compareLists p.values q.values = .lt ∨
    Literal.compareLists p.values q.values = .eq ∧ p.id.val < q.id.val

theorem before_of_le (h : le p q = true) (hne : p.id ≠ q.id) : p.Before q := by
  refine (le_iff.mp h).imp_right fun ⟨heq, hle⟩ ↦ ⟨heq, ?_⟩
  refine Int.lt_iff_le_and_ne.mpr ⟨hle, fun hval ↦ ?_⟩
  exact hne (congrArg Id.mk hval)

theorem not_before_self (p : Partition) : ¬ p.Before p := by
  have hswap := Literal.compareLists_swap p.values p.values
  rintro (hvalues | ⟨-, hid⟩)
  · rw [hvalues] at hswap
    exact absurd hswap (by decide)
  · exact Int.lt_irrefl _ hid

/-- Exactly the partitions with a property, each once and in order. -/
structure Enumerates (ps : List Partition) (chosen : Partition → Prop) : Prop where
  mem (p : Partition) : p ∈ ps ↔ chosen p
  ordered : ps.Pairwise Before

theorem enumerates_sort (hR : ∀ i, Literal.OrderedOn (R i))
    (hkeys : ∀ p ∈ ps, List.Forall₂ R columns p.values) (hnodup : (ps.map (·.id)).Nodup) :
    Enumerates (sort ps) (· ∈ ps) where
  mem _ := mem_sort
  ordered := by
    have hids : ((sort ps).map (·.id)).Nodup :=
      ((List.mergeSort_perm ps le).map _).nodup_iff.mpr hnodup
    exact (pairwise_sort hR hkeys).imp₂ (fun _ _ ↦ before_of_le) (List.pairwise_map.mp hids)

end Partition

namespace Listing

open QueryPlanning.Partition (Before Enumerates)

variable {ι : Type} {R : ι → Literal → Prop} {columns : List ι} {p q : Partition}
  {ps : List Partition} {t : Table}

theorem mem_of_mem_distinct (h : p ∈ distinct ps) : p ∈ ps := by
  fun_induction distinct ps with
  | case1 q r rest _ ih => exact List.mem_cons.mpr ((List.mem_cons.mp (ih h)).imp_right (.tail _))
  | case2 q r rest _ ih => exact List.mem_cons.mpr ((List.mem_cons.mp h).imp_right ih)
  | case3 => exact h

theorem exists_mem_distinct (h : p ∈ ps) : ∃ q ∈ distinct ps, q.id = p.id := by
  fun_induction distinct ps generalizing p with
  | case1 q r rest heq ih =>
    rcases List.mem_cons.mp h with rfl | h
    · exact ih List.mem_cons_self
    · rcases List.mem_cons.mp h with rfl | h
      · rw [← heq]
        exact ih List.mem_cons_self
      · exact ih (List.mem_cons_of_mem _ h)
  | case2 q r rest _ ih =>
    rcases List.mem_cons.mp h with rfl | h
    · exact ⟨p, List.mem_cons_self, rfl⟩
    · obtain ⟨q', hq', hid⟩ := ih h
      exact ⟨q', List.mem_cons_of_mem _ hq', hid⟩
  | case3 => exact ⟨p, h, rfl⟩

/-- In order, all partitions of one identifier are next to each other. -/
theorem pairwise_distinct (hsame : ∀ p ∈ ps, ∀ q ∈ ps, p.id = q.id → p = q)
    (h : ps.Pairwise fun p q ↦ p.le q = true) : (distinct ps).Pairwise Before := by
  fun_induction distinct ps with
  | case1 p q rest _ ih =>
    have hsub : (p :: rest).Sublist (p :: q :: rest) := (List.sublist_cons_self q rest).cons_cons p
    exact ih (fun a ha b hb ↦ hsame a (hsub.subset ha) b (hsub.subset hb)) (h.sublist hsub)
  | case2 p q rest hne ih =>
    obtain ⟨hfirst, hrest⟩ := List.pairwise_cons.mp h
    refine List.pairwise_cons.mpr ⟨fun r hr ↦ ?_, ih (fun a ha b hb ↦
      hsame a (List.mem_cons_of_mem _ ha) b (List.mem_cons_of_mem _ hb)) hrest⟩
    have hr' := mem_of_mem_distinct hr
    apply Partition.before_of_le (hfirst r hr')
    intro hid
    -- The partition comes back after `q`, so each of the two is before the other.
    obtain rfl := hsame p List.mem_cons_self r (List.mem_cons_of_mem _ hr') hid
    rcases List.mem_cons.mp hr' with rfl | hlater
    · exact hne rfl
    · exact hne (Partition.id_eq_of_le (hfirst q List.mem_cons_self)
        ((List.pairwise_cons.mp hrest).1 p hlater))
  | case3 ps hshort =>
    cases ps with
    | nil => exact .nil
    | cons p ps =>
      cases ps with
      | nil => exact List.pairwise_singleton _ _
      | cons q rest => exact absurd rfl (hshort p q rest)

theorem enumerates_distinct (hR : ∀ i, Literal.OrderedOn (R i))
    (hkeys : ∀ p ∈ ps, List.Forall₂ R columns p.values)
    (hsame : ∀ p ∈ ps, ∀ q ∈ ps, p.id = q.id → p = q) :
    Enumerates (distinct (Partition.sort ps)) (· ∈ ps) where
  mem p := by
    refine ⟨fun h ↦ Partition.mem_sort.mp (mem_of_mem_distinct h), fun h ↦ ?_⟩
    obtain ⟨q, hq, hid⟩ := exists_mem_distinct (Partition.mem_sort.mpr h)
    rw [← hsame q (Partition.mem_sort.mp (mem_of_mem_distinct hq)) p h hid]
    exact hq
  ordered := pairwise_distinct
    (fun p hp q hq ↦ hsame p (Partition.mem_sort.mp hp) q (Partition.mem_sort.mp hq))
    (Partition.pairwise_sort hR hkeys)

/-- The row of one file of a partition. -/
def fileRow (t : Table) (e : Partition × DataFile) : List String :=
  [withoutSlash e.1.location ++ "/" ++ e.2.name, Size.textOfInt e.2.length, t.directoryOf e.1]

/-- Files come by partition, those of one partition by name. -/
def FileBefore (e f : Partition × DataFile) : Prop :=
  e.1.Before f.1 ∨ e.1 = f.1 ∧ e.2.name ≤ f.2.name

/-- One row for each file of the partitions with a property, in order. -/
def Lists (t : Table) (chosen : Partition → Prop) (rows : List (List String)) : Prop :=
  ∃ (ps : List Partition) (entries : List (Partition × DataFile)), Enumerates ps chosen ∧
    entries.Perm (ps.flatMap fun p ↦ p.files.map (p, ·)) ∧ entries.Pairwise FileBefore ∧
    rows = entries.map (fileRow t)

/-- The files of a partition by name. -/
def filesByName (p : Partition) : List DataFile := p.files.mergeSort fun f g ↦ f.name ≤ g.name

theorem pairwise_filesByName (p : Partition) :
    (filesByName p).Pairwise fun f g ↦ f.name ≤ g.name := by
  have htrans (f g h : DataFile) (hfg : decide (f.name ≤ g.name) = true)
      (hgh : decide (g.name ≤ h.name) = true) : decide (f.name ≤ h.name) = true :=
    decide_eq_true (String.le_trans (of_decide_eq_true hfg) (of_decide_eq_true hgh))
  have htotal (f g : DataFile) : (decide (f.name ≤ g.name) || decide (g.name ≤ f.name)) = true := by
    rw [Bool.or_eq_true, decide_eq_true_iff, decide_eq_true_iff]
    exact String.le_total f.name g.name
  exact (List.pairwise_mergeSort htrans htotal _).imp of_decide_eq_true

theorem lists_flatMap {chosen : Partition → Prop} (h : Enumerates ps chosen) :
    Lists t chosen (ps.flatMap (fileRows t)) := by
  refine ⟨ps, ps.flatMap fun p ↦ (filesByName p).map (p, ·), h, ?_, ?_, ?_⟩
  · exact List.Perm.flatMap_left ps fun p _ ↦ (List.mergeSort_perm p.files _).map _
  · refine List.pairwise_flatMap.mpr ⟨fun p _ ↦ ?_, h.ordered.imp fun hbefore ↦ ?_⟩
    · exact List.pairwise_map.mpr ((pairwise_filesByName p).imp fun hname ↦ .inr ⟨rfl, hname⟩)
    · intro e he f hf
      obtain ⟨_, _, rfl⟩ := List.mem_map.mp he
      obtain ⟨_, _, rfl⟩ := List.mem_map.mp hf
      exact .inl hbefore
  · rw [List.map_flatMap]
    have hrows (p : Partition) : fileRows t p = ((filesByName p).map (p, ·)).map (fileRow t) := by
      rw [List.map_map]
      rfl
    exact congrArg (ps.flatMap ·) (funext hrows)

theorem lists_ofPartitions (hR : ∀ i, Literal.OrderedOn (R i))
    (hkeys : ∀ p ∈ ps, List.Forall₂ R columns p.values)
    (hsame : ∀ p ∈ ps, ∀ q ∈ ps, p.id = q.id → p = q) :
    Lists t (· ∈ ps) (ofPartitions t ps).rows :=
  lists_flatMap (enumerates_distinct hR hkeys hsame)

/-- Of one partition whose files have different names there is one list only. -/
theorem Lists.eq_of_names {rows : List (List String)} {files : List DataFile}
    (h : Lists t (· ∈ [p]) rows) (hfiles : files.Perm p.files)
    (hnames : files.Pairwise fun f g ↦ f.name < g.name) :
    rows = files.map fun f ↦ fileRow t (p, f) := by
  obtain ⟨ps, entries, hps, hperm, hordered, rfl⟩ := h
  have hnodup : ps.Nodup := by
    refine hps.ordered.imp ?_
    rintro q _ hbefore rfl
    exact Partition.not_before_self q hbefore
  obtain rfl : ps = [p] := List.perm_singleton.mp
    ((List.perm_ext_iff_of_nodup hnodup (List.nodup_singleton p)).mpr hps.mem)
  rw [List.flatMap_singleton] at hperm
  have hinjective {f g : DataFile} (hf : f ∈ files) (hg : g ∈ files) (heq : f.name = g.name) :
      f = g :=
    List.inj_on_of_nodup_map (List.pairwise_map.mpr (hnames.imp String.ne_of_lt)) hf hg heq
  have hsorted : (files.map (p, ·)).Pairwise FileBefore :=
    List.pairwise_map.mpr (hnames.imp fun hlt ↦ .inr ⟨rfl, String.not_lt.mp (String.lt_asymm hlt)⟩)
  have hentries : entries = files.map (p, ·) := by
    refine List.Perm.eq_of_pairwise (fun e e' he he' hle hge ↦ ?_) hordered hsorted
      (hperm.trans (hfiles.map _).symm)
    obtain ⟨f, hf, rfl⟩ := List.mem_map.mp (hperm.mem_iff.mp he)
    obtain ⟨g, hg, rfl⟩ := List.mem_map.mp he'
    have hfg := hle.resolve_left (Partition.not_before_self p)
    have hgf := hge.resolve_left (Partition.not_before_self p)
    rw [hinjective (hfiles.mem_iff.mpr hf) hg (String.le_antisymm hfg.2 hgf.2)]
  rw [hentries, List.map_map]
  rfl

/-! ## Statistics -/

/-- Under a header stand the texts of the partitions and at last that of the total. -/
def HasColumn (l : Listing) (position : Nat) (header : String) (texts : List String)
    (total : String) : Prop :=
  l.columns[position]? = some header ∧ l.rows.map (·[position]?) = (texts ++ [total]).map some

/-- The statistics of some partitions of a table and their sums. -/
structure Tabulates (l : Listing) (t : Table) (ps : List Partition) : Prop where
  width {row : List String} : row ∈ l.rows → row.length = l.columns.length
  rows : ∃ total, l.rows = ps.map (partitionRow t.nullKey) ++ [total] ∧ total.head? = some "Total"
  files : l.HasColumn (t.clustering + 1) "#Files" (ps.map fun p : Partition ↦ toString p.fileCount)
    (toString (ps.map Partition.fileCount).sum)
  size : l.HasColumn (t.clustering + 2) "Size" (ps.map fun p : Partition ↦ Size.text p.size.toNat)
    (Size.text (ps.map Partition.size).sum.toNat)
  cached : l.HasColumn (t.clustering + 3) "Bytes Cached"
    (ps.map fun p : Partition ↦ cachedText p.cached p.cachedBytes)
    (if ∃ p ∈ ps, p.cached = true then
      Size.text ((ps.filter Partition.cached).map Partition.cachedBytes).sum.toNat
    else "NOT CACHED")

theorem getElem?_append_add {α : Type} {xs ys : List α} {n : Nat} (h : xs.length = n) (i : Nat) :
    (xs ++ ys)[n + i]? = ys[i]? := by
  rw [List.getElem?_append_right (by omega), h, Nat.add_sub_cancel_left]

/-- The first cells of a row are for the clustering columns. -/
theorem length_keys {n : Nat} (h : 0 < n) : ("Total" :: List.replicate (n - 1) "").length = n := by
  rw [List.length_cons, List.length_replicate]
  omega

/-- The sum over the partitions that are to be cached, if there are any. -/
theorem cachedText_filter (ps : List Partition) :
    cachedText (!(ps.filter (·.cached)).isEmpty) ((ps.filter (·.cached)).map (·.cachedBytes)).sum =
      if ∃ p ∈ ps, p.cached = true then
        Size.text ((ps.filter Partition.cached).map Partition.cachedBytes).sum.toNat
      else "NOT CACHED" := by
  have hempty : (!(ps.filter (·.cached)).isEmpty) = true ↔ ∃ p ∈ ps, p.cached = true := by
    rw [Bool.not_eq_true', List.isEmpty_eq_false_iff, Ne, List.filter_eq_nil_iff]
    simp only [not_forall, not_not, exists_prop]
  unfold cachedText
  simp only [hempty]
  rfl

/-- The totals and the columns of a table are what its partitions give. -/
structure Counted (t : Table) : Prop where
  names : t.clusteringColumns.length = t.clustering
  values {p : Partition} : p ∈ t.partitions → p.values.length = t.clustering
  files : t.files = (t.partitions.map (·.fileCount)).sum
  bytes : t.bytes = (t.partitions.map (·.size)).sum

theorem rows_ofStats (hpartitioned : t.isPartitioned = true) :
    (ofStats t).rows = t.sorted.map (partitionRow t.nullKey) ++ [totalRow t] :=
  if_pos hpartitioned

/-- The columns after the clustering columns. -/
theorem Counted.hasColumn (h : Counted t) (hpartitioned : t.isPartitioned = true) {i : Nat}
    {header total : String} {text : Partition → String}
    (hheader : ["#Rows", "#Files", "Size", "Bytes Cached", "Format", "Location"][i]? = some header)
    (htext : ∀ p : Partition, [toString p.rows, toString p.fileCount, Size.textOfInt p.size,
      cachedText p.cached p.cachedBytes, p.format.name, p.location][i]? = some (text p))
    (htotal : (totalRow t)[t.clustering + i]? = some total) :
    (ofStats t).HasColumn (t.clustering + i) header (t.sorted.map text) total := by
  constructor
  · have hnames : (t.clusteringColumns.map (·.name)).length = t.clustering :=
      (List.length_map _).trans h.names
    exact (getElem?_append_add hnames i).trans hheader
  · have hcells : (t.sorted.map (partitionRow t.nullKey)).map (·[t.clustering + i]?) =
        (t.sorted.map text).map some := by
      rw [List.map_map, List.map_map]
      apply List.map_congr_left
      intro p hp
      have hkeys : (p.values.map (·.keyText t.nullKey)).length = t.clustering :=
        (List.length_map _).trans (h.values (Partition.mem_sort.mp hp))
      exact (getElem?_append_add hkeys i).trans (htext p)
    rw [rows_ofStats hpartitioned, List.map_append, List.map_append, hcells]
    exact congrArg (_ ++ [·]) htotal

theorem Counted.tabulates (h : Counted t) (hpartitioned : t.isPartitioned = true) :
    (ofStats t).Tabulates t t.sorted := by
  have hkeys := length_keys (of_decide_eq_true hpartitioned : 0 < t.clustering)
  have hperm : t.sorted.Perm t.partitions := List.mergeSort_perm ..
  constructor
  case width =>
    intro row hrow
    rw [rows_ofStats hpartitioned] at hrow
    have hcolumns : (ofStats t).columns.length = t.clustering + 6 := by
      rw [ofStats, List.length_append, List.length_map, h.names]
      rfl
    rw [hcolumns]
    rcases List.mem_append.mp hrow with hrow | hrow
    · obtain ⟨p, hp, rfl⟩ := List.mem_map.mp hrow
      rw [partitionRow, List.length_append, List.length_map, h.values (Partition.mem_sort.mp hp)]
      rfl
    · rw [List.mem_singleton.mp hrow, totalRow, List.length_append, hkeys]
      rfl
  case rows => exact ⟨totalRow t, rows_ofStats hpartitioned, rfl⟩
  case files =>
    refine h.hasColumn hpartitioned rfl (fun _ ↦ rfl) ((getElem?_append_add hkeys 1).trans ?_)
    rw [(hperm.map _).sum_eq, ← h.files]
    rfl
  case size =>
    refine h.hasColumn hpartitioned rfl (fun _ ↦ rfl) ((getElem?_append_add hkeys 2).trans ?_)
    rw [(hperm.map _).sum_eq, ← h.bytes]
    rfl
  case cached =>
    refine h.hasColumn hpartitioned rfl (fun _ ↦ rfl) ((getElem?_append_add hkeys 3).trans ?_)
    exact congrArg some (cachedText_filter t.sorted)

theorem Counted.of_shuffled {s : Table} (h : t.Consistent) (hs : t.Shuffled s) : Counted s where
  names := by
    rw [hs.clusteringColumns, hs.clustering]
    exact List.length_take_of_le h.clustering
  values hp := by
    rw [hs.clustering]
    exact h.values (hs.partitions.mem_iff.mp hp)
  files := by rw [hs.files, h.files, (hs.partitions.map _).sum_eq]
  bytes := by rw [hs.bytes, h.bytes, (hs.partitions.map _).sum_eq]

end Listing

namespace Table

open Listing (Lists)
open QueryPlanning.Partition (Enumerates)

variable {s t t₀ : Table} {ops : List TableOp} {p : Partition}

/-- Some partition has a value in a column. -/
def HasKey (t : Table) (col : Nat) (v : Literal) : Prop :=
  ∃ p ∈ t.partitions, p.values[col]? = some v

theorem Consistent.hasKey (h : t.Consistent) (hp : p ∈ t.partitions) :
    List.Forall₂ t.HasKey (List.range t.clustering) p.values := by
  refine List.forall₂_iff_get.mpr ⟨?_, fun col hcol hcol' ↦ ⟨p, hp, ?_⟩⟩
  · rw [List.length_range, h.values hp]
  · rw [List.get_eq_getElem, List.getElem_range]
    exact List.getElem?_eq_getElem hcol'

theorem mem_of_mem_ofSpec {spec : List KeyValue} (hp : p ∈ t.ofSpec spec) : p ∈ t.partitions := by
  unfold ofSpec at hp
  split at hp
  · exact (List.mem_filter.mp hp).1
  · exact absurd hp List.not_mem_nil

/-- Whatever is called on a new table, and in whatever order its partitions come, as long as the
values of each column are in total order: the statistics have one row for each live partition in
order and their totals are the sums of the rows, the list of files has all files of all live
partitions in order, and the list of files for some specifications has those of the partitions that
these find, once each. -/
theorem listings_run {database name baseDirectory : String} {columns : List Column}
    {clustering : Nat} (hnew : Table.new database name columns clustering baseDirectory = .ok t₀)
    (hrun : t₀.run ops = t)
    (hkeys : ∀ col, Literal.OrderedOn (t.HasKey col))
    (hs : t.Shuffled s) (specs : List (List KeyValue)) :
    (s.isPartitioned = true →
        Enumerates s.sorted (· ∈ t.partitions) ∧ (Listing.ofStats s).Tabulates s s.sorted) ∧
      Lists s (· ∈ t.partitions) (Listing.ofFiles s).rows ∧
      Lists s (fun p ↦ ∃ spec ∈ specs, s.ofSpec? spec = some p)
        (Listing.ofSelectedFiles s specs).rows := by
  subst hrun
  have h : (t₀.run ops).Consistent := (Consistent.of_new hnew).run ops
  have hcounted := Listing.Counted.of_shuffled h hs
  have hnodup : (s.partitions.map (·.id)).Nodup := (hs.partitions.map _).nodup_iff.mpr h.nodup
  have hlive : (· ∈ s.partitions) = (· ∈ (t₀.run ops).partitions) :=
    funext fun _ ↦ propext hs.partitions.mem_iff
  have hfits : ∀ p ∈ s.partitions,
      List.Forall₂ (t₀.run ops).HasKey (List.range (t₀.run ops).clustering) p.values :=
    fun p hp ↦ h.hasKey (hs.partitions.mem_iff.mp hp)
  have hlists {ps : List Partition} (hps : ∀ p ∈ ps, p ∈ s.partitions) :
      Lists s (· ∈ ps) (Listing.ofPartitions s ps).rows :=
    Listing.lists_ofPartitions hkeys (fun p hp ↦ hfits p (hps p hp))
      fun p hp q hq hid ↦ Partition.eq_of_id hnodup (hps q hq) (hps p hp) hid
  refine ⟨fun hpartitioned ↦ ⟨?_, hcounted.tabulates hpartitioned⟩, ?_, ?_⟩
  · rw [← hlive]
    exact Partition.enumerates_sort hkeys hfits hnodup
  · have hsorted : (· ∈ s.sorted) = (· ∈ s.partitions) :=
      funext fun _ ↦ propext Partition.mem_sort
    rw [← hlive, ← hsorted]
    exact hlists fun p hp ↦ Partition.mem_sort.mp hp
  · have hspecs : (· ∈ s.ofSpecs specs) = fun p ↦ ∃ spec ∈ specs, s.ofSpec? spec = some p :=
      funext fun _ ↦ propext List.mem_filterMap
    rw [← hspecs]
    refine hlists fun p hp ↦ ?_
    obtain ⟨spec, -, hfound⟩ := List.mem_filterMap.mp hp
    exact mem_of_mem_ofSpec (List.mem_of_mem_head? hfound)

/-- Its files do not come by name. -/
def secondDay : Partition where
  id := ⟨1⟩
  values := [.integer 2]
  location := "/2/"
  format := .text
  files := [.named "b" 10 0 [], .named "a" 20 0 []]

/-- Two days with files, the later one first; the earlier one is to be cached. -/
def filedOps : List TableOp :=
  [.add secondDay,
    .add { id := ⟨2⟩, values := [.integer 1], location := "/1", format := .text, cached := true,
           files := [.named "c" 30 0 []] }]

/-- A day that is asked for twice is listed once, and its files by name. -/
theorem listings_run_filed :
    let t := visits.run filedOps
    let s := { t with partitions := t.partitions.reverse }
    let day : List KeyValue := [⟨"DAY", .integer 2⟩]
    Enumerates s.sorted (· ∈ t.partitions) ∧
      ((Listing.ofStats s).rows.map (·[2]?)).getLast? = some (some "3") ∧
      Lists s (· ∈ t.partitions) (Listing.ofFiles s).rows ∧
      (Listing.ofSelectedFiles s [day, day]).rows =
        [["/2/a", "20.00B", "day=2"], ["/2/b", "10.00B", "day=2"]] := by
  intro t s day
  have hrank : ∀ p ∈ t.partitions, ∀ v ∈ p.values, v.rank ≠ 4 := by decide +kernel
  have hkeys (col : Nat) : Literal.OrderedOn (t.HasKey col) := by
    apply (Literal.orderedOn_scale 0).mono
    rintro _ ⟨p, hp, hv⟩ d rfl
    exact absurd rfl (hrank p hp _ (List.mem_of_getElem? hv))
  have hs : t.Shuffled s :=
    ⟨t.partitions.reverse_perm, .refl _, rfl, rfl, rfl, rfl, rfl, rfl, rfl, rfl, rfl, rfl, rfl⟩
  have hpartitioned : s.isPartitioned = true := by decide +kernel
  have hcount : (s.partitions.map Partition.fileCount).sum = 3 := by decide +kernel
  have hfound : s.ofSpec? day = some secondDay := rfl
  obtain ⟨hstats, hfiles, hselected⟩ := listings_run new_visits rfl hkeys hs [day, day]
  obtain ⟨henumerates, htabulates⟩ := hstats hpartitioned
  have honly : (fun p ↦ ∃ spec ∈ [day, day], s.ofSpec? spec = some p) = (· ∈ [secondDay]) := by
    simp [hfound, eq_comm]
  refine ⟨henumerates, ?_, hfiles, ?_⟩
  · have hsum : (s.sorted.map Partition.fileCount).sum = 3 :=
      (((List.mergeSort_perm s.partitions _).map _).sum_eq).trans hcount
    have hcells := htabulates.files.2
    rw [hsum] at hcells
    refine (congrArg List.getLast? hcells).trans ?_
    rw [List.getLast?_map, List.getLast?_concat]
    rfl
  · rw [honly] at hselected
    have hfiles : secondDay.files.reverse.Perm secondDay.files := List.reverse_perm _
    exact (hselected.eq_of_names hfiles (by decide +kernel)).trans (by decide +kernel)

end Table

end QueryPlanning
