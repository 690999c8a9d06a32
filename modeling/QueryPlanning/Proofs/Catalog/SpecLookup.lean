import QueryPlanning.Proofs.Catalog.KeyLookup
import QueryPlanning.Proofs.Scan.IterationOrder

/-!
# Finding a partition by a specification

A specification leads to the partitions that have its text in every clustering column, provided that
it names each of these columns once. Its other entries and the order of its entries do not matter.
Which of these partitions is found depends on the order of iteration, so for each of them there is
an order in which it is found; the one that is found is the one that is dropped.
-/

namespace QueryPlanning.Table

open Text (sameName)

variable {s t t₀ : Table} {p : Partition} {c : Column} {v : Literal} {values : List Literal}
  {spec spec' : List KeyValue} {ops : List TableOp}

/-- There are clustering columns, and each has one entry. -/
def NamesOnce (t : Table) (spec : List KeyValue) : Prop :=
  0 < t.clustering ∧
    ∀ c ∈ t.clusteringColumns, (spec.countP fun kv ↦ sameName kv.name c.name) = 1

/-- Values have the texts of a specification in all clustering columns. -/
def Meets (t : Table) (spec : List KeyValue) (values : List Literal) : Prop :=
  List.Forall₂
    (fun c v ↦ ∃ kv ∈ spec, sameName kv.name c.name = true ∧ t.keyText kv.value = t.keyText v)
    t.clusteringColumns values

instance (t : Table) (spec : List KeyValue) : Decidable (t.NamesOnce spec) :=
  inferInstanceAs (Decidable (_ ∧ _))

instance (t : Table) (spec : List KeyValue) (values : List Literal) :
    Decidable (t.Meets spec values) :=
  inferInstanceAs (Decidable (List.Forall₂ _ _ _))

/-- An entry is for a clustering column. -/
def namesColumn (t : Table) (kv : KeyValue) : Bool :=
  t.clusteringColumns.any fun c ↦ sameName kv.name c.name

/-- A column has the value of its entry, if there is one entry and no other. -/
theorem map_specValue?_eq_some_iff {k : String} : (specValue? spec c).map t.keyText = some k ↔
    (spec.countP fun kv ↦ sameName kv.name c.name) = 1 ∧
      ∃ kv ∈ spec, sameName kv.name c.name = true ∧ t.keyText kv.value = k := by
  rw [Option.map_eq_some_iff, List.countP_eq_length_filter, List.length_eq_one_iff]
  simp only [specValue?_eq_some_iff]
  constructor
  · rintro ⟨_, ⟨kv, hkv, rfl⟩, rfl⟩
    have hmem : kv ∈ spec.filter fun kv ↦ sameName kv.name c.name := hkv ▸ List.mem_cons_self
    exact ⟨⟨kv, hkv⟩, kv, (List.mem_filter.mp hmem).1, (List.mem_filter.mp hmem).2, rfl⟩
  · rintro ⟨⟨kv, hkv⟩, kv', hmem, hname, rfl⟩
    have hmem' : kv' ∈ [kv] := hkv ▸ List.mem_filter.mpr ⟨hmem, hname⟩
    obtain rfl := List.mem_singleton.mp hmem'
    exact ⟨_, ⟨kv', hkv, rfl⟩, rfl⟩

theorem specKeys?_eq_some_iff : t.specKeys? spec = some (values.map t.keyText) ↔
    t.NamesOnce spec ∧ t.Meets spec values := by
  unfold specKeys? NamesOnce Meets
  by_cases hclustering : t.clustering = 0
  · rw [if_pos hclustering]
    exact iff_of_false nofun fun h ↦ absurd hclustering (Nat.ne_of_gt h.1.1)
  · rw [if_neg hclustering, mapM_eq_some, List.forall₂_map_right_iff]
    simp only [map_specValue?_eq_some_iff]
    rw [List.forall₂_and_left, and_iff_right (Nat.pos_of_ne_zero hclustering)]

theorem length_specKeys? {keys : List String} (h : t.specKeys? spec = some keys) :
    keys.length = t.clusteringColumns.length := by
  unfold specKeys? at h
  split at h
  · cases h
  · exact (mapM_eq_some.mp h).length_eq.symm

/-- Where every partition has a value for each clustering column, a specification leads to those
with its texts. -/
theorem mem_ofSpec_iff
    (hvalues : ∀ q ∈ t.partitions, q.values.length = t.clusteringColumns.length) :
    p ∈ t.ofSpec spec ↔ t.NamesOnce spec ∧ p ∈ t.partitions ∧ t.Meets spec p.values := by
  rw [and_left_comm, ← specKeys?_eq_some_iff]
  cases hkeys : t.specKeys? spec with
  | none =>
    rw [ofSpec, hkeys]
    exact iff_of_false List.not_mem_nil fun h ↦ Option.some_ne_none _ h.2.symm
  | some keys =>
    rw [Option.some_inj, eq_comm]
    apply mem_ofSpec hkeys
    intro q hq
    rw [hvalues q hq, length_specKeys? hkeys]

theorem ofSpec?_congr
    (h : ∀ c ∈ t.clusteringColumns, specValue? spec' c = specValue? spec c) :
    t.ofSpec? spec' = t.ofSpec? spec := by
  have hkeys : t.specKeys? spec' = t.specKeys? spec := by
    unfold specKeys?
    generalize t.clusteringColumns = columns at h ⊢
    congr 1
    induction columns with
    | nil => rfl
    | cons c columns ih =>
      obtain ⟨hfirst, hrest⟩ := List.forall_mem_cons.mp h
      rw [List.mapM_cons, List.mapM_cons, hfirst, ih hrest]
  rw [ofSpec?, ofSpec?, ofSpec, ofSpec, hkeys]

theorem specValue?_perm (h : spec'.Perm spec) (c : Column) :
    specValue? spec' c = specValue? spec c := by
  apply Option.ext
  intro v
  have hsingle (kv : KeyValue) : (spec'.filter fun kv ↦ sameName kv.name c.name) = [kv] ↔
      (spec.filter fun kv ↦ sameName kv.name c.name) = [kv] := by
    rw [← List.perm_singleton, ← List.perm_singleton]
    exact (h.filter _).congr_left [kv]
  simp only [specValue?_eq_some_iff, hsingle]

theorem specValue?_filter_namesColumn (hc : c ∈ t.clusteringColumns) (spec : List KeyValue) :
    specValue? (spec.filter t.namesColumn) c = specValue? spec c := by
  have hnamed : (spec.filter t.namesColumn).filter (fun kv ↦ sameName kv.name c.name) =
      spec.filter fun kv ↦ sameName kv.name c.name := by
    rw [List.filter_filter]
    apply List.filter_congr
    intro kv _
    cases hname : sameName kv.name c.name with
    | false => rfl
    | true => exact List.any_eq_true.mpr ⟨c, hc, hname⟩
  rw [specValue?, specValue?, hnamed]

namespace Shuffled

variable (h : t.Shuffled s)

include h

theorem keyText : s.keyText = t.keyText := by
  funext v
  unfold Table.keyText
  rw [h.nullKey]

theorem ofSpec_perm (spec : List KeyValue) : (s.ofSpec spec).Perm (t.ofSpec spec) := by
  have hkeys : s.specKeys? spec = t.specKeys? spec := by
    rw [Table.specKeys?, Table.specKeys?, h.clustering, h.clusteringColumns, h.keyText]
  rw [Table.ofSpec, Table.ofSpec, hkeys, h.keyText]
  cases t.specKeys? spec with
  | none => exact .refl _
  | some keys => exact h.partitions.filter _

theorem exists_ofSpec?_iff :
    (∃ p, s.ofSpec? spec = some p) ↔ ∃ p, p ∈ t.ofSpec spec := by
  constructor
  · rintro ⟨p, hp⟩
    exact ⟨p, (h.ofSpec_perm spec).mem_iff.mp (List.mem_of_mem_head? hp)⟩
  · rintro ⟨p, hp⟩
    have hmem := (h.ofSpec_perm spec).mem_iff.mpr hp
    exact Option.isSome_iff_exists.mp (List.isSome_head?.mpr (List.ne_nil_of_mem hmem))

theorem nodup (hnodup : (t.partitions.map (·.id)).Nodup) : (s.partitions.map (·.id)).Nodup :=
  (h.partitions.map _).nodup_iff.mpr hnodup

end Shuffled

/-- Any partition may come first. -/
theorem exists_shuffled_cons (hp : p ∈ t.partitions) :
    ∃ rest, t.Shuffled { t with partitions := p :: rest } := by
  obtain ⟨before, after, hpartitions⟩ := List.append_of_mem hp
  refine ⟨before ++ after, ?_, .refl _, rfl, rfl, rfl, rfl, rfl, rfl, rfl, rfl, rfl, rfl, rfl⟩
  rw [hpartitions]
  exact List.perm_middle.symm

/-- Each partition of a specification is the one that is found in some order. -/
theorem exists_shuffled_iff :
    (∃ s, t.Shuffled s ∧ s.ofSpec? spec = some p) ↔ p ∈ t.ofSpec spec := by
  constructor
  · rintro ⟨s, hshuffled, hp⟩
    exact (hshuffled.ofSpec_perm spec).mem_iff.mp (List.mem_of_mem_head? hp)
  · intro hp
    cases hkeys : t.specKeys? spec with
    | none =>
      rw [ofSpec, hkeys] at hp
      cases hp
    | some keys =>
      rw [ofSpec, hkeys] at hp
      obtain ⟨hmem, htexts⟩ := List.mem_filter.mp hp
      obtain ⟨rest, hshuffled⟩ := exists_shuffled_cons hmem
      have hkeys' : Table.specKeys? { t with partitions := p :: rest } spec = some keys := hkeys
      rw [← hshuffled.keyText] at htexts
      refine ⟨_, hshuffled, ?_⟩
      rw [ofSpec?, ofSpec, hkeys']
      dsimp only
      rw [List.filter_cons, if_pos htexts]
      rfl

/-- One partition goes, and all others stay. -/
theorem perm_remove (hnodup : (t.partitions.map (·.id)).Nodup) (hp : p ∈ t.partitions) :
    t.partitions.Perm (p :: (t.remove p).partitions) := by
  obtain ⟨before, after, hpartitions⟩ := List.append_of_mem hp
  have hfirst : t.partitions.Perm (p :: (before ++ after)) := by
    rw [hpartitions]
    exact List.perm_middle
  have hothers : ∀ q ∈ before ++ after, q.id ≠ p.id := by
    have hnotMem := (List.nodup_cons.mp ((hfirst.map (·.id)).nodup_iff.mp hnodup)).1
    intro q hq hid
    exact hnotMem (List.mem_map.mpr ⟨q, hq, hid⟩)
  have hrest : (p :: (before ++ after)).filter (·.id ≠ p.id) = before ++ after := by
    rw [List.filter_cons_of_neg (by simp), List.filter_eq_self]
    simpa using hothers
  have hremoved : (t.remove p).partitions.Perm (before ++ after) := hrest ▸ hfirst.filter _
  exact hfirst.trans (hremoved.symm.cons p)

theorem dropSpec_of_some (hnodup : (t.partitions.map (·.id)).Nodup)
    (h : t.ofSpec? spec = some p) (hp : p ∈ t.partitions) :
    t.dropSpec spec = (some p, t.remove p) := by
  rw [dropSpec, h]
  dsimp only
  rw [drop, partition?_of_mem hnodup hp]

theorem dropSpec_of_none (h : t.ofSpec? spec = none) : t.dropSpec spec = (none, t) := by
  rw [dropSpec, h]

/-- In a table that any calls led to, whatever the order of iteration, a specification finds a
partition if and only if it names each clustering column once and a live partition has its texts,
where null and the empty string have the same one. Each such partition is found in some order and
no other one is. Entries for other columns and the order of the entries make no difference. What is
found is dropped, and nothing else. -/
theorem ofSpec?_run {database name baseDirectory : String} {columns : List Column}
    {clustering : Nat} (hnew : Table.new database name columns clustering baseDirectory = .ok t₀)
    (hrun : t₀.run ops = t) (spec : List KeyValue) :
    (∀ s, t.Shuffled s → ((∃ p, s.ofSpec? spec = some p) ↔
        t.NamesOnce spec ∧ ∃ p ∈ t.partitions, t.Meets spec p.values)) ∧
      (∀ p, (∃ s, t.Shuffled s ∧ s.ofSpec? spec = some p) ↔
        t.NamesOnce spec ∧ p ∈ t.partitions ∧ t.Meets spec p.values) ∧
      (t.keyText .null = t.nullKey ∧ t.keyText (.string "") = t.nullKey) ∧
      (∀ s, t.Shuffled s → s.ofSpec? (spec.filter t.namesColumn) = s.ofSpec? spec ∧
        ∀ spec', spec'.Perm spec → s.ofSpec? spec' = s.ofSpec? spec) ∧
      ∀ s, t.Shuffled s →
        (∀ p, s.ofSpec? spec = some p → s.dropSpec spec = (some p, s.remove p) ∧
          s.partitions.Perm (p :: (s.remove p).partitions)) ∧
        (s.ofSpec? spec = none → s.dropSpec spec = (none, s)) := by
  subst hrun
  have hconsistent := (Consistent.of_new hnew).run ops
  have hvalues : ∀ q ∈ (t₀.run ops).partitions,
      q.values.length = (t₀.run ops).clusteringColumns.length := by
    intro q hq
    rw [hconsistent.values hq]
    exact (List.length_take_of_le hconsistent.clustering).symm
  refine ⟨fun s hs ↦ ?_, fun p ↦ ?_, ⟨rfl, rfl⟩, fun s hs ↦ ⟨?_, fun spec' hperm ↦ ?_⟩,
    fun s hs ↦ ⟨fun p hp ↦ ?_, dropSpec_of_none⟩⟩
  · rw [hs.exists_ofSpec?_iff]
    simp only [mem_ofSpec_iff hvalues, exists_and_left]
  · rw [exists_shuffled_iff, mem_ofSpec_iff hvalues]
  · apply ofSpec?_congr
    intro c hc
    rw [hs.clusteringColumns] at hc
    exact specValue?_filter_namesColumn hc spec
  · exact ofSpec?_congr fun c _ ↦ specValue?_perm hperm c
  · have hlive := ((mem_ofSpec_iff hvalues).mp (exists_shuffled_iff.mp ⟨s, hs, hp⟩)).2.1
    have hmem := hs.partitions.mem_iff.mpr hlive
    have hnodup := hs.nodup hconsistent.nodup
    exact ⟨dropSpec_of_some hnodup hp hmem, perm_remove hnodup hmem⟩

/-- A table of visits by site. -/
def siteVisits : Table where
  database := "db"
  name := "visits"
  columns := [{ name := "Site", type := .string, position := 0, stats := .zero }]
  clustering := 1
  baseDirectory := "/visits"
  default := { id := Partition.defaultId, values := [], location := "/visits", format := .text }
  index := .empty 1

theorem new_siteVisits :
    Table.new "db" "visits" [{ name := "Site", type := .string, position := 0 }] 1 "/visits" =
      .ok siteVisits := rfl

/-- Once the site is null, once it is empty. -/
def siteOps : List TableOp :=
  [.create [.null] "/1" .text [], .create [.string ""] "/2" .text [],
    .create [.string "a"] "/3" .text []]

/-- A site, and a column that is not there. -/
def bySite (site : String) : List KeyValue := [⟨"SITE", .string site⟩, ⟨"day", .integer 1⟩]

/-- Either of two partitions is found without a site, one partition is found with its site in
whatever order, and none is with a site that no partition has or with two sites. -/
theorem ofSpec?_run_siteVisits :
    (∀ p ∈ (siteVisits.run siteOps).partitions, p.id = ⟨1⟩ ∨ p.id = ⟨2⟩ →
        ∃ s, (siteVisits.run siteOps).Shuffled s ∧ s.ofSpec? (bySite "") = some p ∧
          s.dropSpec (bySite "") = (some p, s.remove p)) ∧
      ∀ s, (siteVisits.run siteOps).Shuffled s →
        (∃ p, s.ofSpec? (bySite "a") = some p ∧ p.id = ⟨3⟩) ∧
        s.ofSpec? (bySite "b") = none ∧
        s.dropSpec (bySite "a" ++ bySite "a") = (none, s) := by
  have hnames : ∀ site ∈ ["", "a"], (siteVisits.run siteOps).NamesOnce (bySite site) := by
    decide +kernel
  have htwice : ¬(siteVisits.run siteOps).NamesOnce (bySite "a" ++ bySite "a") := by
    decide +kernel
  have hnull : ∀ p ∈ (siteVisits.run siteOps).partitions, p.id = ⟨1⟩ ∨ p.id = ⟨2⟩ →
      (siteVisits.run siteOps).Meets (bySite "") p.values := by decide +kernel
  have hthird : ∃ p ∈ (siteVisits.run siteOps).partitions,
      (siteVisits.run siteOps).Meets (bySite "a") p.values := by decide +kernel
  have honly : ∀ p ∈ (siteVisits.run siteOps).partitions,
      (siteVisits.run siteOps).Meets (bySite "a") p.values → p.id = ⟨3⟩ := by decide +kernel
  have hmissing : ¬∃ p ∈ (siteVisits.run siteOps).partitions,
      (siteVisits.run siteOps).Meets (bySite "b") p.values := by decide +kernel
  obtain ⟨-, hempty, -, -, hdropped⟩ := ofSpec?_run new_siteVisits rfl (bySite "")
  obtain ⟨hfinds, hfound, -⟩ := ofSpec?_run new_siteVisits rfl (bySite "a")
  obtain ⟨hfindsMissing, -⟩ := ofSpec?_run new_siteVisits rfl (bySite "b")
  obtain ⟨hfindsTwice, -, -, -, hkept⟩ := ofSpec?_run new_siteVisits rfl (bySite "a" ++ bySite "a")
  constructor
  · intro p hp hid
    obtain ⟨s, hs, hsome⟩ := (hempty p).mpr ⟨hnames "" (by decide), hp, hnull p hp hid⟩
    exact ⟨s, hs, hsome, ((hdropped s hs).1 p hsome).1⟩
  · intro s hs
    refine ⟨?_, ?_, (hkept s hs).2 ?_⟩
    · obtain ⟨p, hp⟩ := (hfinds s hs).mpr ⟨hnames "a" (by decide), hthird⟩
      obtain ⟨-, hmem, hmeets⟩ := (hfound p).mp ⟨s, hs, hp⟩
      exact ⟨p, hp, honly p hmem hmeets⟩
    · refine Option.eq_none_iff_forall_ne_some.mpr fun p hp ↦ ?_
      exact hmissing ((hfindsMissing s hs).mp ⟨p, hp⟩).2
    · refine Option.eq_none_iff_forall_ne_some.mpr fun p hp ↦ ?_
      exact htwice ((hfindsTwice s hs).mp ⟨p, hp⟩).1

end QueryPlanning.Table
