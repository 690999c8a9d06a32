import QueryPlanning.Proofs.Catalog.IndexConsistency
import QueryPlanning.Scan.Pruning

/-!
# Pruning and evaluation

What pruning finds in the key index is what evaluating the predicates on each partition finds. Every
test is looked up in the index of one column: a value in the buckets or among the nulls, a range in
the buckets whose keys lie within. A key stands for all values that are the same, so the bounds of a
range must not tell them apart: they have to be in order with what the column has stored.
-/

namespace QueryPlanning

open Literal QueryPlanning.Partition

namespace KeyTest

/-- The literals that a value is compared with. -/
def literals : KeyTest → List Literal
  | .eq value => [value]
  | .oneOf values => values
  | .range lower upper => (lower.toList ++ upper.toList).map (·.value)
  | .isNull | .isNotNull => []

end KeyTest

theorem Literal.same_null {v : Literal} : v.same .null = v.isNull := by
  cases hv : v.isNull with
  | true =>
    rw [isNull_iff.mp hv]
    exact same_self
  | false =>
    rw [← Bool.not_eq_true]
    intro hsame
    have hnull := isNull_eq_of_same hsame
    rw [hv] at hnull
    cases hnull

namespace RangeBound

variable {P : Literal → Prop} {b l u : RangeBound} {v w : Literal}

theorem isBelow_congr (hP : OrderedOn P) (hb : P b.value) (hv : P v) (hw : P w)
    (h : v.same w = true) : b.isBelow v = b.isBelow w := by
  unfold isBelow
  rw [hP.congr_right hb hv hw (same_iff.mp h)]

theorem isAbove_congr (hP : OrderedOn P) (hb : P b.value) (hv : P v) (hw : P w)
    (h : v.same w = true) : b.isAbove v = b.isAbove w := by
  unfold isAbove
  rw [hP.congr_left hv hw hb (same_iff.mp h)]

/-- Nothing lies between ends that exclude all. -/
theorem not_within_of_excludesAll (hP : OrderedOn P) (hl : P l.value) (hu : P u.value) (hv : P v)
    (h : l.excludesAll u = true) : ¬(l.isBelow v = true ∧ u.isAbove v = true) := by
  unfold excludesAll at h
  unfold isBelow isAbove
  rintro ⟨hbelow, habove⟩
  cases hlv : l.value.compare v with
  | gt =>
    rw [hlv] at hbelow
    cases hbelow
  | eq =>
    rw [hP.congr_left hl hv hu hlv] at h
    rw [hlv] at hbelow
    cases hvu : v.compare u.value with
    | lt =>
      rw [hvu] at h
      cases h
    | eq =>
      rw [hvu] at h habove
      simp_all
    | gt =>
      rw [hvu] at habove
      cases habove
  | lt =>
    cases hvu : v.compare u.value with
    | lt =>
      rw [hP.lt_trans hl hv hu hlv hvu] at h
      cases h
    | eq =>
      rw [← hP.congr_right hl hv hu hvu, hlv] at h
      cases h
    | gt =>
      rw [hvu] at habove
      cases habove

/-- Bounds do not tell values apart that are the same. -/
theorem all_congr {lower upper : Option RangeBound} (hP : OrderedOn P)
    (hlower : ∀ b ∈ lower, P b.value) (hupper : ∀ b ∈ upper, P b.value) (hv : P v) (hw : P w)
    (h : v.same w = true) :
    (lower.all (·.isBelow v) && upper.all (·.isAbove v)) =
      (lower.all (·.isBelow w) && upper.all (·.isAbove w)) := by
  congr 1
  · cases lower with
    | none => rfl
    | some b => exact isBelow_congr hP (hlower b rfl) hv hw h
  · cases upper with
    | none => rfl
    | some b => exact isAbove_congr hP (hupper b rfl) hv hw h

end RangeBound

theorem IdSet.mem_foldr_union {α : Type} {id : PartitionId} (g : α → IdSet) (l : List α) :
    id ∈ l.foldr (fun a found ↦ IdSet.union (g a) found) [] ↔ ∃ a ∈ l, id ∈ g a := by
  induction l with
  | nil => simp
  | cons a rest ih => simp [ih]

namespace KeyIndex

variable {P : Literal → Prop} {ix : KeyIndex} {col : Nat} {c : KeyColumn} {ps : List Partition}
  {v : Literal} {id : PartitionId} {lower upper : Option RangeBound}

section Lookup

variable (hc : ix.columns[col]? = some c) (h : KeyColumn.Bucketed P col ps c.buckets)
  (hP : OrderedOn P)

include hc h hP

theorem withValue_eq (hnulls : c.nulls = idsWhere col (·.isNull) ps) (hv : P v) :
    ix.withValue col v = idsWhere col (·.same v) ps := by
  simp only [withValue, hc]
  split
  · rename_i hnull
    rw [isNull_iff.mp hnull, hnulls]
    simp only [same_null]
  · rename_i hnull
    have hlookup (ids : IdSet) : KeyColumn.bucket? v c.buckets = some ids ↔
        ids ≠ [] ∧ ids = idsWhere col (·.same v) ps :=
      h.bucket?_eq_some_iff hP hv (by simpa using hnull)
    cases hbucket : KeyColumn.bucket? v c.buckets with
    | some ids => exact ((hlookup ids).mp hbucket).2
    | none =>
      by_contra hne
      have hsome := (hlookup (idsWhere col (·.same v) ps)).mpr ⟨Ne.symm hne, rfl⟩
      rw [hbucket] at hsome
      cases hsome

/-- The partitions in the buckets within some bounds. -/
theorem mem_within (hlower : ∀ b ∈ lower, P b.value) (hupper : ∀ b ∈ upper, P b.value) :
    id ∈ (((ix.buckets? col).getD []).filter
        fun e ↦ lower.all (·.isBelow e.1) && upper.all (·.isAbove e.1)).foldr
          (fun e found ↦ IdSet.union e.2 found) [] ↔
      id ∈ idsWhere col (fun v ↦ (KeyTest.range lower upper).holds v) ps := by
  rw [IdSet.mem_foldr_union, buckets?, hc, Option.map_some, Option.getD_some]
  constructor
  · rintro ⟨e, he, hid⟩
    obtain ⟨he, hwithin⟩ := List.mem_filter.mp he
    rw [(h.ids he).2] at hid
    obtain ⟨p, hp, rfl, v, hv, hsame⟩ := mem_idsWhere.mp hid
    obtain ⟨hkey, hnull⟩ := h.key he
    refine mem_idsWhere.mpr ⟨p, hp, rfl, v, hv, ?_⟩
    rw [KeyTest.holds, isNull_eq_of_same hsame, hnull, Bool.and_assoc,
      RangeBound.all_congr hP hlower hupper (h.stored hp hv) hkey hsame]
    exact hwithin
  · intro hid
    obtain ⟨p, hp, rfl, v, hv, hholds⟩ := mem_idsWhere.mp hid
    rw [KeyTest.holds, Bool.and_assoc, Bool.and_eq_true] at hholds
    obtain ⟨hnull, hwithin⟩ := hholds
    obtain ⟨e, he, hsame⟩ := h.bucket hp hv (by simpa using hnull)
    refine ⟨e, List.mem_filter.mpr ⟨he, ?_⟩, ?_⟩
    · rw [← RangeBound.all_congr hP hlower hupper (h.stored hp hv) (h.key he).1 hsame]
      exact hwithin
    · rw [(h.ids he).2]
      exact mem_idsWhere.mpr ⟨p, hp, rfl, v, hv, hsame⟩

theorem mem_inRange (hlower : ∀ b ∈ lower, P b.value) (hupper : ∀ b ∈ upper, P b.value) :
    id ∈ ix.inRange col lower upper ↔
      id ∈ idsWhere col (fun v ↦ (KeyTest.range lower upper).holds v) ps := by
  have hwithin : id ∈ _ ↔ id ∈ _ := mem_within hc h hP hlower hupper
  cases lower with
  | none => exact hwithin
  | some l =>
    cases upper with
    | none => exact hwithin
    | some u =>
      by_cases hempty : l.excludesAll u = true
      · have hnone : idsWhere col (fun v ↦ (KeyTest.range (some l) (some u)).holds v) ps = [] := by
          apply idsWhere_eq_nil
          intro p hp v hv
          have hnot := RangeBound.not_within_of_excludesAll hP (hlower l rfl) (hupper u rfl)
            (h.stored hp hv) hempty
          rw [← Bool.and_eq_true, Bool.not_eq_true] at hnot
          rw [KeyTest.holds, Bool.and_assoc, Option.all_some, Option.all_some, hnot, Bool.and_false]
        have hinRange : ix.inRange col (some l) (some u) = [] := if_pos hempty
        rw [hnone, hinRange]
      · have hinRange : ix.inRange col (some l) (some u) = _ := if_neg hempty
        rw [hinRange]
        exact hwithin

theorem mem_oneOf {values : List Literal} (hnulls : c.nulls = idsWhere col (·.isNull) ps)
    (hvalues : ∀ v ∈ values, P v) :
    id ∈ (KeyTest.oneOf values).matching ix col ↔
      id ∈ idsWhere col (fun v ↦ (KeyTest.oneOf values).holds v) ps := by
  apply (IdSet.mem_foldr_union (ix.withValue col) values).trans
  simp only [mem_idsWhere, KeyTest.holds, List.any_eq_true]
  constructor
  · rintro ⟨value, hmem, hid⟩
    rw [withValue_eq hc h hP hnulls (hvalues value hmem)] at hid
    obtain ⟨p, hp, rfl, v, hv, hsame⟩ := mem_idsWhere.mp hid
    exact ⟨p, hp, rfl, v, hv, value, hmem, hsame⟩
  · rintro ⟨p, hp, rfl, v, hv, value, hmem, hsame⟩
    refine ⟨value, hmem, ?_⟩
    rw [withValue_eq hc h hP hnulls (hvalues value hmem)]
    exact mem_idsWhere.mpr ⟨p, hp, rfl, v, hv, hsame⟩

omit h hP in
/-- All partitions but those with a null are those without one, since each has one value. -/
theorem mem_notNull (hnulls : c.nulls = idsWhere col (·.isNull) ps) (hids : ix.ids = ps.map (·.id))
    (hnodup : (ps.map (·.id)).Nodup) (hvalues : ∀ p ∈ ps, ∃ v, p.values[col]? = some v) :
    id ∈ KeyTest.isNotNull.matching ix col ↔
      id ∈ idsWhere col (fun v ↦ KeyTest.isNotNull.holds v) ps := by
  have hnulls' : (ix.nulls? col).getD [] = idsWhere col (·.isNull) ps := by
    rw [nulls?, hc, Option.map_some, Option.getD_some, hnulls]
  rw [KeyTest.matching, hnulls', hids]
  simp only [List.mem_filter, Bool.not_eq_true', List.contains_eq_mem, decide_eq_false_iff_not]
  constructor
  · rintro ⟨hid, hnot⟩
    obtain ⟨p, hp, rfl⟩ := List.mem_map.mp hid
    obtain ⟨v, hv⟩ := hvalues p hp
    refine mem_idsWhere.mpr ⟨p, hp, rfl, v, hv, ?_⟩
    rw [KeyTest.holds, Bool.not_eq_true', ← Bool.not_eq_true]
    intro hnull
    exact hnot (mem_idsWhere.mpr ⟨p, hp, rfl, v, hv, hnull⟩)
  · intro hid
    obtain ⟨p, hp, rfl, v, hv, hnull⟩ := mem_idsWhere.mp hid
    refine ⟨List.mem_map_of_mem hp, fun hmem ↦ ?_⟩
    obtain ⟨p', hp', hid', w, hw, hnull'⟩ := mem_idsWhere.mp hmem
    obtain rfl := eq_of_id hnodup hp hp' hid'
    obtain rfl := Option.some.inj (hv.symm.trans hw)
    rw [KeyTest.holds, hnull'] at hnull
    cases hnull

/-- What the index finds for a test are the partitions whose value passes it. -/
theorem mem_matching {test : KeyTest} (hnulls : c.nulls = idsWhere col (·.isNull) ps)
    (hliterals : ∀ v ∈ test.literals, P v) (hids : ix.ids = ps.map (·.id))
    (hnodup : (ps.map (·.id)).Nodup) (hvalues : ∀ p ∈ ps, ∃ v, p.values[col]? = some v) :
    id ∈ test.matching ix col ↔ id ∈ idsWhere col (fun v ↦ test.holds v) ps := by
  cases test with
  | eq value =>
    have hv : P value := hliterals value List.mem_cons_self
    rw [KeyTest.matching, withValue_eq hc h hP hnulls hv]
    rfl
  | oneOf values => exact mem_oneOf hc h hP hnulls hliterals
  | range lower upper =>
    apply mem_inRange hc h hP
    · intro b hb
      exact hliterals _ (List.mem_map_of_mem (List.mem_append_left _ (Option.mem_toList.mpr hb)))
    · intro b hb
      exact hliterals _ (List.mem_map_of_mem (List.mem_append_right _ (Option.mem_toList.mpr hb)))
  | isNull =>
    rw [KeyTest.matching, nulls?, hc, Option.map_some, Option.getD_some, hnulls]
    rfl
  | isNotNull => exact mem_notNull hc hnulls hids hnodup hvalues

end Lookup

end KeyIndex

namespace Table

variable {t t₀ : Table} {P : Literal → Prop} {col : Nat} {q : KeyPredicate} {p : Partition}
  {predicates : List KeyPredicate}

theorem clusteringPosition?_eq_none :
    t.clusteringPosition? q.column = none ↔
      ∀ c ∈ t.clusteringColumns, Text.sameName c.name q.column = false := by
  simp [clusteringPosition?]

theorem lt_of_clusteringPosition? (h : t.clusteringPosition? q.column = some col) :
    col < t.clustering := by
  obtain ⟨hlt, _⟩ := List.findIdx?_eq_some_iff_getElem.mp h
  rw [clusteringColumns, List.length_take] at hlt
  omega

/-- A partition is found for a predicate exactly when it passes. -/
theorem contains_matching (ht : t.Consistent) (hb : t.BucketedAt P col) (hP : OrderedOn P)
    (hcol : t.clusteringPosition? q.column = some col) (hliterals : ∀ v ∈ q.test.literals, P v)
    (hp : p ∈ t.partitions) : (q.test.matching t.index col).contains p.id = t.passes p q := by
  have hlt := lt_of_clusteringPosition? hcol
  have hlt' : col < t.index.columns.length := ht.columns.symm ▸ hlt
  have hc := List.getElem?_eq_getElem hlt'
  have hk := List.getElem?_eq_getElem (Nat.lt_of_lt_of_le hlt ht.clustering)
  have hvalues : ∀ p ∈ t.partitions, ∃ v, p.values[col]? = some v := by
    intro p hp
    exact ⟨_, List.getElem?_eq_getElem ((ht.values hp).symm ▸ hlt)⟩
  have hmatching : p.id ∈ _ ↔ p.id ∈ _ :=
    KeyIndex.mem_matching hc (hb _ hc) hP (ht.counted hc hk).nulls hliterals ht.ids ht.nodup hvalues
  rw [List.contains_eq_mem, Bool.eq_iff_iff, decide_eq_true_eq, hmatching, passes, hcol]
  simp only [Option.any_eq_true]
  constructor
  · intro hid
    obtain ⟨p', hp', hid', v, hv, hholds⟩ := mem_idsWhere.mp hid
    obtain rfl := eq_of_id ht.nodup hp hp' hid'
    exact ⟨v, hv, hholds⟩
  · rintro ⟨v, hv, hholds⟩
    exact mem_idsWhere.mpr ⟨p, hp, rfl, v, hv, hholds⟩

/-! ## Pruning -/

theorem positionOf_eq_error (h : t.clusteringPosition? q.column = none) :
    t.positionOf q = .error (.notPartitionColumn q.column t.fullName) := by
  rw [positionOf, h]

theorem positionOf_eq_ok (h : t.clusteringPosition? q.column = some col) :
    t.positionOf q = .ok col := by
  rw [positionOf, h]

/-- A predicate on no clustering column is refused, whatever the others are. -/
theorem retain_eq_error (h : ∃ q ∈ predicates, t.clusteringPosition? q.column = none)
    (ids : IdSet) : ∃ e, t.retain predicates ids = .error e ∧ e.kind = .analysis := by
  induction predicates generalizing ids with
  | nil =>
    obtain ⟨_, hmem, _⟩ := h
    cases hmem
  | cons q rest ih =>
    cases hcol : t.clusteringPosition? q.column with
    | none =>
      refine ⟨.notPartitionColumn q.column t.fullName, ?_, rfl⟩
      rw [retain, positionOf_eq_error hcol]
      rfl
    | some col =>
      have hrest : ∃ q ∈ rest, t.clusteringPosition? q.column = none := by
        obtain ⟨q', hmem, hnone⟩ := h
        rcases List.mem_cons.mp hmem with rfl | hmem
        · rw [hcol] at hnone
          cases hnone
        · exact ⟨q', hmem, hnone⟩
      rw [retain, positionOf_eq_ok hcol]
      exact ih hrest _

/-- The tests of all predicates are looked up in the index as evaluation says. -/
def Indexed (t : Table) (predicates : List KeyPredicate) : Prop :=
  ∀ q ∈ predicates, ∃ col, t.clusteringPosition? q.column = some col ∧
    ∀ p ∈ t.partitions, (q.test.matching t.index col).contains p.id = t.passes p q

theorem retain_eq_ok (h : t.Indexed predicates) {ps : List Partition}
    (hsub : ∀ p ∈ ps, p ∈ t.partitions) :
    t.retain predicates (ps.map (·.id)) =
      .ok ((ps.filter fun p ↦ predicates.all (t.passes p)).map (·.id)) := by
  induction predicates generalizing ps with
  | nil => simp [retain]
  | cons q rest ih =>
    obtain ⟨hq, hrest⟩ := List.forall_mem_cons.mp h
    obtain ⟨col, hcol, hmatching⟩ := hq
    have hfilter : (ps.map (·.id)).filter (q.test.matching t.index col).contains =
        (ps.filter fun p ↦ t.passes p q).map (·.id) := by
      rw [List.filter_map]
      congr 1
      apply List.filter_congr
      intro p hp
      exact hmatching p (hsub p hp)
    have hsub' : ∀ p ∈ ps.filter fun p ↦ t.passes p q, p ∈ t.partitions :=
      fun p hp ↦ hsub p (List.mem_filter.mp hp).1
    calc t.retain (q :: rest) (ps.map (·.id))
        = t.retain rest ((ps.map (·.id)).filter (q.test.matching t.index col).contains) := by
          rw [retain, positionOf_eq_ok hcol]
          rfl
      _ = .ok (((ps.filter fun p ↦ t.passes p q).filter
            fun p ↦ rest.all (t.passes p)).map (·.id)) := by
          rw [hfilter, ih hrest hsub']
      _ = .ok ((ps.filter fun p ↦ (q :: rest).all (t.passes p)).map (·.id)) := by
          rw [List.filter_filter]
          simp only [List.all_cons, Bool.and_comm]

theorem prune_eq_ok (ht : t.Consistent) (h : t.Indexed predicates) :
    t.prune predicates = .ok ⟨(t.passing predicates).map (·.id),
      (t.partitions.filter fun p ↦ !predicates.all (t.passes p)).map (·.id)⟩ := by
  have hretain := retain_eq_ok h (fun p hp ↦ hp)
  rw [prune, ht.ids, hretain]
  change Except.ok _ = Except.ok _
  congr 2
  rw [List.filter_map]
  congr 1
  apply List.filter_congr
  intro p hp
  simp only [Function.comp_apply]
  congr 1
  rw [List.contains_eq_mem, Bool.eq_iff_iff, decide_eq_true_eq]
  constructor
  · intro hmem
    obtain ⟨p', hp', hid⟩ := List.mem_map.mp hmem
    obtain ⟨hp', hpass⟩ := List.mem_filter.mp hp'
    obtain rfl := eq_of_id ht.nodup hp hp' hid
    exact hpass
  · intro hpass
    exact List.mem_map_of_mem (List.mem_filter.mpr ⟨hp, hpass⟩)

theorem Consistent.ascending_ids (ht : t.Consistent) (test : Partition → Bool) :
    ((t.partitions.filter test).map (·.id)).Pairwise fun i j ↦ i.val < j.val :=
  List.pairwise_map.mpr (ht.ascending.sublist List.filter_sublist)

section Run

variable {ops : List TableOp} {database name baseDirectory : String} {columns : List Column}
  {clustering : Nat}

theorem indexed_run
    (hnew : Table.new database name columns clustering baseDirectory = .ok t₀)
    (hkeys : ∀ q ∈ predicates, ∀ col, (t₀.run ops).clusteringPosition? q.column = some col →
      OrderedOn fun v ↦ t₀.Stores ops col v ∨ ∃ q ∈ predicates,
        (t₀.run ops).clusteringPosition? q.column = some col ∧ v ∈ q.test.literals)
    (hnamed : ∀ q ∈ predicates, (t₀.run ops).clusteringPosition? q.column ≠ none) :
    (t₀.run ops).Indexed predicates := by
  intro q hq
  obtain ⟨col, hcol⟩ := Option.ne_none_iff_exists'.mp (hnamed q hq)
  have hP := hkeys q hq col hcol
  have hb := bucketedAt_run hnew (hP.mono fun v ↦ .inl)
  have ht := (Consistent.of_new hnew).run ops
  refine ⟨col, hcol, fun p hp ↦ ?_⟩
  exact contains_matching ht (fun c hc ↦ (hb c hc).mono fun v ↦ .inl) hP hcol
    (fun v hv ↦ .inr ⟨q, hq, hcol, hv⟩) hp

/-- Whatever is called on a new table, pruning fails exactly when a predicate names no clustering
column, and otherwise tells the partitions that pass all predicates from those that do not. The
literals of the predicates have to be in order with the values ever stored in their column, because
partitions are filed under keys that may be older than they are. -/
theorem prune_run_eq_evaluation
    (hnew : Table.new database name columns clustering baseDirectory = .ok t₀)
    (hrun : t₀.run ops = t)
    (hkeys : ∀ q ∈ predicates, ∀ col, t.clusteringPosition? q.column = some col →
      OrderedOn fun v ↦ t₀.Stores ops col v ∨ ∃ q ∈ predicates,
        t.clusteringPosition? q.column = some col ∧ v ∈ q.test.literals) :
    ((∃ e, t.prune predicates = .error e) ↔
      ∃ q ∈ predicates, ∀ c ∈ t.clusteringColumns, Text.sameName c.name q.column = false) ∧
    (∀ e, t.prune predicates = .error e → e.kind = .analysis) ∧
    ∀ pruning, t.prune predicates = .ok pruning →
      pruning.retained = (t.passing predicates).map (·.id) ∧
      pruning.pruned = (t.partitions.filter fun p ↦ !predicates.all (t.passes p)).map (·.id) ∧
      (pruning.retained.Pairwise fun i j ↦ i.val < j.val) ∧
      pruning.pruned.Pairwise fun i j ↦ i.val < j.val := by
  subst hrun
  simp only [← clusteringPosition?_eq_none]
  by_cases hmissing : ∃ q ∈ predicates, (t₀.run ops).clusteringPosition? q.column = none
  · obtain ⟨e, hretain, hkind⟩ := retain_eq_error hmissing (t₀.run ops).index.ids
    have hprune : (t₀.run ops).prune predicates = .error e := by
      rw [prune, hretain]
      rfl
    refine ⟨⟨fun _ ↦ hmissing, fun _ ↦ ⟨e, hprune⟩⟩, fun e' he' ↦ ?_, fun pruning hok ↦ ?_⟩
    · obtain rfl := Except.error.inj (hprune.symm.trans he')
      exact hkind
    · cases hprune.symm.trans hok
  · have hnamed : ∀ q ∈ predicates, (t₀.run ops).clusteringPosition? q.column ≠ none :=
      fun q hq hnone ↦ hmissing ⟨q, hq, hnone⟩
    have ht := (Consistent.of_new hnew).run ops
    have hprune := prune_eq_ok ht (indexed_run hnew hkeys hnamed)
    refine ⟨⟨?_, fun h ↦ absurd h hmissing⟩, fun e he ↦ ?_, fun pruning hok ↦ ?_⟩
    · rintro ⟨e, he⟩
      cases hprune.symm.trans he
    · cases hprune.symm.trans he
    · obtain rfl := Except.ok.inj (hprune.symm.trans hok)
      exact ⟨rfl, rfl, ht.ascending_ids _, ht.ascending_ids _⟩

end Run

/-- The visits of one day. -/
def firstDay : List KeyPredicate := [⟨"DAY", .eq (.integer 1)⟩]

theorem prune_run_eq_evaluation_visits :
    (∀ q ∈ firstDay, ∀ col, (visits.run visitOps).clusteringPosition? q.column = some col →
      OrderedOn fun v ↦ visits.Stores visitOps col v ∨ ∃ q ∈ firstDay,
        (visits.run visitOps).clusteringPosition? q.column = some col ∧ v ∈ q.test.literals) ∧
    ∃ pruning, (visits.run visitOps).prune firstDay = .ok pruning ∧
      pruning.retained = [⟨3⟩] ∧ pruning.pruned = [⟨2⟩] := by
  have hkeys : ∀ q ∈ firstDay, ∀ col,
      (visits.run visitOps).clusteringPosition? q.column = some col →
        OrderedOn fun v ↦ visits.Stores visitOps col v ∨ ∃ q ∈ firstDay,
          (visits.run visitOps).clusteringPosition? q.column = some col ∧
            v ∈ q.test.literals := by
    intro _ _ col _
    apply (orderedOn_visits col (v := .integer 1) (by decide)).mono
    rintro v (hv | ⟨q, hq, _, hv⟩)
    · exact .inl hv
    · obtain rfl := List.mem_singleton.mp hq
      exact .inr (List.mem_singleton.mp hv)
  have hday : ∃ c ∈ (visits.run visitOps).clusteringColumns, Text.sameName c.name "DAY" = true := by
    decide +kernel
  obtain ⟨herror, _, hok⟩ := prune_run_eq_evaluation new_visits rfl hkeys
  refine ⟨hkeys, ?_⟩
  cases hprune : (visits.run visitOps).prune firstDay with
  | error e =>
    obtain ⟨c, hc, hsame⟩ := hday
    obtain ⟨q, hq, hnone⟩ := herror.mp ⟨e, hprune⟩
    obtain rfl := List.mem_singleton.mp hq
    rw [hnone c hc] at hsame
    cases hsame
  | ok pruning =>
    obtain ⟨hretained, hpruned, _⟩ := hok pruning hprune
    have hpassing : ((visits.run visitOps).passing firstDay).map (·.id) = [⟨3⟩] := by
      decide +kernel
    refine ⟨pruning, rfl, hretained.trans hpassing, ?_⟩
    rw [hpruned]
    decide +kernel

/-- A bucket keeps the key that it was made with. After its partition is gone, values that are in
order among themselves are still filed under it together if both compare equal to it. -/
theorem exists_prune_misfiled :
    let limit : Decimal := ⟨170141183460469231731687303715884105727, 1, by decide⟩
    let below : Decimal := ⟨17014118346046923173168730371588410573, 0, by decide⟩
    let above : Decimal := ⟨17014118346046923173168730371588410574, 0, by decide⟩
    let t := visits.run
      [.create [.decimal limit] "/1" .text [], .create [.decimal below] "/2" .text [],
        .drop ⟨1⟩, .create [.decimal above] "/3" .text []]
    let predicates : List KeyPredicate := [⟨"day", .eq (.decimal below)⟩]
    (∀ q ∈ predicates, ∀ col, t.clusteringPosition? q.column = some col →
      OrderedOn fun v ↦ (∃ p ∈ t.partitions, p.values[col]? = some v) ∨ ∃ q ∈ predicates,
        t.clusteringPosition? q.column = some col ∧ v ∈ q.test.literals) ∧
    (t.passing predicates).map (·.id) = [⟨2⟩] ∧
    ∃ pruning, t.prune predicates = .ok pruning ∧ pruning.retained = [⟨2⟩, ⟨3⟩] := by
  intro limit below above t predicates
  have hvalues : t.partitions.map (·.values) = [[.decimal below], [.decimal above]] := by
    decide +kernel
  have hstored (p : Partition) (hp : p ∈ t.partitions) (v : Literal) (hv : v ∈ p.values) :
      v = .decimal below ∨ v = .decimal above := by
    have hmem : p.values ∈ [[.decimal below], [.decimal above]] :=
      hvalues ▸ List.mem_map_of_mem hp
    rcases List.mem_pair.mp hmem with heq | heq
    · exact .inl (List.mem_singleton.mp (heq ▸ hv))
    · exact .inr (List.mem_singleton.mp (heq ▸ hv))
  refine ⟨fun _ _ col _ ↦ (orderedOn_scale 0).mono ?_, by decide +kernel, ?_⟩
  · -- All decimals that are left have the same scale.
    rintro v (⟨p, hp, hv⟩ | ⟨q, hq, -, hv⟩) d rfl
    · rcases hstored p hp _ (List.mem_of_getElem? hv) with heq | heq
      · rw [Literal.decimal.inj heq]
      · rw [Literal.decimal.inj heq]
    · obtain rfl := List.mem_singleton.mp hq
      rw [Literal.decimal.inj (List.mem_singleton.mp hv)]
  · refine ⟨⟨[⟨2⟩, ⟨3⟩], []⟩, Outcome.toOption_eq_some.mp ?_, rfl⟩
    decide +kernel

end Table

end QueryPlanning
