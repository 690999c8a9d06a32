import QueryPlanning.Proofs.Catalog.PartitionIds

/-!
# Replacing a partition

A partition is replaced in one call: the new one is checked, the old one is dropped, and the new one
is added. The check comes while the old partition is still there, but it would come to the same
afterwards. What it looks at is left alone by a drop, and an identifier that was free stays free. So
a replacement is a drop and an addition of which either both take place or none.
-/

namespace QueryPlanning.Table

variable {t t' : Table} {p q r : Partition} {old : PartitionId} {e : Error}

theorem storedValue_congr {c d : Column} (h : (c.name, c.type) = (d.name, d.type)) (v : Literal) :
    storedValue c v = storedValue d v := by
  obtain ⟨hname, htype⟩ := Prod.mk.inj h
  rw [storedValue, storedValue, hname, htype]

/-- Values are stored by the names and types of the columns. -/
theorem storedValues_congr {columns columns' : List Column}
    (h : columns'.map (fun c ↦ (c.name, c.type)) = columns.map fun c ↦ (c.name, c.type))
    (values : List Literal) : storedValues columns' values = storedValues columns values := by
  rw [← List.forall₂_eq_eq_eq, List.forall₂_map_left_iff, List.forall₂_map_right_iff] at h
  induction h generalizing values with
  | nil => rfl
  | cons hfirst _ ih =>
    cases values with
    | nil => rfl
    | cons v vs => rw [storedValues, storedValues, storedValue_congr hfirst, ih]

theorem storedValues_remove (t : Table) (r : Partition) (values : List Literal) :
    storedValues (t.remove r).clusteringColumns values =
      storedValues t.clusteringColumns values := by
  apply storedValues_congr
  change ((withStats t.columns _).take t.clustering).map _ = _
  rw [clusteringColumns, List.map_take, List.map_take, map_withStats fun _ _ ↦ rfl]

/-- A partition that a table accepts is accepted after another one has gone. -/
theorem accept_remove (h : t.accept p = .ok q) : (t.remove r).accept p = .ok q := by
  simp only [accept, Outcome.bind_eq_ok, Outcome.pure_eq_ok] at h ⊢
  obtain ⟨values, hvalues, _, hcheck, rfl⟩ := h
  refine ⟨values, (t.storedValues_remove r p.values).trans hvalues, (), ?_, rfl⟩
  obtain ⟨hdefault, hfree, hid, hcount⟩ := check_iff.mp hcheck
  refine check_iff.mpr ⟨hdefault, ?_, hid, hcount⟩
  rw [partition?, List.find?_eq_none] at hfree ⊢
  exact fun s hs ↦ hfree s (List.mem_filter.mp hs).1

theorem accept_drop (h : t.accept p = .ok q) (old : PartitionId) :
    (t.drop old).2.accept p = .ok q := by
  unfold drop
  cases t.partition? old with
  | none => exact h
  | some r => exact accept_remove h

/-- There is nothing to be replaced, or the new partition is refused, or it can be added both next
to the old one and after it has gone. -/
theorem reload_cases (t : Table) (old : PartitionId) (p : Partition) :
    ((¬∃ q ∈ t.partitions, q.id = old) ∧
        t.reload old p = .error (.partitionNotFound old t.name)) ∨
      ((∃ q ∈ t.partitions, q.id = old) ∧
        ((∃ e, t.add p = .error e ∧ t.reload old p = .error e) ∨
          ∃ q, t.add p = .ok (t.insert q) ∧
            (t.drop old).2.add p = .ok ((t.drop old).2.insert q) ∧
            t.reload old p = .ok ((t.drop old).2.insert q))) := by
  by_cases hlive : ∃ q ∈ t.partitions, q.id = old
  · refine .inr ⟨hlive, ?_⟩
    rw [reload_of_live hlive, add_eq_map, add_eq_map]
    cases haccept : t.accept p with
    | error e => exact .inl ⟨e, rfl, rfl⟩
    | ok q => exact .inr ⟨q, rfl, by rw [accept_drop haccept]; rfl, rfl⟩
  · exact .inl ⟨hlive, reload_of_missing hlive p⟩

theorem exists_reload_iff (t : Table) (old : PartitionId) (p : Partition) :
    (∃ t', t.reload old p = .ok t') ↔
      (∃ q ∈ t.partitions, q.id = old) ∧ ∃ t', t.add p = .ok t' := by
  rcases t.reload_cases old p with ⟨hmissing, hreload⟩ | ⟨hlive, ⟨e, hadd, hreload⟩ | h⟩
  · refine iff_of_false ?_ fun h ↦ hmissing h.1
    rintro ⟨t', h⟩
    cases hreload.symm.trans h
  · apply iff_of_false
    · rintro ⟨t', h⟩
      cases hreload.symm.trans h
    · rintro ⟨-, t', h⟩
      cases hadd.symm.trans h
  · obtain ⟨q, hadd, -, hreload⟩ := h
    exact iff_of_true ⟨_, hreload⟩ ⟨hlive, _, hadd⟩

theorem add_of_reload (h : t.reload old p = .ok t') : (t.drop old).2.add p = .ok t' := by
  rcases t.reload_cases old p with ⟨-, hfails⟩ | ⟨-, ⟨e, -, hfails⟩ | ⟨q, -, hadd, hreload⟩⟩
  · cases h.symm.trans hfails
  · cases h.symm.trans hfails
  · rw [hadd, ← hreload, h]

theorem reload_error (h : t.reload old p = .error e) :
    (¬∃ q ∈ t.partitions, q.id = old) ∧ e = .partitionNotFound old t.name ∨
      (∃ q ∈ t.partitions, q.id = old) ∧ t.add p = .error e := by
  rcases t.reload_cases old p with ⟨hmissing, hfails⟩ | ⟨hlive, ⟨e', hadd, hfails⟩ | hruns⟩
  · exact .inl ⟨hmissing, Except.error.inj (h.symm.trans hfails)⟩
  · rw [Except.error.inj (h.symm.trans hfails)]
    exact .inr ⟨hlive, hadd⟩
  · obtain ⟨q, -, -, hreload⟩ := hruns
    cases h.symm.trans hreload

theorem create_error {values : List Literal} {location : String} {format : FileFormat}
    {files : List DataFile} (h : (t.create values location format files).1 = .error e) :
    (t.create values location format files).2 = { t with ids := ⟨t.ids.next + 1⟩ } := by
  rcases t.create_cases values location format files with ⟨_, -, hfails⟩ | ⟨q, -, hruns⟩
  · rw [hfails]
    rfl
  · rw [hruns] at h
    cases h

/-- Replacing a partition is dropping it and adding another one, which the table takes then if it
would have taken it before. If there is nothing to be replaced, or the table would not take the new
partition, the call fails for that reason and leaves the table as it is. So does a refused addition,
except that an identifier handed out for it is used up. -/
theorem reload_all_or_nothing (t : Table) (old : PartitionId) (p : Partition) :
    ((∃ t', t.reload old p = .ok t') ↔
        (∃ q ∈ t.partitions, q.id = old) ∧ ∃ t', t.add p = .ok t') ∧
      (∀ t', t.reload old p = .ok t' →
        (t.drop old).2.add p = .ok t' ∧ (TableOp.reload old p).apply t = t') ∧
      (∀ e, t.reload old p = .error e → (TableOp.reload old p).apply t = t ∧
        ((¬∃ q ∈ t.partitions, q.id = old) ∧ e = .partitionNotFound old t.name ∨
          (∃ q ∈ t.partitions, q.id = old) ∧ t.add p = .error e)) ∧
      (∀ e, t.add p = .error e → (TableOp.add p).apply t = t) ∧
      ∀ values location format files e, (t.create values location format files).1 = .error e →
        (t.create values location format files).2 = { t with ids := ⟨t.ids.next + 1⟩ } := by
  refine ⟨t.exists_reload_iff old p, fun t' h ↦ ⟨add_of_reload h, ?_⟩,
    fun e h ↦ ⟨?_, reload_error h⟩, fun e h ↦ ?_, fun _ _ _ _ _ ↦ create_error⟩
  · rw [TableOp.apply, h]
    rfl
  · rw [TableOp.apply, h]
    rfl
  · rw [TableOp.apply, h]
    rfl

/-- Visits without a day, under the next free identifier. -/
def undatedVisits : Partition where
  id := ⟨4⟩
  values := [.null]
  location := "/4"
  format := .text

theorem reload_all_or_nothing_visits :
    (∃ t', (visits.run visitOps).reload ⟨3⟩ undatedVisits = .ok t' ∧
        ((visits.run visitOps).drop ⟨3⟩).2.add undatedVisits = .ok t') ∧
      (TableOp.reload ⟨1⟩ undatedVisits).apply (visits.run visitOps) = visits.run visitOps := by
  have hlive : ∃ q ∈ (visits.run visitOps).partitions, q.id = ⟨3⟩ := by decide +kernel
  have hgone : ¬∃ q ∈ (visits.run visitOps).partitions, q.id = ⟨1⟩ := by decide +kernel
  constructor
  · obtain ⟨hreloads, hsame, -⟩ := reload_all_or_nothing (visits.run visitOps) ⟨3⟩ undatedVisits
    obtain ⟨t', ht'⟩ := hreloads.mpr ⟨hlive, _, rfl⟩
    exact ⟨t', ht', (hsame t' ht').1⟩
  · obtain ⟨-, -, hfails, -⟩ := reload_all_or_nothing (visits.run visitOps) ⟨1⟩ undatedVisits
    exact (hfails _ (reload_of_missing hgone _)).1

end QueryPlanning.Table
