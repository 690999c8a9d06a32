import Mathlib.Data.List.Induction
import Mathlib.Logic.Relation
import QueryPlanning.Catalog.Table
import QueryPlanning.Proofs.Catalog.LiteralOrder
import QueryPlanning.Proofs.Outcome

/-!
# Changes of a table

The calls that change a table, and what each comes down to: partitions are taken out one at a time,
all are dropped at once, and one with an identifier above all there ever were is added at the end.
A refused call changes nothing but for the identifier that it may use up.
-/

namespace QueryPlanning

open Relation (ReflTransGen)

/-- A call that changes a table, whether it succeeds or not. -/
inductive TableOp
  | add (p : Partition)
  | create (values : List Literal) (location : String) (format : FileFormat)
      (files : List DataFile)
  | drop (id : PartitionId)
  /-- Drops the partition with the lowest identifier; `drop` drops any other one as well. -/
  | dropSpec (spec : List KeyValue)
  | dropAll (ids : List PartitionId)
  | reload (old : PartitionId) (p : Partition)
  | reset
  | setDefault (location : String) (format : FileFormat)
  | nextId
  /-- Sets what partitions and index do not depend on. -/
  | annotate (nullKey nullColumn : String) (hosts : Hosts) (rows : Int) (cached : Bool)

/-- The table after a call. -/
def TableOp.apply (t : Table) : TableOp → Table
  | .add p => (t.add p).toOption.getD t
  | .create values location format files => (t.create values location format files).2
  | .drop id => (t.drop id).2
  | .dropSpec spec => (t.dropSpec spec).2
  | .dropAll ids => (t.dropAll ids).2
  | .reload old p => (t.reload old p).toOption.getD t
  | .reset => t.reset
  | .setDefault location format => t.setDefault location format
  | .nextId => t.nextId.2
  | .annotate nullKey nullColumn hosts rows cached =>
    { t with nullKey, nullColumn, hosts, rows, cached }

namespace Table

/-- The table after some calls. -/
def run (t : Table) (ops : List TableOp) : Table := ops.foldl TableOp.apply t

/-- Whether a value is in a column of a partition at some time during some calls. -/
def Stores (t : Table) (ops : List TableOp) (col : Nat) (v : Literal) : Prop :=
  ∃ done, done <+: ops ∧ ∃ p ∈ (t.run done).partitions, p.values[col]? = some v

/-- The types of the clustering columns. -/
def keyTypes (t : Table) : List ColumnType := t.clusteringColumns.map (·.type)

/-- The decimals among some values have the scales of their columns. -/
def Scaled (types : List ColumnType) (values : List Literal) : Prop :=
  ∀ (col : Nat) (precision scale : UInt8) (d : Decimal),
    types[col]? = some (.decimal precision scale) → values[col]? = some (.decimal d) →
      d.scale = scale

/-- One change of a table. The partitions that are added are among those allowed. -/
inductive Change (allowed : Partition → Prop) : Table → Table → Prop
  | insert {t : Table} {p : Partition} : t.highest < p.id.val → p.values.length = t.clustering →
      allowed p → Change allowed t (t.insert p)
  | remove {t : Table} {p : Partition} : p ∈ t.partitions → Change allowed t (t.remove p)
  | reset {t : Table} : Change allowed t t.reset
  | other {t t' : Table} : t'.clustering = t.clustering → t'.columns = t.columns →
      t'.partitions = t.partitions → t'.index = t.index → t'.highest = t.highest →
      t'.files = t.files → t'.bytes = t.bytes → t'.default.id = t.default.id →
      Change allowed t t'

variable {t t' : Table} {p q : Partition} {allowed : Partition → Prop}

theorem mem_of_partition? {id : PartitionId} (h : t.partition? id = some p) :
    p ∈ t.partitions ∧ p.id = id := by
  have hid := List.find?_some h
  exact ⟨List.mem_of_find?_eq_some h, of_decide_eq_true hid⟩

theorem isSome_partition?_iff {id : PartitionId} :
    (t.partition? id).isSome = true ↔ ∃ q ∈ t.partitions, q.id = id := by
  rw [partition?, List.find?_isSome]
  simp only [decide_eq_true_iff]

theorem check_iff : t.check p = .ok () ↔ p.isDefault = false ∧ t.partition? p.id = none ∧
    t.highest < p.id.val ∧ p.values.length = t.clustering := by
  unfold check
  cases hdefault : p.isDefault
  case true => exact iff_of_false nofun fun h ↦ nomatch h.1
  by_cases hexists : (t.partition? p.id).isSome
  · rw [if_pos hexists]
    exact iff_of_false nofun fun h ↦ absurd h.2.1 (Option.isSome_iff_ne_none.mp hexists)
  by_cases hused : p.id.val ≤ t.highest
  · rw [if_neg hexists, if_pos hused]
    exact iff_of_false nofun fun h ↦ absurd h.2.2.1 (Int.not_lt.mpr hused)
  by_cases hcount : p.values.length ≠ t.clustering
  · rw [if_neg hexists, if_neg hused, if_pos hcount]
    exact iff_of_false nofun fun h ↦ hcount h.2.2.2
  rw [if_neg hexists, if_neg hused, if_neg hcount]
  exact iff_of_true rfl ⟨rfl, Option.not_isSome_iff_eq_none.mp hexists, Int.not_le.mp hused,
    Decidable.not_not.mp hcount⟩

theorem scale_of_rescale? {d e : Decimal} {scale : UInt8} (h : d.rescale? scale = some e) :
    e.scale = scale := by
  unfold Decimal.rescale? at h
  split at h
  · obtain ⟨power, _, h⟩ := Option.bind_eq_some_iff.mp h
    exact (Decimal.unscaled_of_ofInt? h).2
  · obtain ⟨power, _, h⟩ := Option.bind_eq_some_iff.mp h
    split at h
    · exact (Decimal.unscaled_of_ofInt? h).2
    · cases h

section StoredValues

variable {c : Column} {columns : List Column} {values stored : List Literal} {v w : Literal}
  {precision scale : UInt8} {col : Nat}

theorem storedValue_of_type (htype : c.type = .decimal precision scale) :
    storedValue c v =
      (v.rescale? scale).elim (.error (.unfitKey v.sql c.name c.type)) .ok := by
  unfold storedValue
  rw [htype]
  dsimp only
  cases v.rescale? scale <;> rfl

/-- Each value is stored as its column stores it. -/
theorem getElem?_storedValues (h : storedValues columns values = .ok stored)
    (hc : columns[col]? = some c) :
    stored[col]?.map Except.ok = values[col]?.map (storedValue c) := by
  induction columns generalizing values stored col with
  | nil => cases hc
  | cons first rest ih =>
    cases values with
    | nil =>
      obtain rfl := Except.ok.inj h
      rfl
    | cons v vs =>
      simp only [storedValues, Outcome.bind_eq_ok, Outcome.pure_eq_ok] at h
      obtain ⟨w, hw, ws, hws, rfl⟩ := h
      cases col with
      | zero =>
        obtain rfl := Option.some.inj hc
        exact congrArg some hw.symm
      | succ col => exact (ih hws hc :)

/-- What a column of decimals stores came in as something that it moved to its scale. -/
theorem exists_rescale?_of_storedValues (h : storedValues columns values = .ok stored)
    (htype : (columns.map (·.type))[col]? = some (.decimal precision scale))
    (hw : stored[col]? = some w) : ∃ v, values[col]? = some v ∧ v.rescale? scale = some w := by
  rw [List.getElem?_map] at htype
  obtain ⟨c, hc, htype⟩ := Option.map_eq_some_iff.mp htype
  have hcol := getElem?_storedValues h hc
  rw [hw, eq_comm] at hcol
  obtain ⟨v, hv, hstored⟩ := Option.map_eq_some_iff.mp hcol
  rw [storedValue_of_type htype] at hstored
  exact ⟨v, hv, Outcome.elim_eq_ok.mp hstored⟩

theorem exists_decimal_of_rescale? {d : Decimal} (h : v.rescale? scale = some (.decimal d)) :
    ∃ e, v = .decimal e ∧ e.rescale? scale = some d := by
  cases v with
  | decimal e =>
    obtain ⟨d', hd, heq⟩ := Option.map_eq_some_iff.mp h
    obtain rfl := Literal.decimal.inj heq
    exact ⟨e, rfl, hd⟩
  | _ => cases h

theorem scaled_of_storedValues (h : storedValues columns values = .ok stored) :
    Scaled (columns.map (·.type)) stored := by
  intro col precision scale d htype hd
  obtain ⟨v, -, hv⟩ := exists_rescale?_of_storedValues h htype hd
  obtain ⟨e, rfl, he⟩ := exists_decimal_of_rescale? hv
  exact scale_of_rescale? he

end StoredValues

theorem accept_eq_ok (h : t.accept p = .ok q) :
    t.highest < q.id.val ∧ q.values.length = t.clustering ∧
      Scaled t.keyTypes q.values := by
  simp only [accept, Outcome.bind_eq_ok, Outcome.pure_eq_ok] at h
  obtain ⟨values, hvalues, _, hcheck, rfl⟩ := h
  obtain ⟨-, -, hid, hcount⟩ := check_iff.mp hcheck
  exact ⟨hid, hcount, scaled_of_storedValues hvalues⟩

theorem add_eq_map (t : Table) (p : Partition) : t.add p = t.insert <$> t.accept p :=
  (map_eq_pure_bind ..).symm

theorem add_eq_ok (h : t.add p = .ok t') : ∃ q, t.accept p = .ok q ∧ t' = t.insert q := by
  rw [add_eq_map] at h
  obtain ⟨q, hq, rfl⟩ := Outcome.map_eq_ok.mp h
  exact ⟨q, hq, rfl⟩

section Reload

variable {old : PartitionId}

theorem reload_of_missing (h : ¬∃ q ∈ t.partitions, q.id = old) (p : Partition) :
    t.reload old p = .error (.partitionNotFound old t.name) := by
  rw [← isSome_partition?_iff, Option.not_isSome_iff_eq_none] at h
  rw [reload, h]
  rfl

theorem reload_of_live (h : ∃ q ∈ t.partitions, q.id = old) (p : Partition) :
    t.reload old p = (t.drop old).2.insert <$> t.accept p := by
  obtain ⟨q, hq⟩ := Option.isSome_iff_exists.mp (isSome_partition?_iff.mpr h)
  rw [reload, hq]
  exact (map_eq_pure_bind ..).symm

theorem reload_eq_ok (h : t.reload old p = .ok t') :
    ∃ q, t.accept p = .ok q ∧ t' = (t.drop old).2.insert q := by
  by_cases hlive : ∃ q ∈ t.partitions, q.id = old
  · rw [reload_of_live hlive] at h
    obtain ⟨q, hq, rfl⟩ := Outcome.map_eq_ok.mp h
    exact ⟨q, hq, rfl⟩
  · cases (reload_of_missing hlive p).symm.trans h

end Reload

theorem mem_insert : q ∈ (t.insert q).partitions :=
  List.mem_append_right _ List.mem_cons_self

theorem drop_highest (t : Table) (id : PartitionId) : (t.drop id).2.highest = t.highest := by
  unfold drop
  cases t.partition? id <;> rfl

theorem drop_clustering (t : Table) (id : PartitionId) :
    (t.drop id).2.clustering = t.clustering := by
  unfold drop
  cases t.partition? id <;> rfl

/-- A relation that steps from a table to what is left of it when nothing is added. Whether
`annotate` is such a step is said where the relation is used. -/
structure Clearing (R : Table → Table → Prop) : Prop where
  remove {t : Table} {p : Partition} : p ∈ t.partitions → R t (t.remove p)
  reset {t : Table} : R t t.reset
  setDefault {t : Table} {location : String} {format : FileFormat} :
    R t (t.setDefault location format)
  nextId {t : Table} : R t t.nextId.2

/-- Steps lead from one table to the other, but for a last partition that may be added to it. -/
def Reaches (R : Table → Table → Prop) (t t' : Table) : Prop :=
  ∃ t₁, ReflTransGen R t t₁ ∧ (t' = t₁ ∨ ∃ q, t₁.highest < q.id.val ∧
    q.values.length = t₁.clustering ∧ Scaled t.keyTypes q.values ∧ t' = t₁.insert q)

section Calls

variable {R : Table → Table → Prop}

theorem Clearing.drop (h : Clearing R) (t : Table) (id : PartitionId) :
    ReflTransGen R t (t.drop id).2 := by
  unfold Table.drop
  cases hp : t.partition? id with
  | none => exact .refl
  | some p => exact .single (h.remove (mem_of_partition? hp).1)

theorem Clearing.dropAll (h : Clearing R) (t : Table) (ids : List PartitionId) :
    ReflTransGen R t (t.dropAll ids).2 := by
  induction ids generalizing t with
  | nil => exact .refl
  | cons id rest ih => exact (h.drop t id).trans (ih _)

theorem Clearing.dropSpec (h : Clearing R) (t : Table) (spec : List KeyValue) :
    ReflTransGen R t (t.dropSpec spec).2 := by
  unfold Table.dropSpec
  cases t.ofSpec? spec with
  | none => exact .refl
  | some p => exact h.drop t p.id

theorem Reaches.of_steps (h : ReflTransGen R t t') : Reaches R t t' := ⟨t', h, .inl rfl⟩

theorem reaches_add (h : t.add p = .ok t') : Reaches R t t' := by
  obtain ⟨q, hq, rfl⟩ := add_eq_ok h
  obtain ⟨hid, hcount, hscaled⟩ := accept_eq_ok hq
  exact ⟨t, .refl, .inr ⟨q, hid, hcount, hscaled, rfl⟩⟩

theorem Clearing.create (h : Clearing R) (t : Table) (values : List Literal) (location : String)
    (format : FileFormat) (files : List DataFile) :
    Reaches R t (t.create values location format files).2 := by
  unfold Table.create
  split
  rename_i id t₁ hid
  have hnext : t₁ = t.nextId.2 := (congrArg Prod.snd hid).symm
  subst hnext
  split
  · rename_i t' hadd
    obtain ⟨t₂, hsteps, hend⟩ := reaches_add hadd
    exact ⟨t₂, hsteps.head h.nextId, hend⟩
  · exact .of_steps (.single h.nextId)

theorem Clearing.reload (h : Clearing R) {old : PartitionId} (hreload : t.reload old p = .ok t') :
    Reaches R t t' := by
  obtain ⟨q, hq, rfl⟩ := reload_eq_ok hreload
  obtain ⟨hid, hcount, hscaled⟩ := accept_eq_ok hq
  rw [← t.drop_highest old] at hid
  rw [← t.drop_clustering old] at hcount
  exact ⟨_, h.drop t old, .inr ⟨q, hid, hcount, hscaled, rfl⟩⟩

/-- A call comes down to steps, after which it may add one partition. -/
theorem Clearing.apply (h : Clearing R) (t : Table) (op : TableOp)
    (hannotate : ∀ nullKey nullColumn hosts rows cached,
      op = .annotate nullKey nullColumn hosts rows cached → R t (op.apply t)) :
    Reaches R t (op.apply t) := by
  cases op with
  | add p =>
    cases hadd : t.add p with
    | error e =>
      have : (TableOp.add p).apply t = t := by rw [TableOp.apply, hadd]; rfl
      rw [this]
      exact .of_steps .refl
    | ok t' =>
      have : (TableOp.add p).apply t = t' := by rw [TableOp.apply, hadd]; rfl
      rw [this]
      exact reaches_add hadd
  | create values location format files => exact h.create t values location format files
  | drop id => exact .of_steps (h.drop t id)
  | dropSpec spec => exact .of_steps (h.dropSpec t spec)
  | dropAll ids => exact .of_steps (h.dropAll t ids)
  | reload old p =>
    cases hreload : t.reload old p with
    | error e =>
      have : (TableOp.reload old p).apply t = t := by rw [TableOp.apply, hreload]; rfl
      rw [this]
      exact .of_steps .refl
    | ok t' =>
      have : (TableOp.reload old p).apply t = t' := by rw [TableOp.apply, hreload]; rfl
      rw [this]
      exact h.reload hreload
  | reset => exact .of_steps (.single h.reset)
  | setDefault location format => exact .of_steps (.single h.setDefault)
  | nextId => exact .of_steps (.single h.nextId)
  | annotate nullKey nullColumn hosts rows cached =>
    exact .of_steps (.single (hannotate nullKey nullColumn hosts rows cached rfl))

end Calls

/-- What a call adds is there when it ends, with decimals at the scales of the columns. -/
def Added (t t' : Table) (p : Partition) : Prop :=
  p ∈ t'.partitions ∧ Scaled t.keyTypes p.values

theorem nextId_change (t : Table) : Change allowed t t.nextId.2 :=
  .other rfl rfl rfl rfl rfl rfl rfl rfl

theorem clearing_change : Clearing (Change allowed) where
  remove := .remove
  reset := .reset
  setDefault := .other rfl rfl rfl rfl rfl rfl rfl rfl
  nextId := nextId_change _

/-- Every call comes down to changes. -/
theorem apply_changes (t : Table) (op : TableOp) :
    ReflTransGen (Change (Added t (op.apply t))) t (op.apply t) := by
  have hreaches : Reaches (Change (Added t (op.apply t))) t (op.apply t) := by
    apply clearing_change.apply
    rintro nullKey nullColumn hosts rows cached rfl
    exact .other rfl rfl rfl rfl rfl rfl rfl rfl
  generalize op.apply t = t' at hreaches
  obtain ⟨t₁, hsteps, rfl | ⟨q, hid, hcount, hscaled, rfl⟩⟩ := hreaches
  · exact hsteps
  · exact hsteps.tail (.insert hid hcount ⟨mem_insert, hscaled⟩)

/-! ## Runs -/

theorem run_append (t : Table) (ops : List TableOp) (op : TableOp) :
    t.run (ops ++ [op]) = op.apply (t.run ops) :=
  List.foldl_concat ..

theorem Change.mono {allowed' : Partition → Prop} (h : Change allowed t t')
    (hsub : ∀ p, allowed p → allowed' p) : Change allowed' t t' := by
  cases h with
  | insert hid hcount hp => exact .insert hid hcount (hsub _ hp)
  | remove hp => exact .remove hp
  | reset => exact .reset
  | other h₁ h₂ h₃ h₄ h₅ h₆ h₇ h₈ => exact .other h₁ h₂ h₃ h₄ h₅ h₆ h₇ h₈

/-- What each change keeps holds throughout a run, where no values are added but those that some
table of the run stores. -/
theorem run_invariant (inv : Table → Prop) {ops : List TableOp}
    (hchange : ∀ t₁ t₂ : Table,
      Change (fun p ↦ ∀ col v, p.values[col]? = some v → t.Stores ops col v) t₁ t₂ →
      inv t₁ → inv t₂)
    (hstart : inv t) : inv (t.run ops) := by
  suffices ∀ done, done <+: ops → inv (t.run done) from this ops (List.prefix_refl ops)
  intro done
  induction done using List.reverseRecOn with
  | nil => exact fun _ ↦ hstart
  | append_singleton done op ih =>
    intro hdone
    have hstored : ∀ p ∈ (t.run (done ++ [op])).partitions,
        ∀ col v, p.values[col]? = some v → t.Stores ops col v :=
      fun p hp col v hv ↦ ⟨done ++ [op], hdone, p, hp, hv⟩
    rw [run_append] at hstored ⊢
    have hchanges := ReflTransGen.mono (fun _ _ hc ↦ Change.mono hc fun p hp ↦ hstored p hp.1) _ _
      ((t.run done).apply_changes op)
    generalize op.apply (t.run done) = t' at hchanges
    induction hchanges with
    | refl => exact ih ((List.prefix_append done [op]).trans hdone)
    | tail _ hlast ih' => exact hchange _ _ hlast ih'

theorem length_withStats (columns : List Column) (stats : List ColumnStats) :
    (withStats columns stats).length = columns.length := by
  induction columns generalizing stats with
  | nil => rfl
  | cons c cs ih =>
    cases stats with
    | nil => rfl
    | cons s ss => exact congrArg (· + 1) (ih ss)

/-- What does not look at the statistics is the same for all of them. -/
theorem map_withStats {β : Type} {f : Column → β}
    (hf : ∀ (c : Column) (s : ColumnStats), f { c with stats := s } = f c)
    (columns : List Column) (stats : List ColumnStats) :
    (withStats columns stats).map f = columns.map f := by
  induction columns generalizing stats with
  | nil => rfl
  | cons c cs ih =>
    cases stats with
    | nil => rfl
    | cons s ss => exact congrArg₂ List.cons (hf c s) (ih ss)

theorem Change.keyTypes (h : Change allowed t t') : t'.keyTypes = t.keyTypes := by
  have hstats (stats : List ColumnStats) :
      ((withStats t.columns stats).take t.clustering).map (·.type) =
        (t.columns.take t.clustering).map (·.type) := by
    rw [List.map_take, List.map_take, map_withStats fun _ _ ↦ rfl]
  cases h with
  | insert => exact hstats _
  | remove => exact hstats _
  | reset => exact hstats _
  | other hclustering hcolumns =>
    unfold Table.keyTypes clusteringColumns
    rw [hclustering, hcolumns]

theorem run_keyTypes (t : Table) (ops : List TableOp) : (t.run ops).keyTypes = t.keyTypes :=
  run_invariant (·.keyTypes = t.keyTypes) (fun _ _ hchange h ↦ hchange.keyTypes.trans h) rfl

/-- What holds of the partitions of a table and of those that may be added holds afterwards. -/
theorem Change.forall_partitions {Q : Partition → Prop} (h : Change allowed t t')
    (hadded : ∀ p, allowed p → Q p) (hold : ∀ p ∈ t.partitions, Q p) :
    ∀ p ∈ t'.partitions, Q p := by
  intro q hq
  cases h with
  | insert _ _ hp =>
    rcases List.mem_append.mp hq with hq | hq
    · exact hold q hq
    · obtain rfl := List.mem_singleton.mp hq
      exact hadded q hp
  | remove => exact hold q (List.mem_filter.mp hq).1
  | reset => cases hq
  | other _ _ hpartitions => exact hold q (hpartitions ▸ hq)

/-- Throughout a run decimals are stored at the scales of the columns. -/
theorem scaled_run (hempty : t.partitions = []) (ops : List TableOp) :
    ∀ p ∈ (t.run ops).partitions, Scaled t.keyTypes p.values := by
  suffices (t.run ops).keyTypes = t.keyTypes ∧
      ∀ p ∈ (t.run ops).partitions, Scaled t.keyTypes p.values from this.2
  induction ops using List.reverseRecOn with
  | nil =>
    refine ⟨rfl, ?_⟩
    rw [run, List.foldl_nil, hempty]
    nofun
  | append_singleton done op ih =>
    rw [run_append]
    obtain ⟨htypes, hscaled⟩ := ih
    have hadded (t' : Table) (p : Partition) (hp : Added (t.run done) t' p) :
        Scaled t.keyTypes p.values := htypes ▸ hp.2
    have hchanges := ReflTransGen.mono (fun _ _ hc ↦ Change.mono hc (hadded _)) _ _
      ((t.run done).apply_changes op)
    generalize op.apply (t.run done) = t' at hchanges ⊢
    induction hchanges with
    | refl => exact ⟨htypes, hscaled⟩
    | tail _ hlast ih =>
      exact ⟨hlast.keyTypes.trans ih.1, hlast.forall_partitions (fun _ hp ↦ hp) ih.2⟩

end Table

end QueryPlanning
