import Mathlib.Data.List.Pairwise
import QueryPlanning.Proofs.Catalog.IndexConsistency
import QueryPlanning.Proofs.Catalog.RegistryLookup
import QueryPlanning.Proofs.Scan.ScannedRanges
import QueryPlanning.Spec.Build

/-!
# Tables from specifications

A table that is made from a specification holds its partitions in order, numbered from 1, and their
files with all blocks and replicas. Replicas name their hosts by the numbering of the table instead
of their place in the specification, where a host may be listed twice.
-/

namespace QueryPlanning

/-- A replica is on the host that its specification names. -/
structure ReplicaSpec.Located (hosts : List Address) (numbering : Hosts) (spec : ReplicaSpec)
    (r : Replica) : Prop where
  cached : r.cached = spec.cached
  address : ∃ a, hosts[spec.host]? = some a ∧ numbering.address? r.host = some a

/-- The blocks of a file cover it, and each has the replicas of its specification. -/
structure FileSpec.Stored (hosts : List Address) (numbering : Hosts) (spec : FileSpec)
    (f : DataFile) : Prop where
  name : f.name = spec.name
  length : f.length = spec.length
  replicas : ∀ b ∈ f.blocks, List.Forall₂ (ReplicaSpec.Located hosts numbering) spec.replicas
    b.replicas
  blocks : 0 ≤ spec.length →
    Contiguous 0 spec.length (f.blocks.map fun b ↦ (b.offset, b.length))

/-- The partition that a table gives an identifier: they are numbered from 1. -/
def TableSpec.partition? (spec : TableSpec) (id : PartitionId) : Option PartitionSpec :=
  if 0 < id.val then spec.partitions[(id.val - 1).toNat]? else none

/-- The files of a partition, each with the identifier of this. -/
def TableSpec.filesOf (spec : TableSpec) (id : PartitionId) : List (PartitionId × FileSpec) :=
  ((spec.partition? id).elim [] (·.files)).map (id, ·)

/-- A table with the partitions and files of a specification. -/
structure TableSpec.Stored (spec : TableSpec) (t : Table) : Prop where
  database : t.database = spec.database
  name : t.name = spec.name
  consistent : t.Consistent
  partitions {p : Partition} : p ∈ t.partitions → ∃ q, spec.partition? p.id = some q ∧
    List.Forall₂ (FileSpec.Stored spec.hosts t.hosts) q.files p.files

theorem located_of_numbers {hosts : List Address} {numbering : Hosts} {numbers : List Nat}
    (h : List.Forall₂ (fun i a ↦ numbering.address? i = some a) numbers hosts) {k i : Nat}
    (hi : numbers[k]? = some i) : ∃ a, hosts[k]? = some a ∧ numbering.address? i = some a := by
  obtain ⟨hlt, rfl⟩ := List.getElem?_eq_some_iff.mp hi
  obtain ⟨hlength, hall⟩ := List.forall₂_iff_get.mp h
  have hlt' : k < hosts.length := hlength ▸ hlt
  exact ⟨hosts[k], List.getElem?_eq_getElem hlt', hall k hlt hlt'⟩

theorem map_span_blocks (replicas : List Replica) (l : List (Int × Int)) :
    (l.map fun (offset, length) ↦ ({ offset, length, replicas } : Block)).map
      (fun b ↦ (b.offset, b.length)) = l := by
  rw [List.map_map]
  exact List.map_id l

theorem FileSpec.stored_of_toFile {spec : FileSpec} {hosts : List Address} {numbering : Hosts}
    {numbers : List Nat} {f : DataFile}
    (hnumbers : List.Forall₂ (fun i a ↦ numbering.address? i = some a) numbers hosts)
    (h : spec.toFile numbers = .ok f) : spec.Stored hosts numbering f := by
  obtain ⟨replicas, hreplicas, h⟩ := Outcome.bind_eq_ok.mp h
  obtain rfl := Outcome.pure_eq_ok.mp h
  have hlocated : List.Forall₂ (ReplicaSpec.Located hosts numbering) spec.replicas replicas := by
    apply (Outcome.mapM_eq_ok.mp hreplicas).imp
    intro r x hx
    cases hhost : numbers[r.host]? with
    | none =>
      rw [hhost] at hx
      cases hx
    | some i =>
      rw [hhost] at hx
      obtain rfl := Except.ok.inj hx
      exact ⟨rfl, located_of_numbers hnumbers hhost⟩
  refine ⟨rfl, rfl, fun b hb ↦ ?_, fun hlength ↦ ?_⟩
  · obtain ⟨piece, -, rfl⟩ := List.mem_map.mp hb
    exact hlocated
  · have hcover := contiguous_pieces (spec.blockSize.getD 0) 0 spec.length hlength
    rw [Int.zero_add] at hcover
    change Contiguous 0 spec.length (((pieces (spec.blockSize.getD 0) 0 spec.length).map _).map _)
    rw [map_span_blocks replicas]
    exact hcover

theorem Table.exists_of_accept {t : Table} {p q : Partition} (h : t.accept p = .ok q) :
    ∃ values, q = { p with values } := by
  simp only [accept, Outcome.bind_eq_ok, Outcome.pure_eq_ok] at h
  obtain ⟨values, -, _, -, rfl⟩ := h
  exact ⟨values, rfl⟩

namespace TableSpec

variable {spec : TableSpec} {t t' : Table} {numbering : Hosts} {numbers : List Nat} {done : Nat}

/-- A table that has got some of the partitions of a specification, and will give the next one the
next number. -/
structure Loaded (spec : TableSpec) (numbering : Hosts) (done : Nat) (t : Table) : Prop where
  database : t.database = spec.database
  name : t.name = spec.name
  hosts : t.hosts = numbering
  consistent : t.Consistent
  next : t.ids.next = done + 1
  partitions {p : Partition} : p ∈ t.partitions → ∃ q, spec.partition? p.id = some q ∧
    List.Forall₂ (FileSpec.Stored spec.hosts numbering) q.files p.files

theorem partition?_next {q : PartitionSpec} (hq : spec.partitions[done]? = some q) :
    spec.partition? ⟨done + 1⟩ = some q := by
  unfold partition?
  have hpos : (0 : Int) < done + 1 := by omega
  have hindex : ((done : Int) + 1 - 1).toNat = done := by omega
  rw [if_pos hpos, hindex, hq]

theorem Loaded.add {q : PartitionSpec}
    (hnumbers : List.Forall₂ (fun i a ↦ numbering.address? i = some a) numbers spec.hosts)
    (hq : spec.partitions[done]? = some q) (h : spec.Loaded numbering done t)
    (hadd : q.addTo numbers t = .ok t') : spec.Loaded numbering (done + 1) t' := by
  obtain ⟨files, hfiles, hadd⟩ := Outcome.bind_eq_ok.mp hadd
  have hstored : List.Forall₂ (FileSpec.Stored spec.hosts numbering) q.files files :=
    (Outcome.mapM_eq_ok.mp hfiles).imp fun _ _ ↦ FileSpec.stored_of_toFile hnumbers
  obtain ⟨p, haccept, rfl⟩ := Table.add_eq_ok hadd
  obtain ⟨hid, hvalues, -⟩ := Table.accept_eq_ok haccept
  obtain ⟨values, rfl⟩ := Table.exists_of_accept haccept
  have hchange : Table.Change (fun _ ↦ True) t t.nextId.2 := t.nextId_change
  have hconsistent := (h.consistent.change hchange).insert hid hvalues
  constructor
  case database => exact h.database
  case name => exact h.name
  case hosts => exact h.hosts
  case consistent => exact hconsistent
  case next =>
    have hused : ¬ t.ids.next + 1 ≤ t.ids.next := by omega
    change (if t.ids.next + 1 ≤ t.ids.next then _ else t.nextId.2.ids).next = _
    rw [if_neg hused]
    exact congrArg (· + 1) h.next
  case partitions =>
    intro p hp
    rcases List.mem_append.mp hp with hp | hp
    · exact h.partitions hp
    · obtain rfl := List.mem_singleton.mp hp
      refine ⟨q, ?_, hstored⟩
      change spec.partition? ⟨t.ids.next⟩ = some q
      rw [h.next]
      exact partition?_next hq

theorem Loaded.addAll
    (hnumbers : List.Forall₂ (fun i a ↦ numbering.address? i = some a) numbers spec.hosts)
    {rest : List PartitionSpec} (hrest : spec.partitions.drop done = rest)
    (h : spec.Loaded numbering done t)
    (hadd : rest.foldlM (fun t q ↦ q.addTo numbers t) t = .ok t') :
    ∃ done', spec.Loaded numbering done' t' := by
  induction rest generalizing done t with
  | nil =>
    obtain rfl := Outcome.pure_eq_ok.mp hadd
    exact ⟨done, h⟩
  | cons q rest ih =>
    obtain ⟨t₁, hq, hadd⟩ := Outcome.foldlM_cons_eq_ok.mp hadd
    have hnext : spec.partitions[done]? = some q := by
      rw [← List.head?_drop, hrest, List.head?_cons]
    have hdrop : spec.partitions.drop (done + 1) = rest := by
      rw [← List.tail_drop, hrest, List.tail_cons]
    exact ih hdrop (h.add hnumbers hnext hq) hadd

theorem Loaded.start {columns : List Column} (numbering : Hosts) (rows : Int)
    (hnew : Table.new spec.database spec.name columns spec.clustering spec.baseDirectory = .ok t) :
    spec.Loaded numbering 0 { t with hosts := numbering, rows } := by
  have hchange : Table.Change (fun _ ↦ True) t { t with hosts := numbering, rows } :=
    .other rfl rfl rfl rfl rfl rfl rfl rfl
  have hconsistent := (Table.Consistent.of_new hnew).change hchange
  obtain ⟨-, _, -, heq⟩ := Table.new_eq_ok hnew
  have hpartitions : t.partitions = [] := by rw [heq]
  constructor
  case database => rw [heq]
  case name => rw [heq]
  case hosts => rfl
  case consistent => exact hconsistent
  case next =>
    change t.ids.next = 1
    rw [heq]
  case partitions =>
    intro p hp
    change p ∈ t.partitions at hp
    rw [hpartitions] at hp
    cases hp

/-- What is made from a specification is stored. -/
theorem stored_of_toTable (h : spec.toTable = .ok t) : spec.Stored t := by
  obtain ⟨t₀, hnew, h⟩ := Outcome.bind_eq_ok.mp h
  obtain ⟨-, hnumbers⟩ := t₀.hosts.forall₂_numberAll spec.hosts
  have hstart := Loaded.start (t₀.hosts.numberAll spec.hosts).2 (spec.rows.getD t₀.rows) hnew
  obtain ⟨done, hloaded⟩ := hstart.addAll hnumbers rfl h
  refine ⟨hloaded.database, hloaded.name, hloaded.consistent, fun hp ↦ ?_⟩
  rw [hloaded.hosts]
  exact hloaded.partitions hp

/-- The files of a partition of the table are those of the specification. -/
theorem Stored.forall₂_filesOf {id : PartitionId} {p : Partition} (h : spec.Stored t)
    (hp : t.partition? id = some p) : (spec.partition? id).isSome ∧
      List.Forall₂ (fun e f ↦ e.1 = p.id ∧ e.2.Stored spec.hosts t.hosts f) (spec.filesOf id)
        p.files := by
  obtain ⟨hmem, rfl⟩ := Table.mem_of_partition? hp
  obtain ⟨q, hq, hfiles⟩ := h.partitions hmem
  unfold filesOf
  rw [hq, Option.elim_some, List.forall₂_map_left_iff]
  exact ⟨rfl, hfiles.imp fun _ _ hf ↦ ⟨rfl, hf⟩⟩

end TableSpec

/-- Two tables that can be in one catalog. -/
def TableSpec.Distinct (a b : TableSpec) : Prop := a.database = b.database → a.name ≠ b.name

instance : Std.Symm TableSpec.Distinct where
  symm _ _ h hdatabase hname := h hdatabase.symm hname.symm

/-- The catalog holds the tables of some specifications and no others. -/
structure Catalog.Holds (c : Catalog) (specs : List TableSpec) : Prop where
  keyed : c.Keyed
  found {spec : TableSpec} : spec ∈ specs → (c.find? spec.database spec.name).isSome
  tables {database name : String} {t : Table} : c.find? database name = some t →
    ∃ spec ∈ specs, spec.database = database ∧ spec.name = name ∧ spec.toTable = .ok t
  distinct : specs.Pairwise TableSpec.Distinct

/-- The table of a specification goes into its database, which may be made before. -/
theorem TableSpec.runs_register {spec : TableSpec} {c c' : Catalog}
    (h : Outcome.Runs spec.register c () c') : ∃ c₁ t, (c₁ = c ∨ c.create spec.database = .ok c₁) ∧
      spec.toTable = .ok t ∧ c₁.add t = .ok c' := by
  have added {c₁ : Catalog} (hrun : Outcome.Runs (do
      let t ← liftM spec.toTable
      set (← liftM ((← get).add t)) : Loading Unit) c₁ () c') :
      ∃ t, spec.toTable = .ok t ∧ c₁.add t = .ok c' := by
    obtain ⟨t, _, ht, hrun⟩ := Outcome.runs_bind.mp hrun
    obtain ⟨htable, rfl⟩ := Outcome.runs_lift.mp ht
    obtain ⟨_, _, hget, hrun⟩ := Outcome.runs_bind.mp hrun
    obtain ⟨rfl, rfl⟩ := Outcome.runs_get.mp hget
    obtain ⟨_, _, hlift, hset⟩ := Outcome.runs_bind.mp hrun
    obtain ⟨hadd, rfl⟩ := Outcome.runs_lift.mp hlift
    obtain rfl := Outcome.runs_set.mp hset
    exact ⟨t, htable, hadd⟩
  obtain ⟨_, _, hget, h⟩ := Outcome.runs_bind.mp h
  obtain ⟨rfl, rfl⟩ := Outcome.runs_get.mp hget
  cases hdatabase : c.databases.get? spec.database with
  | some db =>
    simp only [hdatabase] at h
    exact ⟨c, (added h).choose, .inl rfl, (added h).choose_spec⟩
  | none =>
    simp only [hdatabase] at h
    obtain ⟨c₁, _, hlift, h⟩ := Outcome.runs_bind.mp h
    obtain ⟨hcreate, rfl⟩ := Outcome.runs_lift.mp hlift
    obtain ⟨_, _, hset, h⟩ := Outcome.runs_bind.mp h
    obtain rfl := Outcome.runs_set.mp hset
    exact ⟨c₁, (added h).choose, .inr hcreate, (added h).choose_spec⟩

namespace Catalog

variable {c c' : Catalog} {specs : List TableSpec}

theorem Holds.register {spec : TableSpec} (h : c.Holds specs)
    (hrun : Outcome.Runs spec.register c () c') : c'.Holds (specs ++ [spec]) := by
  obtain ⟨c₁, t, hdatabase, htable, hadd⟩ := TableSpec.runs_register hrun
  have hbefore : c₁.Keyed ∧ ∀ database name, c₁.find? database name = c.find? database name := by
    rcases hdatabase with rfl | hcreate
    · exact ⟨h.keyed, fun _ _ ↦ rfl⟩
    · exact (create_eq_ok hcreate).imp_left (· h.keyed)
  obtain ⟨hkeyed, hnone, hfind⟩ := add_eq_ok hbefore.1 hadd
  have hstored := TableSpec.stored_of_toTable htable
  rw [hstored.database, hstored.name] at hnone hfind
  simp only [hbefore.2] at hnone hfind
  constructor
  case keyed => exact hkeyed
  case found =>
    intro a ha
    rw [hfind]
    split
    case isTrue => rfl
    case isFalse hother =>
      rcases List.mem_append.mp ha with ha | ha
      · exact h.found ha
      · obtain rfl := List.mem_singleton.mp ha
        exact absurd ⟨rfl, rfl⟩ hother
  case tables =>
    intro database name t' ht'
    rw [hfind] at ht'
    split at ht'
    case isTrue hsame =>
      obtain rfl := Option.some.inj ht'
      exact ⟨spec, List.mem_append_right _ List.mem_cons_self, hsame.1.symm, hsame.2.symm, htable⟩
    case isFalse =>
      obtain ⟨a, ha, hmade⟩ := h.tables ht'
      exact ⟨a, List.mem_append_left _ ha, hmade⟩
  case distinct =>
    refine List.pairwise_append.mpr ⟨h.distinct, List.pairwise_singleton _ _, ?_⟩
    intro a ha b hb hsame hname
    obtain rfl := List.mem_singleton.mp hb
    have hfound := h.found ha
    rw [hsame, hname, hnone] at hfound
    cases hfound

theorem Holds.registerAll {rest : List TableSpec} (h : c.Holds specs)
    (hrun : Outcome.Runs (rest.forM (·.register)) c () c') : c'.Holds (specs ++ rest) := by
  induction rest generalizing c specs with
  | nil =>
    obtain rfl := Outcome.runs_forM_nil.mp hrun
    rwa [List.append_nil]
  | cons spec rest ih =>
    obtain ⟨c₁, hfirst, hrest⟩ := Outcome.runs_forM_cons.mp hrun
    rw [List.append_cons]
    exact ih (h.register hfirst) hrest

/-- What is registered in an empty catalog is all that it holds. -/
theorem holds_of_registerTables (h : registerTables specs {} = (.ok (), c)) : c.Holds specs := by
  have hempty : Holds {} [] := by
    constructor
    case keyed => exact fun _ _ hdb ↦ nomatch hdb
    case found => exact fun hspec ↦ absurd hspec List.not_mem_nil
    case tables => exact fun ht ↦ nomatch ht
    case distinct => exact .nil
  exact hempty.registerAll h

/-- No two specifications of tables have the same name. -/
theorem Holds.eq_of_name (h : c.Holds specs) {a b : TableSpec} (ha : a ∈ specs) (hb : b ∈ specs)
    (hdatabase : a.database = b.database) (hname : a.name = b.name) : a = b := by
  by_contra hne
  exact h.distinct.forall ha hb hne hdatabase hname

end Catalog

end QueryPlanning
