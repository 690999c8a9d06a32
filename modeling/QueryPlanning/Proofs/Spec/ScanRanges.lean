import QueryPlanning.Proofs.Spec.NodeInvariants
import QueryPlanning.Proofs.Spec.StoredTables

/-!
# Scans of the tables of a specification

Every scan of a plan reads the files of a specification, partition by partition: the ranges of a
file name the hosts of its replicas, and follow each other from its beginning to its end.
-/

namespace QueryPlanning

-- The sums of the core library, whatever else is imported.
attribute [local instance (high)] Zero.ofOfNat0

variable {ts : TableSpec} {hosts : Hosts}

/-- The bytes of a file can be read: it has some replicas, unless it is empty. -/
def FileSpec.Readable (spec : FileSpec) : Prop :=
  0 ≤ spec.length ∧ (spec.replicas ≠ [] ∨ spec.length = 0)

instance (spec : FileSpec) : Decidable spec.Readable :=
  inferInstanceAs (Decidable (_ ∧ _))

/-- A range is of a file of some partition, and its replicas are those of the file. -/
structure TableSpec.RangeOf (ts : TableSpec) (hosts : Hosts) (id : PartitionId) (spec : FileSpec)
    (r : ScanRange) : Prop where
  partition : r.partition = id
  file : r.file = spec.name
  fileLength : r.fileLength = spec.length
  replicas : List.Forall₂ (ReplicaSpec.Located ts.hosts hosts) spec.replicas r.replicas

/-- The ranges of a file of some partition. They cover it if it can be read. -/
structure TableSpec.RangesOf (ts : TableSpec) (hosts : Hosts) (e : PartitionId × FileSpec)
    (g : List ScanRange) : Prop where
  ranges : ∀ r ∈ g, ts.RangeOf hosts e.1 e.2 r
  covers : e.2.Readable → Contiguous 0 e.2.length (g.map ScanRange.span)

theorem ReplicaSpec.Located.renumber {addresses : List Address} {source : Hosts}
    {spec : ReplicaSpec} {r x : Replica} (h : spec.Located addresses source r)
    (hx : ScanRange.Renumbered source hosts r x) : spec.Located addresses hosts x := by
  obtain ⟨hcached, a, hspec, hsource⟩ := h
  obtain ⟨hcached', a', hsource', htarget⟩ := hx
  obtain rfl := Option.some.inj (hsource.symm.trans hsource')
  exact ⟨hcached'.trans hcached, a, hspec, htarget⟩

theorem ReplicaSpec.map_address_of_located {addresses : List Address} {numbering : Hosts}
    {specs : List ReplicaSpec} {rs : List Replica}
    (h : List.Forall₂ (ReplicaSpec.Located addresses numbering) specs rs) :
    rs.map (numbering.address? ·.host) = specs.map (addresses[·.host]?) := by
  induction h with
  | nil => rfl
  | cons hlocated _ ih =>
    obtain ⟨a, hspec, ha⟩ := hlocated.address
    rw [List.map_cons, List.map_cons, ih, ha, hspec]

/-- The blocks of a file that can be read have replicas. -/
theorem FileSpec.Stored.replicas_ne {addresses : List Address} {numbering : Hosts}
    {spec : FileSpec} {f : DataFile} (h : spec.Stored addresses numbering f)
    (hread : spec.Readable) {b : Block} (hb : b ∈ f.blocks) : b.replicas ≠ [] := by
  have hreplicas := h.replicas b hb
  rcases hread.2 with hne | hzero
  · intro hempty
    rw [hempty] at hreplicas
    exact hne (List.forall₂_nil_right_iff.mp hreplicas)
  · have hblocks := h.blocks hread.1
    rw [hzero] at hblocks
    have hnil := List.map_eq_nil_iff.mp hblocks.eq_nil
    rw [hnil] at hb
    cases hb

theorem ScanRange.OfFile.rangesOf {t : Table} {limit : Int} {p : Partition} {f : DataFile}
    {e : PartitionId × FileSpec} {g : List ScanRange} (hid : e.1 = p.id)
    (hstored : e.2.Stored ts.hosts t.hosts f) (h : OfFile t limit p hosts f g) :
    ts.RangesOf hosts e g := by
  constructor
  case ranges =>
    intro r hr
    obtain ⟨hpartition, hfile, hlength, b, hb, hreplicas⟩ := h.of_mem hr
    exact ⟨hpartition.trans hid.symm, hfile.trans hstored.name, hlength.trans hstored.length,
      forall₂_comp (fun _ _ _ ↦ .renumber) (hstored.replicas b hb) hreplicas⟩
  case covers =>
    intro hread
    exact h.contiguous (hstored.blocks hread.1) fun _ ↦ hstored.replicas_ne hread

/-- A scan of a table reads the files of its partitions in order. -/
structure TableSpec.ScannedBy (ts : TableSpec) (hosts : Hosts) (sc : Scan) : Prop where
  table : ts.toTable = .ok sc.table
  partitions : ∀ id ∈ sc.partitions, (ts.partition? id).isSome
  ascending : sc.partitions.Pairwise fun i j ↦ i.val < j.val
  ranges : ∃ groups, List.Forall₂ (ts.RangesOf hosts) (sc.partitions.flatMap ts.filesOf) groups ∧
    sc.ranges = groups.flatten
  bytes : sc.stats.bytes = ((sc.partitions.flatMap ts.filesOf).map (·.2.length)).sum

namespace TableSpec

variable {t : Table} {limit : Int} {id : PartitionId} {p : Partition}

theorem Stored.rangesOf {g : List ScanRange} (h : ts.Stored t) (hp : t.partition? id = some p)
    (hg : ScanRange.OfPartition t limit hosts p g) :
    ∃ gs, List.Forall₂ (ts.RangesOf hosts) (ts.filesOf id) gs ∧ g = gs.flatten := by
  obtain ⟨gs, hgs, rfl⟩ := hg
  refine ⟨gs, forall₂_comp ?_ (h.forall₂_filesOf hp).2 hgs, rfl⟩
  rintro e f g ⟨hid, hstored⟩ hfile
  exact hfile.rangesOf hid hstored

theorem Stored.size_eq (h : ts.Stored t) (hp : t.partition? id = some p) :
    ((ts.filesOf id).map (·.2.length)).sum = p.size := by
  have hlengths : (ts.filesOf id).map (·.2.length) = p.files.map (·.length) := by
    rw [← List.forall₂_eq_eq_eq, List.forall₂_map_left_iff, List.forall₂_map_right_iff]
    exact (h.forall₂_filesOf hp).2.imp fun _ _ hf ↦ hf.2.length.symm
  rw [hlengths, Partition.size]

theorem Stored.sum_sizes {ids : IdSet} {ps : List Partition} (h : ts.Stored t)
    (hps : List.Forall₂ (fun id p ↦ t.partition? id = some p) ids ps) :
    ((ids.flatMap ts.filesOf).map (·.2.length)).sum = (ps.map (·.size)).sum := by
  induction hps with
  | nil => rfl
  | cons hp _ ih =>
    rw [List.flatMap_cons, List.map_append, List.sum_append, List.map_cons, List.sum_cons,
      h.size_eq hp, ih]

theorem Stored.scannedBy {sc : Scan} {ps : List Partition} (h : ts.Stored sc.table)
    (htable : ts.toTable = .ok sc.table) (hreads : sc.Reads limit ps hosts) :
    ts.ScannedBy hosts sc := by
  have hps := hreads.partitions
  constructor
  case table => exact htable
  case partitions =>
    intro id hid
    obtain ⟨p, -, hp⟩ := Outcome.exists_of_mem_forall₂ (List.Forall₂.flip (R := flip _) hps) hid
    exact (h.forall₂_filesOf hp).1
  case ascending =>
    have hids : sc.table.index.ids.Pairwise fun i j ↦ i.val < j.val := by
      rw [h.consistent.ids]
      exact List.pairwise_map.mpr h.consistent.ascending
    exact hids.sublist hreads.sublist
  case ranges =>
    obtain ⟨gs, hgs, hranges⟩ := hreads.ranges
    have hall : List.Forall₂ (fun id g ↦ ∃ gs, List.Forall₂ (ts.RangesOf hosts) (ts.filesOf id)
        gs ∧ g = gs.flatten) sc.partitions gs := by
      refine forall₂_comp ?_ hps hgs
      exact fun _ _ _ ↦ h.rangesOf
    obtain ⟨groups, hgroups, heq⟩ := exists_forall₂_flatMap hall
    exact ⟨groups, hgroups, hranges.trans heq⟩
  case bytes => rw [hreads.stats, ScanStatistics.bytes_ofPartitions, h.sum_sizes hps]

theorem sum_ranges {files : List (PartitionId × FileSpec)} {groups : List (List ScanRange)}
    (hread : ∀ e ∈ files, e.2.Readable) (h : List.Forall₂ (ts.RangesOf hosts) files groups) :
    (groups.flatten.map (·.length)).sum = (files.map (·.2.length)).sum := by
  induction h with
  | nil => rfl
  | @cons e g files groups hfirst _ ih =>
    obtain ⟨he, hrest⟩ := List.forall_mem_cons.mp hread
    have hsum := (hfirst.covers he).sum
    rw [List.map_map, Int.sub_zero] at hsum
    rw [List.flatten_cons, List.map_append, List.sum_append, List.map_cons, List.sum_cons,
      ih hrest]
    exact congrArg (· + _) hsum

end TableSpec

/-- Each scan of a plan is of a table that the catalog holds. -/
theorem scan_invariant (catalog : Catalog) : NodeInvariant catalog fun hosts n ↦
    ∀ sc, n.kind = .scan sc → (∃ database name, catalog.find? database name = some sc.table) ∧
      ∃ limit ps, sc.Reads limit ps hosts where
  congr hkind _ h sc hsc := h sc (hkind.symm.trans hsc)
  mono hkeeps h sc hsc := by
    obtain ⟨hfound, limit, ps, hreads⟩ := h sc hsc
    exact ⟨hfound, limit, ps, hreads.mono hkeeps⟩
  plain _ hscan sc hsc := absurd hsc (hscan sc)
  scan htable hplan hkind sc hsc := by
    obtain ⟨⟨database, name⟩, -, htable⟩ := Outcome.bind_eq_ok.mp htable
    obtain ⟨-, rfl, -, -, ps, hreads⟩ := Scan.runs_plan hplan
    obtain rfl := NodeKind.scan.inj (hkind.symm.trans hsc)
    exact ⟨⟨database, name, Catalog.find?_of_table htable⟩, _, ps, hreads⟩

/-- What a plan from a specification scans: tables of the specification, each known by its name. -/
theorem PlanSpec.exists_scannedBy {spec : PlanSpec} {catalog : Catalog} {cluster : Cluster}
    {options : Options} {root : FragmentId} {s : Session}
    (h : spec.build {} cluster options = (.ok (root, s), catalog)) {n : Node} (hn : n ∈ s.nodes)
    {sc : Scan} (hsc : n.kind = .scan sc) : ∃ ts ∈ spec.tables, (∀ other ∈ spec.tables,
      other.database = sc.table.database → other.name = sc.table.name → other = ts) ∧
      ts.ScannedBy s.hosts sc := by
  have hholds := Catalog.holds_of_registerTables (PlanSpec.registerTables_of_build h)
  obtain ⟨hall, -⟩ := (scan_invariant catalog).buildFrom (PlanSpec.buildFrom_of_build h)
  obtain ⟨⟨database, name, hfound⟩, limit, ps, hreads⟩ := hall n hn sc hsc
  obtain ⟨ts, hts, -, -, htable⟩ := hholds.tables hfound
  have hstored := TableSpec.stored_of_toTable htable
  refine ⟨ts, hts, fun other hother hdatabase hname ↦ ?_, hstored.scannedBy htable hreads⟩
  exact hholds.eq_of_name hother hts (hdatabase.trans hstored.database)
    (hname.trans hstored.name)

/-- Every range of a plan has the replicas of its file, on the hosts that the specification names;
the numbers of these in the whole plan lead to their addresses. -/
theorem PlanSpec.build_locates_replicas {spec : PlanSpec} {catalog : Catalog} {cluster : Cluster}
    {options : Options} {root : FragmentId} {s : Session}
    (h : spec.build {} cluster options = (.ok (root, s), catalog)) {n : Node} (hn : n ∈ s.nodes)
    {sc : Scan} (hsc : n.kind = .scan sc) : ∃ ts ∈ spec.tables, ts.toTable = .ok sc.table ∧
      (∀ other ∈ spec.tables,
        other.database = sc.table.database → other.name = sc.table.name → other = ts) ∧
      (∀ id ∈ sc.partitions, (ts.partition? id).isSome) ∧
      ∃ groups, sc.ranges = groups.flatten ∧
        List.Forall₂ (fun e g ↦ ∀ r ∈ g, ts.RangeOf s.hosts e.1 e.2 r)
          (sc.partitions.flatMap ts.filesOf) groups := by
  obtain ⟨ts, hts, hunique, hscanned⟩ := PlanSpec.exists_scannedBy h hn hsc
  obtain ⟨groups, hgroups, hranges⟩ := hscanned.ranges
  exact ⟨ts, hts, hscanned.table, hunique, hscanned.partitions, groups, hranges,
    hgroups.imp fun _ _ hg ↦ hg.ranges⟩

/-- A table with a host that is listed twice. -/
def TableSpec.events : TableSpec where
  database := "web"
  name := "events"
  columns := [⟨"day", .int⟩, ⟨"user", .int⟩]
  clustering := 1
  baseDirectory := "/events"
  hosts := [⟨"a", 1⟩, ⟨"b", 1⟩, ⟨"a", 1⟩]
  partitions := [
    { values := [.integer 1], location := "/events/1", format := .text
      files := [
        { name := "x", length := 70, blockSize := some 64
          replicas := [⟨2, true⟩, ⟨1, false⟩] }] },
    { values := [.integer 2], location := "/events/2", format := .text
      files := [{ name := "y", length := 30, replicas := [⟨0, true⟩, ⟨1, false⟩] }] }]

/-- A table on one of the hosts of another one. -/
def TableSpec.users : TableSpec where
  database := "web"
  name := "users"
  columns := [⟨"id", .int⟩]
  baseDirectory := "/users"
  hosts := [⟨"b", 1⟩]
  partitions := [
    { values := [], location := "/users", format := .text
      files := [{ name := "z", length := 10, replicas := [⟨0, false⟩] }] }]

theorem Node.scan?_eq_some {n : Node} {sc : Scan} : n.scan? = some sc ↔ n.kind = .scan sc := by
  unfold scan?
  constructor
  · intro h
    split at h
    case h_1 heq => rw [heq, Option.some.inj h]
    case h_2 => cases h
  · intro h
    rw [h]

namespace PlanSpec

def visits : PlanSpec where
  tables := [.events, .users]
  root := .join {} (.scan "web.users" [] 1 (-1)) (.scan "web.events" [] 2 (-1))

/-- What can be seen of the scan that is a node of a plan. -/
def scanned? {α : Type} (spec : PlanSpec) (options : Options) (i : Nat) (f : Scan → α) :
    Option (FragmentId × α) := do
  let (root, s) ← (spec.build {} {} options).1.toOption
  let n ← s.nodes[i]?
  let sc ← n.scan?
  return (root, f sc)

theorem exists_of_scanned? {α : Type} {spec : PlanSpec} {options : Options} {i : Nat}
    {f : Scan → α} {root : FragmentId} {x : α} (h : spec.scanned? options i f = some (root, x)) :
    ∃ s catalog n sc, spec.build {} {} options = (.ok (root, s), catalog) ∧ n ∈ s.nodes ∧
      n.kind = .scan sc ∧ f sc = x := by
  obtain ⟨⟨root', s⟩, hs, h⟩ := Option.bind_eq_some_iff.mp h
  obtain ⟨n, hn, h⟩ := Option.bind_eq_some_iff.mp h
  obtain ⟨sc, hsc, h⟩ := Option.bind_eq_some_iff.mp h
  obtain ⟨rfl, rfl⟩ := Prod.mk.inj (Option.some.inj h)
  have hbuild : (spec.build {} {} options).1 = .ok (root', s) := Outcome.toOption_eq_some.mp hs
  exact ⟨s, _, n, sc, Prod.ext hbuild rfl, List.mem_of_getElem? hn, Node.scan?_eq_some.mp hsc, rfl⟩

end PlanSpec

theorem PlanSpec.build_locates_replicas_visits : ∃ s catalog n sc,
    visits.build {} {} {} = (.ok (⟨0⟩, s), catalog) ∧ n ∈ s.nodes ∧ n.kind = .scan sc ∧
    sc.ranges.length = 3 ∧ ∀ r ∈ sc.ranges,
      r.replicas.map (s.hosts.address? ·.host) = [some ⟨"a", 1⟩, some ⟨"b", 1⟩] := by
  have hscanned : visits.scanned? {} 1 (fun sc ↦ (sc.table.database, sc.table.name, sc.partitions,
      sc.ranges.length)) = some (⟨0⟩, "web", "events", [⟨1⟩, ⟨2⟩], 3) := by
    decide +kernel
  obtain ⟨s, catalog, n, sc, hbuild, hn, hsc, heq⟩ := exists_of_scanned? hscanned
  obtain ⟨hdatabase, heq⟩ := Prod.mk.inj heq
  obtain ⟨hname, heq⟩ := Prod.mk.inj heq
  obtain ⟨hpartitions, hlength⟩ := Prod.mk.inj heq
  have hfiles : ∀ e ∈ [⟨1⟩, ⟨2⟩].flatMap TableSpec.events.filesOf,
      e.2.replicas.map (TableSpec.events.hosts[·.host]?) = [some ⟨"a", 1⟩, some ⟨"b", 1⟩] := by
    decide
  obtain ⟨ts, -, -, hunique, -, groups, hranges, hgroups⟩ := build_locates_replicas hbuild hn hsc
  obtain rfl := hunique .events List.mem_cons_self hdatabase.symm hname.symm
  refine ⟨s, catalog, n, sc, hbuild, hn, hsc, hlength, fun r hr ↦ ?_⟩
  rw [hranges] at hr
  rw [hpartitions] at hgroups
  obtain ⟨g, hg, hr⟩ := List.mem_flatten.mp hr
  obtain ⟨e, he, hrange⟩ := Outcome.exists_of_mem_forall₂ hgroups hg
  rw [ReplicaSpec.map_address_of_located (hrange r hr).replicas]
  exact hfiles e he

/-- The ranges of a file that can be read follow each other from its beginning to its end, for every
block size and every limit of the ranges. If all files of a scan can be read, then its ranges have
as many bytes as it counts. -/
theorem PlanSpec.build_reads_every_byte {spec : PlanSpec} {catalog : Catalog} {cluster : Cluster}
    {options : Options} {root : FragmentId} {s : Session}
    (h : spec.build {} cluster options = (.ok (root, s), catalog)) {n : Node} (hn : n ∈ s.nodes)
    {sc : Scan} (hsc : n.kind = .scan sc) : ∃ ts ∈ spec.tables, ts.toTable = .ok sc.table ∧
      (∀ other ∈ spec.tables,
        other.database = sc.table.database → other.name = sc.table.name → other = ts) ∧
      (∀ id ∈ sc.partitions, (ts.partition? id).isSome) ∧
      (sc.partitions.Pairwise fun i j ↦ i.val < j.val) ∧
      (∃ groups, sc.ranges = groups.flatten ∧
        List.Forall₂ (fun e g ↦
            (∀ r ∈ g, r.partition = e.1 ∧ r.file = e.2.name ∧ r.fileLength = e.2.length) ∧
            (e.2.Readable → Contiguous 0 e.2.length (g.map ScanRange.span)))
          (sc.partitions.flatMap ts.filesOf) groups) ∧
      ((∀ e ∈ sc.partitions.flatMap ts.filesOf, e.2.Readable) →
        (sc.ranges.map (·.length)).sum = sc.stats.bytes) := by
  obtain ⟨ts, hts, hunique, hscanned⟩ := PlanSpec.exists_scannedBy h hn hsc
  obtain ⟨groups, hgroups, hranges⟩ := hscanned.ranges
  refine ⟨ts, hts, hscanned.table, hunique, hscanned.partitions, hscanned.ascending,
    ⟨groups, hranges, hgroups.imp fun e g hg ↦ ?_⟩, fun hread ↦ ?_⟩
  · refine ⟨fun r hr ↦ ?_, hg.covers⟩
    obtain ⟨hpartition, hfile, hlength, -⟩ := hg.ranges r hr
    exact ⟨hpartition, hfile, hlength⟩
  · rw [hranges, hscanned.bytes]
    exact TableSpec.sum_ranges hread hgroups

theorem PlanSpec.build_reads_every_byte_visits : ∃ s catalog n sc,
    visits.build {} {} { maxRangeLength := 50 } = (.ok (⟨0⟩, s), catalog) ∧ n ∈ s.nodes ∧
    n.kind = .scan sc ∧ sc.ranges.map (·.length) = [50, 14, 6, 30] ∧
    sc.stats.bytes = 100 := by
  have hscanned : visits.scanned? { maxRangeLength := 50 } 1 (fun sc ↦ (sc.table.database,
      sc.table.name, sc.partitions, sc.ranges.map (·.length))) =
      some (⟨0⟩, "web", "events", [⟨1⟩, ⟨2⟩], [50, 14, 6, 30]) := by
    decide +kernel
  obtain ⟨s, catalog, n, sc, hbuild, hn, hsc, heq⟩ := exists_of_scanned? hscanned
  obtain ⟨hdatabase, heq⟩ := Prod.mk.inj heq
  obtain ⟨hname, heq⟩ := Prod.mk.inj heq
  obtain ⟨hpartitions, hlengths⟩ := Prod.mk.inj heq
  have hfiles : ∀ e ∈ [⟨1⟩, ⟨2⟩].flatMap TableSpec.events.filesOf, e.2.Readable := by
    decide
  obtain ⟨ts, -, -, hunique, -, -, -, hsum⟩ := build_reads_every_byte hbuild hn hsc
  obtain rfl := hunique .events List.mem_cons_self hdatabase.symm hname.symm
  rw [hpartitions] at hsum
  refine ⟨s, catalog, n, sc, hbuild, hn, hsc, hlengths, ?_⟩
  rw [← hsum hfiles, hlengths]
  rfl

end QueryPlanning
