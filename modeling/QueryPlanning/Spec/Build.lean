import QueryPlanning.Catalog.Registry
import QueryPlanning.Plan.Session
import QueryPlanning.Spec.Basic

/-!
# Building plans

A specification becomes a plan in two steps: its tables go into the catalog, and its operators
become the nodes and fragments of a session. What was put into the catalog before an error stays
there.
-/

namespace QueryPlanning

-- The sums of the core library, whatever else is imported.
attribute [local instance (high)] Zero.ofOfNat0

/-! ## Tables -/

/-- A file of a table whose hosts have some numbers. -/
def FileSpec.toFile (spec : FileSpec) (hosts : List Nat) : Except Error DataFile := do
  let replicas ← spec.replicas.mapM fun r ↦
    match hosts[r.host]? with
    | some host => Except.ok (Replica.mk host r.cached)
    | none => .error (.unknownFileHost spec.name r.host)
  let blocks := (pieces (spec.blockSize.getD 0) 0 spec.length).map fun (offset, length) ↦
    { offset, length, replicas }
  return .named spec.name spec.length spec.modified blocks

/-- Adds a partition under the next identifier. -/
def PartitionSpec.addTo (spec : PartitionSpec) (hosts : List Nat) (t : Table) :
    Except Error Table := do
  let files ← spec.files.mapM (·.toFile hosts)
  let (id, t) := t.nextId
  t.add {
    id, files
    values := spec.values
    location := spec.location
    format := spec.format
    rows := spec.rows.getD (-1) }

def TableSpec.toTable (spec : TableSpec) : Except Error Table := do
  let columns := spec.columns.zipIdx.map fun (c, position) ↦
    { name := c.name, type := c.type, position }
  let t ← Table.new spec.database spec.name columns spec.clustering spec.baseDirectory
  let (numbers, hosts) := t.hosts.numberAll spec.hosts
  let t := { t with hosts, rows := spec.rows.getD t.rows }
  spec.partitions.foldlM (fun t p ↦ p.addTo numbers t) t

/-- Changes the catalog; the changes made before an error stay. -/
abbrev Loading := ExceptT Error (StateM Catalog)

/-- Adds a table to its database, which is made if it is missing. -/
def TableSpec.register (spec : TableSpec) : Loading Unit := do
  let catalog ← get
  match catalog.databases.get? spec.database with
  | some _ => pure ()
  | none => set (← catalog.create spec.database)
  let t ← spec.toTable
  set (← (← get).add t)

def registerTables (specs : List TableSpec) (catalog : Catalog) : Except Error Unit × Catalog :=
  (specs.forM (·.register) : Loading Unit).run.run catalog

/-! ## Names -/

/-- Splits a full name at its first point. -/
def splitName (name : String) : Except Error (String × String) :=
  let cs := name.toList
  match cs.dropWhile (· ≠ '.') with
  | [] => .error (.unqualifiedTable name)
  | _ :: rest => .ok (String.ofList (cs.takeWhile (· ≠ '.')), String.ofList rest)

namespace Catalog

/-- The table of a full name. -/
def tableNamed (catalog : Catalog) (name : String) : Except Error Table := do
  let (database, name) ← splitName name
  catalog.table database name

end Catalog

/-! ## Nodes -/

namespace Session

/-- Adds a node whose rows are those of its first child, up to a limit. -/
def addUnary (kind : NodeKind) (children : List NodeId) (limit : Int) (conjuncts : List Expr)
    (s : Session) : Except Error (NodeId × Session) := do
  let input? ← children.head?.mapM s.node
  let inputRows := (input?.map (·.rows)).getD (-1)
  let hosts := (input?.map (·.hosts)).getD 1
  return s.add fun id ↦
    { id, kind, children, inputRows, rows := limitedRows inputRows limit, limit, hosts, conjuncts }

/-- Adds a join, which is taken to pass on as many rows as come from its probe side. -/
def addJoin (join : Join) (probe build : NodeId) (s : Session) :
    Except Error (NodeId × Session) := do
  let input ← s.node probe
  return s.add fun id ↦
    { id, kind := .join join, children := [probe, build], rows := input.rows,
      inputRows := input.rows, hosts := input.hosts }

/-- Adds a union, whose rows are unknown if those of an input are. -/
def addUnion (children : List NodeId) (s : Session) : Except Error (NodeId × Session) := do
  let inputs ← children.mapM s.node
  let rows := if inputs.any (·.rows == -1) then -1 else (inputs.map (·.rows)).sum
  let hosts := (inputs.map (·.hosts)).max?.getD 1
  return s.add fun id ↦ { id, kind := .union, children, rows, inputRows := rows, hosts }

/-- Adds a source of a known number of rows. -/
def addSource (kind : NodeKind) (rows : Int) (s : Session) : NodeId × Session :=
  s.add fun id ↦ { id, kind, children := [], rows, inputRows := rows }

/-- Cuts a fragment; without partitioning it executes on one node. -/
def cut (root : NodeId) (partitioning : Partitioning) (s : Session) :
    Except Error (FragmentId × Session) := do
  let (fragment, s) ← s.createFragment root partitioning
  return (fragment,
    if partitioning.isPartitioned then s else s.modifyNode root ({ · with hosts := 1 }))

/-- Cuts a fragment at a node and adds an exchange above it. -/
def cutExchange (root : NodeId) (sent own : Partitioning) (s : Session) :
    Except Error (NodeId × Session) := do
  let (fragment, s) ← s.cut root own
  let (id, s) ← s.addExchange fragment sent
  let hosts := if sent.isPartitioned then Number.wrapSigned 32 s.cluster.size else 1
  return (id, s.modifyNode id ({ · with hosts }))

end Session

namespace NodeSpec

mutual

/-- Adds the nodes of an operator, children first, and returns the topmost. -/
def build (catalog : Catalog) (s : Session) : NodeSpec → Except Error (NodeId × Session)
  | .scan table predicates columns limit => do
    let t ← catalog.tableNamed table
    let (id, s) := s.addScan t predicates columns limit
    return (← id, s)
  | .join spec probe side => do
    let (p, s) ← probe.build catalog s
    let (b, s) ← side.build catalog s
    s.addJoin { spec with table := .invalid } p b
  | .exchange sent own input => do
    let (root, s) ← input.build catalog s
    s.cutExchange root sent own
  | .subplan input evaluated => do
    let (i, s) ← input.build catalog s
    let (e, s) ← evaluated.build catalog s
    s.addUnary .subplan [i, e] (-1) []
  | .aggregation spec input => do
    let (i, s) ← input.build catalog s
    s.addUnary (.aggregation spec) [i] (-1) []
  | .select conjuncts input => do
    let (i, s) ← input.build catalog s
    s.addUnary .select [i] (-1) conjuncts
  | .sort keys limit input => do
    let (i, s) ← input.build catalog s
    s.addUnary (.sort keys) [i] limit []
  | .union inputs => do
    let (children, s) ← buildAll catalog s inputs
    s.addUnion children
  | .unnest collection => .ok (s.addSource (.unnest collection) (-1))
  | .singularRow => .ok (s.addSource .singularRow 1)
  | .emptySet => .ok (s.addSource .emptySet 0)

def buildAll (catalog : Catalog) (s : Session) : List NodeSpec →
    Except Error (List NodeId × Session)
  | [] => .ok ([], s)
  | spec :: rest => do
    let (id, s) ← spec.build catalog s
    let (ids, s) ← buildAll catalog s rest
    return (id :: ids, s)

end

end NodeSpec

/-! ## Plans -/

namespace SinkSpec

/-- The sink that writes to the table. -/
def toSink (spec : SinkSpec) (catalog : Catalog) : Except Error TableSink := do
  let t ← catalog.tableNamed spec.table
  let sink ← TableSink.create t .insert spec.keys spec.overwrite spec.clustered
  return { sink with partitions := spec.partitions.getD sink.partitions }

end SinkSpec

namespace PlanSpec

/-- The membership that is in force for the plan: its own, if it has one. -/
def clusterOr (spec : PlanSpec) (cluster : Cluster) : Cluster :=
  (spec.membership.map Cluster.ofUpdate).getD cluster

def sinkKind (spec : PlanSpec) (catalog : Catalog) : Except Error SinkKind :=
  match spec.sink with
  | some sink => .table <$> sink.toSink catalog
  | none => .ok .planRoot

/-- Builds the plan from the tables of the catalog; the result is its topmost fragment. -/
def buildFrom (spec : PlanSpec) (catalog : Catalog) (cluster : Cluster) (options : Options) :
    Except Error (FragmentId × Session) := do
  let (node, s) ← spec.root.build catalog { options, cluster := spec.clusterOr cluster }
  let (root, s) ← s.cut node spec.partitioning
  return (root, s.setSink root (← spec.sinkKind catalog))

/-- Adds the tables of the specification to the catalog and builds the plan. -/
def build (spec : PlanSpec) (catalog : Catalog) (cluster : Cluster) (options : Options) :
    Except Error (FragmentId × Session) × Catalog :=
  match registerTables spec.tables catalog with
  | (.ok _, catalog) => (spec.buildFrom catalog cluster options, catalog)
  | (.error e, catalog) => (.error e, catalog)

end PlanSpec

end QueryPlanning
