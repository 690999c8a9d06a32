import QueryPlanning.Catalog.Hosts
import QueryPlanning.Catalog.KeyIndex
import QueryPlanning.Catalog.Partition

/-!
# Tables

A table whose rows lie in partitions of a file system. Besides the partitions themselves a table
keeps what it would take a pass over all of them to find out: the partition of each directory name,
the index of key values with the statistics of the clustering columns, and the numbers of files and
bytes. `Table.add` and `Table.drop` change all of these together.

Partition identifiers are never used twice. The table hands them out in ascending order, and one
that comes from elsewhere has to be above all that were ever added; so the list of partitions is
ascending because new ones go to its end.
-/

namespace QueryPlanning

structure Table where
  database : String
  name : String
  /-- The clustering columns come first. -/
  columns : List Column
  clustering : Nat
  baseDirectory : String
  nullKey : String := "__HIVE_DEFAULT_PARTITION__"
  nullColumn : String := "\\N"
  default : Partition
  /-- All others, by ascending identifier. -/
  partitions : List Partition := []
  /-- The partition last added under each directory name. -/
  directories : List (String × PartitionId) := []
  index : KeyIndex
  hosts : Hosts := {}
  files : Int := 0
  bytes : Int := 0
  /-- The number of rows, or -1. -/
  rows : Int := -1
  cached : Bool := false
  ids : IdSource .partition := ⟨1⟩
  /-- The highest identifier of all partitions there ever were. -/
  highest : Int := 0
  deriving Inhabited

namespace Table

def fullName (t : Table) : String := t.database ++ "." ++ t.name

def clusteringColumns (t : Table) : List Column := t.columns.take t.clustering

def isPartitioned (t : Table) : Bool := 0 < t.clustering

/-- The first column of a name, in any case of its ASCII letters. -/
def column? (t : Table) (name : String) : Option Column :=
  t.columns.find? fun c ↦ Text.sameName c.name name

/-- The position of the first clustering column of a name. -/
def clusteringPosition? (t : Table) (name : String) : Option Nat :=
  t.clusteringColumns.findIdx? fun c ↦ Text.sameName c.name name

def directoryOf (t : Table) (p : Partition) : String :=
  p.directory t.clusteringColumns t.nullKey

/-- A table without partitions. Every clustering column must have a type for partitioning. -/
def new (database name : String) (columns : List Column) (clustering : Nat)
    (baseDirectory : String) : Except Error Table := do
  if columns.length < clustering then
    throw (.clusteringCount name clustering columns.length)
  match (columns.take clustering).find? fun c ↦ !c.type.isPartitionable with
  | some c => throw (.unpartitionableColumn name c.name c.type)
  | none => pure ()
  let counted := (columns.take clustering).map fun c ↦ { c with stats := .zero }
  let id := Partition.defaultId
  return {
    database, name, clustering, baseDirectory
    columns := counted ++ columns.drop clustering
    default := { id, values := [], location := baseDirectory, format := .text }
    index := .empty clustering }

/-! ## Looking partitions up -/

def partition? (t : Table) (id : PartitionId) : Option Partition :=
  t.partitions.find? (·.id = id)

/-- As `partition?`, with the default partition. -/
def anyPartition? (t : Table) (id : PartitionId) : Option Partition :=
  if id = Partition.defaultId then some t.default else t.partition? id

/-- The partition last added under a directory name, unless it or another one of that name has been
dropped since. -/
def ofDirectory? (t : Table) (directory : String) : Option Partition :=
  (t.directories.lookup directory).bind t.partition?

/-- A value as it is compared with others of its column: the empty string is read as null. -/
def keyText (t : Table) (v : Literal) : String :=
  match v with
  | .string s => if s.isEmpty then t.nullKey else s
  | v => v.keyText t.nullKey

/-- The one value that a specification gives for a column. -/
def specValue? (spec : List KeyValue) (c : Column) : Option Literal :=
  match spec.filter fun kv ↦ Text.sameName kv.name c.name with
  | [kv] => some kv.value
  | _ => none

/-- The key texts that a specification gives for the clustering columns: it has to name each of them
once. -/
def specKeys? (t : Table) (spec : List KeyValue) : Option (List String) :=
  if t.clustering = 0 then none
  else t.clusteringColumns.mapM fun c ↦ (specValue? spec c).map t.keyText

/-- All partitions with the key values of a specification, by ascending identifier. -/
def ofSpec (t : Table) (spec : List KeyValue) : List Partition :=
  match t.specKeys? spec with
  | some keys =>
    t.partitions.filter fun p ↦ (List.zipWith (· == ·) (p.values.map t.keyText) keys).all id
  | none => []

/-- One partition with the key values of a specification. -/
def ofSpec? (t : Table) (spec : List KeyValue) : Option Partition := (t.ofSpec spec).head?

/-- One partition for each specification that has any. -/
def ofSpecs (t : Table) (specs : List (List KeyValue)) : List Partition :=
  specs.filterMap t.ofSpec?

/-- The partitions but for the default one, in their order. -/
def sorted (t : Table) : List Partition := Partition.sort t.partitions

/-! ## Adding and dropping -/

def stats (t : Table) : List ColumnStats := t.clusteringColumns.map (·.stats)

/-- Replaces the statistics of the first columns. -/
def withStats : List Column → List ColumnStats → List Column
  | c :: cs, s :: ss => { c with stats := s } :: withStats cs ss
  | cs, _ => cs

def setEntry {α : Type} (key : String) (value : α) : List (String × α) → List (String × α)
  | [] => [(key, value)]
  | (k, v) :: rest => if k = key then (key, value) :: rest else (k, v) :: setEntry key value rest

/-- A key value as the column stores it: decimals at the scale of the column. -/
def storedValue (c : Column) (v : Literal) : Except Error Literal :=
  match c.type with
  | .decimal _ scale =>
    match v.rescale? scale with
    | some v => .ok v
    | none => .error (.unfitKey v.sql c.name c.type)
  | _ => .ok v

/-- `storedValue` for each value that has a column. -/
def storedValues : List Column → List Literal → Except Error (List Literal)
  | c :: cs, v :: vs => return (← storedValue c v) :: (← storedValues cs vs)
  | _, vs => .ok vs

/-- Checks that a partition can be added. -/
def check (t : Table) (p : Partition) : Except Error Unit := do
  if p.isDefault then throw (.defaultPartitionAdded t.name)
  if (t.partition? p.id).isSome then throw (.partitionExists p.id t.name)
  if p.id.val ≤ t.highest then throw (.partitionIdUsed p.id t.name t.highest)
  if p.values.length ≠ t.clustering then
    throw (.keyCount p.id p.values.length t.name t.clustering)

/-- Adds a partition that has passed the check. -/
def insert (t : Table) (p : Partition) : Table :=
  let (index, stats) := t.index.add p.id p.values t.stats
  { t with
    highest := p.id.val
    ids := if t.ids.next ≤ p.id.val then ⟨p.id.val + 1⟩ else t.ids
    directories := setEntry (t.directoryOf p) p.id t.directories
    index
    columns := withStats t.columns stats
    files := t.files + p.fileCount
    bytes := t.bytes + p.size
    partitions := t.partitions ++ [p] }

/-- A partition with its values as the table stores them, if it can be added. -/
def accept (t : Table) (p : Partition) : Except Error Partition := do
  let p := { p with values := ← storedValues t.clusteringColumns p.values }
  t.check p
  return p

/-- Adds a partition. An identifier from elsewhere moves those handed out later above it. -/
def add (t : Table) (p : Partition) : Except Error Table := do
  return t.insert (← t.accept p)

/-- Hands out an identifier that no partition of the table has had. -/
def nextId (t : Table) : PartitionId × Table :=
  let (id, ids) := t.ids.take
  (id, { t with ids })

/-- Takes out a given partition of the table. -/
def remove (t : Table) (p : Partition) : Table :=
  let (index, stats) := t.index.remove p.id p.values t.stats
  { t with
    partitions := t.partitions.filter (·.id ≠ p.id)
    directories := t.directories.filter (·.1 ≠ t.directoryOf p)
    index
    columns := withStats t.columns stats
    files := t.files - p.fileCount
    bytes := t.bytes - p.size }

/-- Drops the partition of an identifier, if there is one. -/
def drop (t : Table) (id : PartitionId) : Option Partition × Table :=
  match t.partition? id with
  | some p => (some p, t.remove p)
  | none => (none, t)

/-- Drops partitions one after the other and lists those that were there. -/
def dropAll (t : Table) : List PartitionId → List Partition × Table
  | [] => ([], t)
  | id :: rest =>
    let (dropped, t) := t.drop id
    let (others, t) := t.dropAll rest
    (dropped.toList ++ others, t)

/-- Drops one partition with the key values of a specification. -/
def dropSpec (t : Table) (spec : List KeyValue) : Option Partition × Table :=
  match t.ofSpec? spec with
  | some p => t.drop p.id
  | none => (none, t)

/-- Drops all partitions but the default one. -/
def reset (t : Table) : Table :=
  { t with
    partitions := []
    directories := []
    index := t.index.clear
    columns := withStats t.columns (t.clusteringColumns.map fun _ ↦ .zero)
    files := 0
    bytes := 0 }

/-- Replaces the default partition. -/
def setDefault (t : Table) (location : String) (format : FileFormat) : Table :=
  { t with default := { id := t.default.id, values := [], location, format } }

/-- Adds a partition under a new identifier. The identifier is used up even if the partition is
refused. -/
def create (t : Table) (values : List Literal) (location : String) (format : FileFormat)
    (files : List DataFile) : Except Error PartitionId × Table :=
  let (id, t) := t.nextId
  match t.add { id, values, location, format, files } with
  | .ok t => (.ok id, t)
  | .error e => (.error e, t)

/-- Replaces a partition by one with a new identifier, or leaves the table as it is. -/
def reload (t : Table) (old : PartitionId) (p : Partition) : Except Error Table := do
  if (t.partition? old).isNone then throw (.partitionNotFound old t.name)
  let p ← t.accept p
  return (t.drop old).2.insert p

/-! ## Formats and access -/

/-- The format of most partitions; of several, the first in the order of formats. Without any
partition it is the format of the default one. -/
def majorityFormat (t : Table) : FileFormat :=
  let count (f : FileFormat) : Nat := t.partitions.countP (·.format = f)
  let best := FileFormat.all.foldl
    (fun best f ↦ if (best.map count).getD 0 < count f then some f else best) none
  best.getD t.default.format

def allPartitions (t : Table) : List Partition := t.default :: t.partitions

/-- The locations that cannot be written to, that of the default partition first. -/
def unwritable (t : Table) : List String :=
  (t.allPartitions.filter fun p ↦ !p.access.writes).map (·.location)

def isWritable (t : Table) : Bool := t.unwritable.isEmpty

end Table

end QueryPlanning
