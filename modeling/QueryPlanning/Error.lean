import QueryPlanning.Catalog.ColumnType
import QueryPlanning.Catalog.Storage
import QueryPlanning.Id
import QueryPlanning.Size

/-!
# Errors

Every way in which the catalog or the planner refuses to go on, with what it has to tell. `kind`
sorts the causes: internal errors are broken promises between the parts of the planner, all others
can be caused by the input. `message` is the text shown to the user.
-/

namespace QueryPlanning

inductive ErrorKind
  | internal
  | analysis
  | tableLoading
  | notFound
  | alreadyExists
  | invalidArgument
  | notSupported
  | serialization
  | configuration
  deriving DecidableEq, Repr

def ErrorKind.label : ErrorKind → String
  | .internal => "Internal error"
  | .analysis => "Analysis error"
  | .tableLoading => "Table loading error"
  | .notFound => "Not found"
  | .alreadyExists => "Already exists"
  | .invalidArgument => "Invalid argument"
  | .notSupported => "Not supported"
  | .serialization => "Serialization error"
  | .configuration => "Configuration error"

inductive Error
  -- Promises between the parts of the planner
  /-- A node or fragment that the session does not hold, or links that lead round in a circle. -/
  | brokenLink
  | invalidJoinTable (table : JoinTableId)
  | joinTableAssigned (table : JoinTableId)
  | sinkWithoutJoinTable
  | conjunctWithoutOperand (sql : String)
  | exchangeFed (fragment : FragmentId)
  | notChild (child parent : FragmentId)
  | notPlanRoot (fragment : FragmentId)
  | joinWithoutBuild (join : NodeId)
  | inputCount (join : NodeId) (exchanges inputs : Nat)
  | exchangeOutside (exchange : NodeId) (fragment : FragmentId)
  | orphanInput (fragment : FragmentId)
  | notJoin (node : NodeId)
  | partitionVanished (partition : PartitionId) (table : String)
  | defaultPartitionScanned (table : String)
  | unknownReplicaHost (host : Nat) (table : String)
  | unknownRangeHost (host : Nat)
  -- Analysis
  | notPartitionColumn (column table : String)
  -- Loading a table
  | clusteringCount (table : String) (clustering columns : Nat)
  | unpartitionableColumn (table column : String) (type : ColumnType)
  | unknownFileHost (file : String) (host : Nat)
  -- Looking things up
  | databaseNotFound (database : String)
  | tableNotFound (database table : String)
  | tableNotInDatabase (table database : String)
  | partitionNotFound (partition : PartitionId) (table : String)
  -- Adding what is there
  | databaseExists (database : String)
  | tableExists (table database : String)
  | partitionExists (partition : PartitionId) (table : String)
  | partitionIdUsed (partition : PartitionId) (table : String) (highest : Int)
  -- Arguments
  | databaseNotEmpty (database : String)
  | invalidKey (text : String) (type : ColumnType)
  | unfitKey (key column : String) (type : ColumnType)
  | defaultPartitionAdded (table : String)
  | keyCount (partition : PartitionId) (keys : Nat) (table : String) (clustering : Nat)
  | unqualifiedTable (name : String)
  | unknownDetail (text : String)
  -- What is not there
  | keyType (type : ColumnType)
  | tableOperation (operation table : String)
  | sinkFormat (format : FileFormat)
  -- Reading
  | unreadableSpec
  | unreadableConfig
  -- Configuration
  | invalidRangeLength (text : String) (cause : Size.Unread)
  | emptyNullKey
  | noCores
  deriving Repr

namespace Error

def kind : Error → ErrorKind
  | .brokenLink | .invalidJoinTable _ | .joinTableAssigned _ | .sinkWithoutJoinTable
  | .conjunctWithoutOperand _ | .exchangeFed _ | .notChild _ _ | .notPlanRoot _
  | .joinWithoutBuild _ | .inputCount _ _ _ | .exchangeOutside _ _ | .orphanInput _ | .notJoin _
  | .partitionVanished _ _ | .defaultPartitionScanned _ | .unknownReplicaHost _ _
  | .unknownRangeHost _ => .internal
  | .notPartitionColumn _ _ => .analysis
  | .clusteringCount _ _ _ | .unpartitionableColumn _ _ _ | .unknownFileHost _ _ => .tableLoading
  | .databaseNotFound _ | .tableNotFound _ _ | .tableNotInDatabase _ _ | .partitionNotFound _ _ =>
    .notFound
  | .databaseExists _ | .tableExists _ _ | .partitionExists _ _ | .partitionIdUsed _ _ _ =>
    .alreadyExists
  | .databaseNotEmpty _ | .invalidKey _ _ | .unfitKey _ _ _ | .defaultPartitionAdded _
  | .keyCount _ _ _ _ | .unqualifiedTable _ | .unknownDetail _ => .invalidArgument
  | .keyType _ | .tableOperation _ _ | .sinkFormat _ => .notSupported
  | .unreadableSpec => .serialization
  | .unreadableConfig | .invalidRangeLength _ _ | .emptyNullKey | .noCores => .configuration

def isInternal (e : Error) : Bool := e.kind = .internal

/-- What the error tells, without its kind. -/
def detail : Error → String
  | .brokenLink => "broken link between plan nodes or fragments"
  | .invalidJoinTable table => "invalid join table id " ++ table.text
  | .joinTableAssigned table => "join table id already assigned: " ++ table.text
  | .sinkWithoutJoinTable => "join build sink needs a valid join table id"
  | .conjunctWithoutOperand sql => "equi-join conjunct is not a binary predicate: " ++ sql
  | .exchangeFed fragment => "fragment " ++ fragment.text ++ " already feeds an exchange"
  | .notChild child parent =>
    "fragment " ++ child.text ++ " is not a child of fragment " ++ parent.text
  | .notPlanRoot fragment => "fragment " ++ fragment.text ++ " is not a plan root"
  | .joinWithoutBuild join => "join " ++ join.text ++ " has no build side"
  | .inputCount join exchanges inputs =>
    "join " ++ join.text ++ ": " ++ toString exchanges ++ " build-side exchanges but " ++
      toString inputs ++ " input fragments"
  | .exchangeOutside exchange fragment =>
    "exchange " ++ exchange.text ++ " not in build fragment " ++ fragment.text
  | .orphanInput fragment => "input fragment " ++ fragment.text ++ " has no parent"
  | .notJoin node => "plan node " ++ node.text ++ " is not a join"
  | .partitionVanished partition table =>
    "partition " ++ partition.text ++ " of " ++ table ++ " vanished"
  | .defaultPartitionScanned table => "default partition of " ++ table ++ " cannot be scanned"
  | .unknownReplicaHost host table =>
    "host index " ++ toString host ++ " of table " ++ table ++ " has no entry"
  | .unknownRangeHost host => "unknown scan range host " ++ toString host
  | .notPartitionColumn column table => "'" ++ column ++ "' is not a partition column of " ++ table
  | .clusteringCount table clustering columns =>
    "table " ++ table ++ " declares " ++ toString clustering ++ " clustering columns but has " ++
      toString columns ++ " columns"
  | .unpartitionableColumn table column type =>
    "failed to load table " ++ table ++ ": partition column '" ++ column ++ "' has type " ++
      type.name ++ " which is not supported as a partition key"
  | .unknownFileHost file host => "file " ++ file ++ " names unknown host " ++ toString host
  | .databaseNotFound database => "Database " ++ database ++ " not found"
  | .tableNotFound database table => "Table " ++ database ++ "." ++ table ++ " not found"
  | .tableNotInDatabase table database => "Table " ++ table ++ " not found in database " ++ database
  | .partitionNotFound partition table =>
    "partition " ++ partition.text ++ " not found in table " ++ table
  | .databaseExists database => "Database " ++ database ++ " already exists"
  | .tableExists table database => "Table " ++ table ++ " already exists in database " ++ database
  | .partitionExists partition table =>
    "partition " ++ partition.text ++ " already exists in table " ++ table
  | .partitionIdUsed partition table highest =>
    "partition id " ++ partition.text ++ " was already used in table " ++ table ++
      " (highest id " ++ toString highest ++ ")"
  | .databaseNotEmpty database => "Database " ++ database ++ " is not empty"
  | .invalidKey text type =>
    "invalid partition key value '" ++ text ++ "' for type " ++ type.name
  | .unfitKey key column type =>
    "partition key " ++ key ++ " does not fit column '" ++ column ++ "' of type " ++ type.name
  | .defaultPartitionAdded table =>
    "the default partition of " ++ table ++ " is set through add_default_partition"
  | .keyCount partition keys table clustering =>
    "partition " ++ partition.text ++ " has " ++ toString keys ++ " key values, table " ++ table ++
      " has " ++ toString clustering ++ " clustering columns"
  | .unqualifiedTable name => "table name '" ++ name ++ "' is not db.table"
  | .unknownDetail text => "unknown explain level '" ++ text ++ "'"
  | .keyType type => "partition key of type " ++ type.name
  | .tableOperation operation table => operation ++ " on file-system table " ++ table
  | .sinkFormat format => "table sink format " ++ format.name
  | .unreadableSpec => "plan spec"
  | .unreadableConfig => "unreadable configuration"
  | .invalidRangeLength text cause =>
    "invalid max_scan_range_length '" ++ text ++ "': " ++ cause.message
  | .emptyNullKey => "null_partition_key_value cannot be empty"
  | .noCores => "num_cores cannot be 0"

def message (e : Error) : String := e.kind.label ++ ": " ++ e.detail

end Error

end QueryPlanning
