import QueryPlanning.Json.Parser
import QueryPlanning.Scan.PredicateJson
import QueryPlanning.Spec.Basic

/-!
# Reading plan specifications

Specifications are written in JSON. Operators are tagged objects, so everything in the tree of
operators is read from held content and no literal there is a decimal, while the key values of
partitions can be decimals.
-/

namespace QueryPlanning

open Json

/-! ## Tables -/

def ReplicaSpec.read (j : Json) : Read ReplicaSpec := do
  let members ← readMembers j
  return {
    host := ← members.required "host" readNat
    cached := ← members.withDefault "cached" false readBool }

def FileSpec.read (j : Json) : Read FileSpec := do
  let members ← readMembers j
  return {
    name := ← members.required "name" readText
    length := ← members.required "length" readInt64
    modified := ← members.withDefault "modification_time" 0 readInt64
    blockSize := ← members.optional "block_size" readInt64
    replicas := ← members.withDefault "replicas" [] (readList ReplicaSpec.read) }

def PartitionSpec.read (j : Json) : Read PartitionSpec := do
  let members ← readMembers j
  return {
    values := ← members.required "values" (readList Literal.read)
    location := ← members.required "location" readText
    format := ← members.required "format" FileFormat.read
    rows := ← members.optional "num_rows" readInt64
    files := ← members.withDefault "files" [] (readList FileSpec.read) }

def ColumnSpec.read (j : Json) : Read ColumnSpec := do
  let members ← readMembers j
  return {
    name := ← members.required "name" readText
    type := ← members.required "data_type" ColumnType.read }

def TableSpec.read (j : Json) : Read TableSpec := do
  let members ← readMembers j
  return {
    database := ← members.required "db" readText
    name := ← members.required "name" readText
    columns := ← members.required "columns" (readList ColumnSpec.read)
    clustering := ← members.withDefault "num_clustering_cols" 0 readNat
    baseDirectory := ← members.required "base_dir" readText
    rows := ← members.optional "num_rows" readInt64
    hosts := ← members.withDefault "hosts" [] (readList Address.read)
    partitions := ← members.withDefault "partitions" [] (readList PartitionSpec.read) }

/-! ## Joins -/

def JoinType.ofJsonName? : String → Option JoinType
  | "inner" => some .inner
  | "left_outer" => some .leftOuter
  | "right_outer" => some .rightOuter
  | "full_outer" => some .fullOuter
  | "left_semi" => some .leftSemi
  | "right_semi" => some .rightSemi
  | "left_anti" => some .leftAnti
  | "right_anti" => some .rightAnti
  | "cross" => some .cross
  | _ => none

def JoinAlgorithm.ofJsonName? : String → Option JoinAlgorithm
  | "hash" => some .hash
  | "nested_loop" => some .nestedLoop
  | _ => none

def Distribution.ofJsonName? : String → Option Distribution
  | "none" => some .none
  | "broadcast" => some .broadcast
  | "partitioned" => some .partitioned
  | _ => Option.none

/-- Reads what a join says about itself. -/
def Join.readTagged (members : Members) : Read Join := do
  let d : Join := {}
  let exprs := readList (Expr.readFrom .held)
  return {
    type := ← members.withDefault "op" d.type (readNameFrom .held JoinType.ofJsonName?)
    algorithm :=
      ← members.withDefault "algorithm" d.algorithm (readNameFrom .held JoinAlgorithm.ofJsonName?)
    distribution :=
      ← members.withDefault "distribution" d.distribution
        (readNameFrom .held Distribution.ofJsonName?)
    equalities := ← members.withDefault "eq_conjuncts" d.equalities exprs
    others := ← members.withDefault "other_conjuncts" d.others exprs }

/-! ## Operators -/

/-- The tags of operators in their order. -/
def NodeSpec.tags : List String :=
  ["scan", "join", "exchange", "subplan", "aggregation", "select", "sort", "union", "unnest",
    "singular_row_src", "empty_set"]

/-- Reads an operator whose JSON has at most `fuel` levels. -/
def NodeSpec.readWithin : Nat → Source → Json → Read NodeSpec
  | 0, _, _ => refuse
  | fuel + 1, source, j => do
    let (tag, members) ← readTagged source tags j
    let readInput := readWithin fuel .held
    let operator (name : String) : Read NodeSpec := members.required name readInput
    let exprs := readList (Expr.readFrom .held)
    let partitioning (name : String) : Read Partitioning :=
      members.withDefault name .unpartitioned (Partitioning.readFrom .held)
    match tag with
    | "scan" =>
      return .scan (← members.required "table" readText)
        (← members.withDefault "predicates" [] (readList (KeyPredicate.readFrom .held)))
        (← members.withDefault "num_scanned_columns" 1 readNat)
        (← members.withDefault "limit" (-1) readInt64)
    | "join" =>
      return .join (← Join.readTagged members) (← operator "probe") (← operator "build")
    | "exchange" =>
      return .exchange (← partitioning "partition") (← partitioning "input_partition")
        (← operator "input")
    | "subplan" => return .subplan (← operator "input") (← operator "subplan")
    | "aggregation" =>
      let grouping ← members.withDefault "grouping" [] exprs
      let aggregates ← members.withDefault "aggregates" [] exprs
      return .aggregation { grouping, aggregates } (← operator "input")
    | "select" => return .select (← members.required "conjuncts" exprs) (← operator "input")
    | "sort" =>
      let keys ← members.required "ordering" exprs
      let ascending ← members.withDefault "asc" [] (readList readBool)
      return .sort { exprs := keys, ascending } (← members.withDefault "limit" (-1) readInt64)
        (← operator "input")
    | "union" => return .union (← members.required "inputs" (readList readInput))
    | "unnest" => return .unnest (← members.required "collection" (Expr.readFrom .held))
    | "singular_row_src" => return .singularRow
    | "empty_set" => return .emptySet
    | _ => refuse

def NodeSpec.read (j : Json) : Read NodeSpec := readWithin (j.depth + 1) .text j

/-! ## Plans -/

def SinkSpec.read (j : Json) : Read SinkSpec := do
  let members ← readMembers j
  return {
    table := ← members.required "table" readText
    keys := ← members.withDefault "partition_keys" [] (readList Expr.read)
    overwrite := ← members.withDefault "overwrite" false readBool
    clustered := ← members.withDefault "clustered" false readBool
    partitions := ← members.optional "num_partitions" readInt64 }

namespace PlanSpec

def read (j : Json) : Read PlanSpec := do
  let members ← readMembers j
  return {
    membership := ← members.optional "membership" Cluster.Update.read
    tables := ← members.withDefault "tables" [] (readList TableSpec.read)
    partitioning := ← members.withDefault "root_partition" .unpartitioned Partitioning.read
    root := ← members.required "root" NodeSpec.read
    sink := ← members.optional "table_sink" SinkSpec.read }

/-- Reads a specification from its JSON. -/
def ofJson (j : Json) : Except Error PlanSpec :=
  match readWhole read j with
  | .ok spec => .ok spec
  | .error _ => .error .unreadableSpec

/-- Reads a specification from text. -/
def parse (text : String) : Except Error PlanSpec :=
  match Json.parse? text with
  | some j => ofJson j
  | none => .error .unreadableSpec

end PlanSpec

end QueryPlanning
