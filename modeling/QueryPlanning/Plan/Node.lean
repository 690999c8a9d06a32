import QueryPlanning.Expr
import QueryPlanning.Scan.Basic

/-!
# Plan nodes

The operators of a plan. Nodes name their children, and an exchange the fragment that it receives
rows from, by identifier. Numbers of rows and limits are -1 where nothing is known or set.
-/

namespace QueryPlanning

/-! ## Joins -/

inductive JoinType
  | inner
  | leftOuter
  | rightOuter
  | fullOuter
  | leftSemi
  | rightSemi
  | leftAnti
  | rightAnti
  | cross
  deriving DecidableEq, Repr, Inhabited

def JoinType.name : JoinType → String
  | .inner => "INNER JOIN"
  | .leftOuter => "LEFT OUTER JOIN"
  | .rightOuter => "RIGHT OUTER JOIN"
  | .fullOuter => "FULL OUTER JOIN"
  | .leftSemi => "LEFT SEMI JOIN"
  | .rightSemi => "RIGHT SEMI JOIN"
  | .leftAnti => "LEFT ANTI JOIN"
  | .rightAnti => "RIGHT ANTI JOIN"
  | .cross => "CROSS JOIN"

/-- How the rows of the two inputs of a join come together. -/
inductive Distribution
  | none
  | broadcast
  | partitioned
  deriving DecidableEq, Repr, Inhabited

def Distribution.name : Distribution → String
  | .none => "NONE"
  | .broadcast => "BROADCAST"
  | .partitioned => "PARTITIONED"

inductive JoinAlgorithm
  | hash
  | nestedLoop
  deriving DecidableEq, Repr, Inhabited

/-- A join of child 0, the probe side, with child 1, the build side. -/
structure Join where
  type : JoinType := .inner
  algorithm : JoinAlgorithm := .hash
  distribution : Distribution := .broadcast
  /-- Comparisons of a probe expression with a build expression. -/
  equalities : List Expr := []
  others : List Expr := []
  /-- The slot for the rows of the build side, once it is a plan of its own. -/
  table : JoinTableId := .invalid
  deriving Inhabited

namespace Join

/-- Gives the join its slot, once. -/
def assign (join : Join) (table : JoinTableId) : Except Error Join := do
  if !table.isValid then throw (.invalidJoinTable table)
  if join.table.isValid then throw (.joinTableAssigned join.table)
  return { join with table }

/-- The right operands of the equalities, by which a hash table is built. A nested loop has no hash
table. -/
def buildKeys (join : Join) : Except Error (List Expr) :=
  match join.algorithm with
  | .nestedLoop => .ok []
  | .hash =>
    join.equalities.mapM fun e ↦
      match e.operand? 1 with
      | some key => .ok key
      | none => .error (.conjunctWithoutOperand e.sql)

end Join

/-! ## Nodes -/

structure Aggregation where
  grouping : List Expr := []
  aggregates : List Expr := []
  deriving Inhabited

structure SortKeys where
  exprs : List Expr := []
  /-- The direction of each expression; those without one are ascending. -/
  ascending : List Bool := []
  deriving Inhabited

inductive NodeKind
  | scan (scan : Scan)
  | join (join : Join)
  /-- Receives the rows of another fragment. -/
  | exchange (input : FragmentId)
  /-- Evaluates child 1 once for each row of child 0. -/
  | subplan
  | aggregation (aggregation : Aggregation)
  | select
  | sort (keys : SortKeys)
  | union
  | unnest (collection : Expr)
  | singularRow
  | emptySet
  deriving Inhabited

structure Node where
  id : NodeId
  kind : NodeKind
  children : List NodeId
  /-- The fragment that executes the node. -/
  fragment : FragmentId := .invalid
  /-- Rows that come out. -/
  rows : Int := -1
  /-- Rows that go in. -/
  inputRows : Int := -1
  /-- Average size of a row that comes out, in bytes, or below zero. -/
  rowSize : Double := .ofInt (-1)
  limit : Int := -1
  /-- Nodes of the cluster that execute it, as estimated. -/
  hosts : Int := 1
  conjuncts : List Expr := []
  deriving Inhabited

namespace Node

def hasLimit (n : Node) : Bool := -1 < n.limit

/-- The fragment whose rows an exchange receives. -/
def input? (n : Node) : Option FragmentId :=
  match n.kind with
  | .exchange input => some input
  | _ => none

def isExchange (n : Node) : Bool := n.input?.isSome

def join? (n : Node) : Option Join :=
  match n.kind with
  | .join join => some join
  | _ => none

def scan? (n : Node) : Option Scan :=
  match n.kind with
  | .scan scan => some scan
  | _ => none

def name (n : Node) : String :=
  match n.kind with
  | .scan _ => "SCAN HDFS"
  | .join join =>
    match join.algorithm with
    | .hash => "HASH JOIN"
    | .nestedLoop => "NESTED LOOP JOIN"
  | .exchange _ => "EXCHANGE"
  | .subplan => "SUBPLAN"
  | .aggregation _ => "AGGREGATE"
  | .select => "SELECT"
  | .sort _ => if n.hasLimit then "TOP-N" else "SORT"
  | .union => "UNION"
  | .unnest _ => "UNNEST"
  | .singularRow => "SINGULAR ROW SRC"
  | .emptySet => "EMPTYSET"

end Node

end QueryPlanning
