import QueryPlanning.Plan.Session

/-!
# Explaining plans

The text of some plans: for each its fragments, and for each fragment its sink and the tree of its
nodes, with more or less detail. It is put together from lines, which a margin of blanks and bars
joins into trees.
-/

namespace QueryPlanning

/-- Lines one below the other, each with an end of line. -/
def renderLines (lines : List String) : String := String.join (lines.map (· ++ "\n"))

namespace Session

/-! ## Sinks -/

/-- The lines for a kind of sink. -/
def sinkLines (s : Session) (level : Detail) (fragment : FragmentId) :
    SinkKind → Except Error (List String)
  | .planRoot => return ["  PLAN-ROOT SINK"]
  | .stream exchange partitioning => do
    return ["  DATASTREAM SINK [FRAGMENT=F" ++ (← s.node exchange).fragment.text ++ ", EXCHANGE=" ++
      exchange.text ++ ", " ++ partitioning.text ++ "]"]
  | .joinBuild table keys => do
    if !level.atLeast .standard then return ["  JOIN BUILD"]
    let f ← s.fragment fragment
    return ["  JOIN BUILD",
      "  |  join-table-id=" ++ table.text ++ " plan-id=" ++ f.plan.text ++ " cohort-id=" ++
        f.cohort.text,
      "  |  build expressions: " ++ Expr.sqlList keys]
  | .table sink =>
    let keys :=
      if sink.keys.isEmpty then "" else ", PARTITION-KEYS=(" ++ Expr.sqlList sink.keys ++ ")"
    let line :=
      "  WRITE TO FS [" ++ sink.table ++ ", OVERWRITE=" ++ toString sink.overwrite ++ keys ++ "]"
    return line :: if level.atLeast .extended then ["  |  format=" ++ sink.format.name] else []

/-- The lines for a sink, with its memory once that is estimated. -/
def explainSink (s : Session) (level : Detail) (sink : Sink) : Except Error (List String) := do
  let lines ← s.sinkLines level sink.fragment sink.kind
  let memory :=
    if level.atLeast .extended && 0 ≤ sink.memory then
      ["  |  mem-estimate=" ++ Size.textOfInt sink.memory]
    else []
  return lines ++ memory ++ ["  |"]

/-! ## Nodes -/

/-- A number of rows, or that there is none. -/
def rowsText (rows : Int) : String :=
  if rows = -1 then "unavailable" else toString rows

/-- What stands behind the name of a node. -/
def header (s : Session) (n : Node) : Except Error String := do
  match n.kind with
  | .scan scan => return " [" ++ scan.table.fullName ++ "]"
  | .join join => return " [" ++ join.type.name ++ ", " ++ join.distribution.name ++ "]"
  | .exchange input =>
    match (← s.fragment input).sink with
    | some { kind := .stream _ partitioning, .. } => return " [" ++ partitioning.text ++ "]"
    | _ => return ""
  | _ => return ""

/-- Expressions under a label, if there are any. -/
def labelled (label : String) (es : List Expr) : List String :=
  if es.isEmpty then [] else [label ++ ": " ++ Expr.sqlList es]

def scanDetails (level : Detail) (scan : Scan) : List String :=
  let predicates :=
    if scan.predicates.isEmpty then []
    else ["partition predicates: " ++ ", ".intercalate (scan.predicates.map (·.sql))]
  let partitions :=
    "partitions=" ++ toString scan.partitions.length ++ "/" ++
      toString scan.table.partitions.length ++ " files=" ++ toString scan.stats.files ++ " size=" ++
      Size.textOfInt scan.stats.bytes
  let missing :=
    if scan.stats.missing = 0 then []
    else ["partitions missing stats: " ++ toString scan.stats.missing]
  let extended :=
    ["table stats: " ++ rowsText scan.stats.rows ++ " rows total"] ++ missing ++
      ["scan ranges=" ++ toString scan.ranges.length ++ " mem-estimate=" ++
        Size.textOfInt scan.memory]
  predicates ++ [partitions] ++ if level.atLeast .extended then extended else []

/-- Expressions with their directions. -/
def orderText : List Expr → List Bool → List String
  | [], _ => []
  | e :: es, [] => (e.sql ++ " ASC") :: orderText es []
  | e :: es, asc :: ascs => (e.sql ++ if asc then " ASC" else " DESC") :: orderText es ascs

/-- The details of a kind of node. -/
def kindDetails (level : Detail) : NodeKind → List String
  | .scan scan => scanDetails level scan
  | .join join =>
    labelled "hash predicates" join.equalities ++ labelled "other join predicates" join.others
  | .aggregation a => labelled "output" a.aggregates ++ labelled "group by" a.grouping
  | .sort keys => ["order by: " ++ ", ".intercalate (orderText keys.exprs keys.ascending)]
  | .unnest collection => ["collection: " ++ collection.sql]
  | _ => []

/-- The details of a node. -/
def details (level : Detail) (n : Node) : List String :=
  if !level.atLeast .standard then []
  else
    kindDetails level n.kind ++ labelled "predicates" n.conjuncts ++
      (if n.hasLimit then ["limit: " ++ toString n.limit] else []) ++
      if level.atLeast .extended then
        ["cardinality=" ++ rowsText n.rows ++ " hosts=" ++ toString n.hosts]
      else []

/-- The children that the fragment of a node executes along with it. -/
def shownChildren (s : Session) (n : Node) : Except Error (List NodeId) :=
  if n.isExchange then .ok []
  else n.children.filterM fun c ↦ return (← s.node c).fragment = n.fragment

/-- The lines for the nodes at and below a node. The first child goes straight down and comes last;
the others branch off. -/
def explainNodes (s : Session) (level : Detail) : Nat → NodeId → String → String →
    Except Error (List String)
  | 0, _, _, _ => .error .brokenLink
  | depth + 1, i, first, others => do
    let n ← s.node i
    let children ← s.shownChildren n
    let head := first ++ i.text ++ ":" ++ n.name ++ (← s.header n)
    let margin := others ++ if children.isEmpty then "   " else "|  "
    let own := head :: (details level n).map (margin ++ ·)
    let bar := others ++ "|"
    match children with
    | [] => return own
    | child :: branches =>
      let branch (c : NodeId) : Except Error (List String) := do
        return (← s.explainNodes level depth c (others ++ "|--") (others ++ "|  ")) ++ [bar]
      return own ++ bar :: (← branches.mapM branch).flatten ++
        (← s.explainNodes level depth child others others)

/-! ## Fragments and plans -/

def explainFragment (s : Session) (level : Detail) (i : FragmentId) :
    Except Error (List String) := do
  let f ← s.fragment i
  let hosts ← if level.atLeast .extended then
      pure (" hosts=" ++ toString (← s.hostsOf i))
    else pure ""
  let head := "F" ++ i.text ++ ":PLAN FRAGMENT [" ++ f.partitioning.text ++ "]" ++ hosts
  let sink ← match f.sink with
    | some sink => s.explainSink level sink
    | none => pure []
  return head :: sink ++ (← s.explainNodes level s.nodes.length f.root "  " "  ")

def explainPlan (s : Session) (level : Detail) (root : FragmentId) :
    Except Error (List String) := do
  let f ← s.fragment root
  let head := "PLAN " ++ f.plan.text ++ " [cohort-id=" ++ f.cohort.text ++ "]"
  return head :: (← (← s.fragmentTree root).mapM (s.explainFragment level)).flatten

/-- The parts of the text of some plans, with a gap between any two plans. -/
def explainParts (s : Session) (level : Detail) (roots : List FragmentId) :
    List (Except Error (List String)) :=
  (roots.map (s.explainPlan level)).intersperse (.ok [""])

def explainLines (s : Session) (level : Detail) (roots : List FragmentId) :
    Except Error (List String) := do
  return (← (s.explainParts level roots).mapM id).flatten

/-- The text of some plans. -/
def explain (s : Session) (level : Detail) (roots : List FragmentId) : Except Error String := do
  return renderLines (← s.explainLines level roots)

/-- Whether the text of some parts has at most the given number of bytes. Parts behind the one that
exceeds it do not matter. -/
def partsFit (capacity : Nat) : List (Except Error (List String)) → Except Error Bool
  | [] => .ok true
  | part :: rest => do
    let size := (renderLines (← part)).utf8ByteSize
    if size ≤ capacity then partsFit (capacity - size) rest else return false

/-- Whether the text of some plans fits into a number of bytes. -/
def explainFits (s : Session) (level : Detail) (roots : List FragmentId) (capacity : Nat) :
    Except Error Bool :=
  partsFit capacity (s.explainParts level roots)

end Session

end QueryPlanning
