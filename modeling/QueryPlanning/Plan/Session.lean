import QueryPlanning.Numbered
import QueryPlanning.Plan.Fragment

/-!
# Planning sessions

A session holds the nodes and fragments of one query, numbered from 0 in the order in which they
were added, and the numbering of the hosts that its scans read from. Nodes and fragments refer to
each other by number, so a fragment moves to another parent by changes to three fragments.

Nodes are added children first and fragments are cut from below, at the exchanges. A node, a
fragment or the end of a path that is not there is `Error.brokenLink`.
-/

namespace QueryPlanning

-- The powers and sums of the core library, whatever else is imported.
attribute [local instance (high)] instPowNat Zero.ofOfNat0

structure Session where
  options : Options := {}
  cluster : Cluster := {}
  nodes : List Node := []
  fragments : List Fragment := []
  hosts : Hosts := {}
  deriving Inhabited

namespace Session

/-! ## Nodes and fragments by number -/

def node? (s : Session) (i : NodeId) : Option Node := Numbered.get? Node.id s.nodes i

def fragment? (s : Session) (i : FragmentId) : Option Fragment :=
  Numbered.get? Fragment.id s.fragments i

def node (s : Session) (i : NodeId) : Except Error Node :=
  match s.node? i with
  | some n => .ok n
  | none => .error .brokenLink

def fragment (s : Session) (i : FragmentId) : Except Error Fragment :=
  match s.fragment? i with
  | some f => .ok f
  | none => .error .brokenLink

def modifyNode (i : NodeId) (f : Node → Node) (s : Session) : Session :=
  { s with nodes := Numbered.modify Node.id i f s.nodes }

def modifyFragment (i : FragmentId) (f : Fragment → Fragment) (s : Session) : Session :=
  { s with fragments := Numbered.modify Fragment.id i f s.fragments }

/-- The number of the next node. -/
def nextNode (s : Session) : NodeId := .ofNat s.nodes.length

/-- The number of the next fragment. -/
def nextFragment (s : Session) : FragmentId := .ofNat s.fragments.length

/-- Adds a node as it comes out of the number that it gets. -/
def add (node : NodeId → Node) (s : Session) : NodeId × Session :=
  (s.nextNode, { s with nodes := s.nodes ++ [node s.nextNode] })

/-! ## Fragments -/

/-- The node and all nodes below it down to the exchanges, each before its children, on paths of at
most the given number of nodes. -/
def segmentWithin (s : Session) : Nat → NodeId → Except Error (List Node)
  | 0, _ => .error .brokenLink
  | depth + 1, i => do
    let n ← s.node i
    if n.isExchange then return [n]
    return n :: (← n.children.mapM (s.segmentWithin depth)).flatten

/-- The nodes of the fragment that begins at a node. -/
def segment (s : Session) (root : NodeId) : Except Error (List Node) :=
  s.segmentWithin s.nodes.length root

/-- Makes a fragment a child of another one, unless it has a parent. -/
def adopt (parent : FragmentId) (s : Session) (child : FragmentId) : Except Error Session := do
  if (← s.fragment child).parent.isSome then return s
  return (s.modifyFragment child ({ · with parent := some parent })).modifyFragment parent
    (·.addChild child)

/-- Assigns nodes to a fragment. -/
def assign (members : List NodeId) (fragment : FragmentId) (s : Session) : Session :=
  { s with nodes := s.nodes.map fun n ↦ if members.contains n.id then { n with fragment } else n }

/-- Cuts a new fragment at a node. The fragments that feed its exchanges become its children. -/
def createFragment (root : NodeId) (partitioning : Partitioning) (s : Session) :
    Except Error (FragmentId × Session) := do
  let members ← s.segment root
  let id := s.nextFragment
  let cut := { s.assign (members.map (·.id)) id with
    fragments := s.fragments ++ [{ id, root, partitioning }] }
  return (id, ← (members.filterMap (·.input?)).foldlM (adopt id) cut)

/-- Adds an exchange that receives the rows of a fragment, which sends them there. -/
def addExchange (input : FragmentId) (partitioning : Partitioning) (s : Session) :
    Except Error (NodeId × Session) := do
  let f ← s.fragment input
  if f.destination.isSome then throw (.exchangeFed input)
  let root ← s.node f.root
  let (id, s) := s.add fun id ↦
    { id, kind := .exchange input, children := [f.root], rows := root.rows, inputRows := root.rows,
      rowSize := root.rowSize }
  let kind := .stream id partitioning
  return (id, s.modifyFragment input fun f ↦
    { f with destination := some id, sink := some { fragment := input, kind } })

def setSink (fragment : FragmentId) (kind : SinkKind) (s : Session) : Session :=
  s.modifyFragment fragment ({ · with sink := some { fragment, kind } })

/-- Moves a fragment from the children of one to the children of another. -/
def moveChild (child source target : FragmentId) (s : Session) : Except Error Session := do
  if !(← s.fragment source).children.contains child then throw (.notChild child source)
  let _ ← s.fragment target
  let _ ← s.fragment child
  return ((s.modifyFragment source (·.removeChild child)).modifyFragment target
    (·.addChild child)).modifyFragment child ({ · with parent := some target })

/-! ## Trees of fragments -/

/-- Takes fragments off the front of a list and puts their children in their place. -/
def splice (s : Session) : Nat → List FragmentId → Except Error (List FragmentId)
  | _, [] => .ok []
  | 0, _ :: _ => .error .brokenLink
  | steps + 1, i :: rest => do
    let f ← s.fragment i
    return i :: (← s.splice steps (f.children ++ rest))

/-- The number of entries in all lists of children. -/
def linkCount (s : Session) : Nat := (s.fragments.map (·.children.length)).sum

/-- The fragments of the tree below a fragment, each before its children. Every entry is reached on
a path of its own, and without circles a path is a set of links; so there are at most as many
entries as there are sets of links. -/
def fragmentTree (s : Session) (root : FragmentId) : Except Error (List FragmentId) :=
  s.splice (2 ^ s.linkCount) [root]

/-- The same list by recursion on the tree, on paths of at most the given number of fragments. -/
def preorderWithin (s : Session) : Nat → FragmentId → Except Error (List FragmentId)
  | 0, _ => .error .brokenLink
  | depth + 1, i => do
    let f ← s.fragment i
    return i :: (← f.children.mapM (s.preorderWithin depth)).flatten

def collectWithin (s : Session) (p : Fragment → Bool) : Nat → FragmentId →
    Except Error (List FragmentId)
  | 0, _ => .error .brokenLink
  | depth + 1, i => do
    let f ← s.fragment i
    if p f then return [i]
    return (← f.children.mapM (s.collectWithin p depth)).flatten

/-- The topmost fragments of a tree that have a property, each once. -/
def collect (s : Session) (root : FragmentId) (p : Fragment → Bool) :
    Except Error (List FragmentId) := do
  return (← s.collectWithin p s.fragments.length root).eraseDups

/-! ## Estimates -/

/-- The nodes of the cluster that execute a fragment, as estimated for its root. -/
def hostsOf (s : Session) (fragment : FragmentId) : Except Error Int := do
  return (← s.node (← s.fragment fragment).root).hosts

/-- Estimates the memory of a fragment's sink. -/
def estimateSink (s : Session) (fragment : FragmentId) : Except Error Session := do
  let f ← s.fragment fragment
  let root ← s.node f.root
  match f.sink with
  | none => return s
  | some sink =>
    let sink ← sink.estimate ⟨root.rows, root.rowSize, root.hosts⟩
    return s.modifyFragment fragment ({ · with sink := some sink })

/-- Numbers hosts in the numbering of the session. -/
def numbering {α : Type} (x : Numbering α) (s : Session) : Except Error α × Session :=
  let (a, hosts) := x.run.run s.hosts
  (a, { s with hosts })

/-- Plans a scan of a table and adds its node. -/
def addScan (t : Table) (predicates : List KeyPredicate) (columns : Nat) (limit : Int)
    (s : Session) : Except Error NodeId × Session :=
  match s.numbering (Scan.plan s.options s.cluster t predicates columns limit) with
  | (.error e, s) => (.error e, s)
  | (.ok planned, s) =>
    let (id, s) := s.add fun id ↦
      { id, kind := .scan planned.scan, children := [], rows := planned.rows,
        inputRows := planned.scan.stats.rows, limit, hosts := planned.nodes }
    (.ok id, s)

end Session

end QueryPlanning
