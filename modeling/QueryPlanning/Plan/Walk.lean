import QueryPlanning.Plan.Session

/-!
# Walking over a plan

A visitor is shown the nodes of a plan one after the other, fragment by fragment, and can end the
walk. The row bound of a plan is found in this way: the number of rows that its busiest node
processes, unless some node has a number that cannot be bounded.
-/

namespace QueryPlanning

/-- Takes a node into account and says whether to go on. -/
abbrev Visitor (σ : Type) := Node → σ → σ × Bool

namespace Session

/-- Walks along a list, one item after the other, until the walk over an item is ended. -/
def walkAlong {α σ : Type} (step : α → σ → Except Error (σ × Bool)) :
    List α → σ → Except Error (σ × Bool)
  | [], st => .ok (st, true)
  | a :: rest, st => do
    let (st, goOn) ← step a st
    if goOn then walkAlong step rest st else return (st, false)

/-- Shows a visitor the nodes at and below a node that a fragment executes, each before its
children, and says whether to go on. -/
def visitWithin {σ : Type} (s : Session) (visit : Visitor σ) (fragment : FragmentId) :
    Nat → NodeId → σ → Except Error (σ × Bool)
  | 0, _, _ => .error .brokenLink
  | depth + 1, i, st => do
    let n ← s.node i
    if n.fragment ≠ fragment then return (st, true)
    let (st, goOn) := visit n st
    if !goOn then return (st, false)
    if n.isExchange then return (st, true)
    walkAlong (s.visitWithin visit fragment depth) n.children st

/-- Shows a visitor the nodes that a fragment executes. -/
def visitFragment {σ : Type} (s : Session) (visit : Visitor σ) (fragment : FragmentId) (st : σ) :
    Except Error (σ × Bool) := do
  s.visitWithin visit fragment s.nodes.length (← s.fragment fragment).root st

/-- Walks over the fragments of a tree and over the nodes of each, until the visitor ends it. -/
def walk {σ : Type} (s : Session) (root : FragmentId) (visit : Visitor σ) (st : σ) :
    Except Error σ := do
  return (← walkAlong (s.visitFragment visit) (← s.fragmentTree root) st).1

end Session

/-! ## The row bound -/

namespace Node

/-- The rows that a node processes, if they are bounded. Joins can produce any number of rows, and
so can a scan of a collection. A scan whose table has no usable statistics is bounded only by a
limit. -/
def rowBound? (n : Node) : Option Int :=
  match n.kind with
  | .scan scan =>
    let unknown := scan.lacksRowCount || scan.stats.corrupt
    if scan.readsCollection || (unknown && !n.hasLimit) then none else some n.inputRows
  | .join _ => none
  | _ => if n.inputRows = -1 ∨ n.rows = -1 then none else some (max n.inputRows n.rows)

end Node

/-- Keeps the largest bound, and ends the walk at a node without one. -/
def rowBoundVisitor : Visitor (Option Int) := fun n bound ↦
  match n.rowBound? with
  | some rows => (bound.map (max · rows), true)
  | none => (none, false)

/-- The rows that the busiest node of a plan processes, or -1. -/
def Session.rowBound (s : Session) (root : FragmentId) : Except Error Int := do
  return (← s.walk root rowBoundVisitor (some (-1))).getD (-1)

end QueryPlanning
