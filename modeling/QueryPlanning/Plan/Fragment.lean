import QueryPlanning.Plan.Sink

/-!
# Fragments

A fragment is the part of a plan that a node of the cluster executes as a whole: the nodes from its
root down to the exchanges. The fragments that feed these exchanges are its children.
-/

namespace QueryPlanning

structure Fragment where
  id : FragmentId
  /-- The node at the top. -/
  root : NodeId
  /-- How the rows are spread over the nodes that execute the fragment. -/
  partitioning : Partitioning
  /-- The exchange that receives the rows. -/
  destination : Option NodeId := none
  parent : Option FragmentId := none
  children : List FragmentId := []
  sink : Option Sink := none
  /-- The plan that the fragment belongs to, once plans are split. -/
  plan : PlanId := .invalid
  cohort : CohortId := .invalid
  deriving Inhabited

namespace Fragment

def isPartitioned (f : Fragment) : Bool := f.partitioning.isPartitioned

/-- Takes all occurrences of a fragment out of the children. -/
def removeChild (child : FragmentId) (f : Fragment) : Fragment :=
  { f with children := f.children.filter (· ≠ child) }

def addChild (child : FragmentId) (f : Fragment) : Fragment :=
  { f with children := f.children ++ [child] }

end Fragment

end QueryPlanning
