import QueryPlanning.Json.Printer
import QueryPlanning.Plan.Walk

/-!
# Summaries

A plan in a few numbers: its fragments, where its rows go, and its row bound.
-/

namespace QueryPlanning

structure Summary where
  plan : PlanId
  cohort : CohortId
  root : FragmentId
  fragments : List FragmentId
  sink : String
  /-- The rows that the busiest node processes, or -1. -/
  rowBound : Int
  deriving DecidableEq, Repr, Inhabited

namespace Summary

def sinkText : Option SinkKind → String
  | some .planRoot => "plan_root"
  | some (.stream _ _) => "data_stream"
  | some (.joinBuild table _) => "join_build(" ++ table.text ++ ")"
  | some (.table sink) => "table(" ++ sink.table ++ ")"
  | none => "none"

def toJson (s : Summary) : Json :=
  .object [("plan_id", .int s.plan.val), ("cohort_id", .int s.cohort.val),
    ("root_fragment", .int s.root.val),
    ("fragments", .array (s.fragments.map fun f ↦ .int f.val)), ("sink", .text s.sink),
    ("max_rows_processed", .int s.rowBound)]

end Summary

namespace Session

def summary (s : Session) (root : FragmentId) : Except Error Summary := do
  let f ← s.fragment root
  return {
    plan := f.plan, cohort := f.cohort, root
    fragments := ← s.fragmentTree root
    sink := Summary.sinkText (f.sink.map (·.kind))
    rowBound := ← s.rowBound root }

/-- The summaries of some plans. -/
def summaries (s : Session) (roots : List FragmentId) : Except Error (List Summary) :=
  roots.mapM s.summary

end Session

end QueryPlanning
