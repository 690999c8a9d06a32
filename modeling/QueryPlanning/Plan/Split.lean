import QueryPlanning.Plan.Session

/-!
# Splitting a plan

The build side of a join can run before the join does, as a plan of its own that ends in a sink for
the join's table. Splitting cuts a fragment at the build side of every join and moves the fragments
that feed it along, so that every plan is a tree of fragments. The plans that feed the joins of a
fragment and of the fragments below it share a cohort: they can run at the same time.

The plan that came in is the first of the plans that come out. Changes made before an error stay.
-/

namespace QueryPlanning

structure Splitting where
  session : Session
  /-- The roots of the plans so far. -/
  roots : List FragmentId := []
  tables : IdSource .joinTable := {}
  plans : IdSource .plan := {}
  cohorts : IdSource .cohort := {}

abbrev Split := ExceptT Error (StateM Splitting)

namespace Split

/-- Asks the session. -/
def ask {α : Type} (f : Session → Except Error α) : Split α := do
  f (← get).session

/-- Changes the session, unless the change fails. -/
def change {α : Type} (f : Session → Except Error (α × Session)) : Split α := do
  let (a, session) ← f (← get).session
  modify ({ · with session })
  return a

def update (f : Session → Session) : Split Unit :=
  modify fun st ↦ { st with session := f st.session }

def takeTable : Split JoinTableId :=
  modifyGet fun st ↦ (st.tables.peek, { st with tables := st.tables.take.2 })

def takePlan : Split PlanId :=
  modifyGet fun st ↦ (st.plans.peek, { st with plans := st.plans.take.2 })

def takeCohort : Split CohortId :=
  modifyGet fun st ↦ (st.cohorts.peek, { st with cohorts := st.cohorts.take.2 })

end Split

namespace Session

/-- The joins of a fragment, each before those on its probe side. Those on the build side of a join
belong to another plan, and those that a subplan evaluates for each row stay where they are. -/
def joinsWithin (s : Session) : Nat → NodeId → Except Error (List NodeId)
  | 0, _ => .error .brokenLink
  | depth + 1, i => do
    let n ← s.node i
    match n.kind with
    | .join _ => return i :: (← (n.children.take 1).mapM (s.joinsWithin depth)).flatten
    | .exchange _ => return []
    | .subplan => return (← (n.children.take 1).mapM (s.joinsWithin depth)).flatten
    | _ => return (← n.children.mapM (s.joinsWithin depth)).flatten

/-- The joins of the fragment that begins at a node. -/
def joins (s : Session) (root : NodeId) : Except Error (List NodeId) :=
  s.joinsWithin s.nodes.length root

/-- The exchanges at the bottom of the nodes that begin at a node. -/
def exchanges (s : Session) (root : NodeId) : Except Error (List NodeId) := do
  return ((← s.segment root).filter (·.isExchange)).map (·.id)

/-- Whether a fragment feeds one of some exchanges. -/
def feeds (exchanges : List NodeId) (f : Fragment) : Bool :=
  f.destination.any exchanges.contains

/-- Assigns a fragment to a plan. -/
def setPlan (fragment : FragmentId) (plan : PlanId) (cohort : CohortId) (s : Session) : Session :=
  s.modifyFragment fragment ({ · with plan, cohort })

/-- Gives a join the slot for its build side and returns the sink that fills it. -/
def assignJoin (i : NodeId) (table : JoinTableId) (s : Session) :
    Except Error (SinkKind × Session) := do
  match (← s.node i).kind with
  | .join join =>
    let kind ← SinkKind.ofJoin table join
    let join ← join.assign table
    return (kind, s.modifyNode i ({ · with kind := .join join }))
  | _ => throw (.notJoin i)

/-- Moves a fragment from its parent to another one. -/
def moveInput (target : FragmentId) (s : Session) (child : FragmentId) : Except Error Session := do
  match (← s.fragment child).parent with
  | some source => s.moveChild child source target
  | none => throw (.orphanInput child)

end Session

namespace Split

/-- The build side of a join and the fragments that feed it. -/
structure BuildSide where
  root : NodeId
  /-- The fragment of the join. -/
  fragment : FragmentId
  exchanges : List NodeId
  inputs : List FragmentId

def buildSide (s : Session) (join : NodeId) : Except Error BuildSide := do
  let n ← s.node join
  let some root := n.children[1]? | throw (.joinWithoutBuild join)
  let exchanges ← s.exchanges root
  let inputs ← s.collect n.fragment (Session.feeds exchanges)
  if exchanges.length ≠ inputs.length then
    throw (.inputCount join exchanges.length inputs.length)
  return { root, fragment := n.fragment, exchanges, inputs }

/-- Fails if an exchange is not in a fragment. -/
def checkExchange (s : Session) (fragment : FragmentId) (exchange : NodeId) :
    Except Error Unit := do
  if (← s.node exchange).fragment ≠ fragment then throw (.exchangeOutside exchange fragment)

/-- Makes the build side of a join a plan of its own in a cohort and returns its root. -/
def extract (join : NodeId) (cohort : CohortId) : Split FragmentId := do
  let side ← ask fun s ↦ buildSide s join
  let table ← takeTable
  let sink ← change fun s ↦ s.assignJoin join table
  let partitioning := (← ask fun s ↦ s.fragment side.fragment).partitioning
  let fragment ← change fun s ↦ s.createFragment side.root partitioning
  update fun s ↦ s.setSink fragment sink
  side.exchanges.forM fun exchange ↦ ask fun s ↦ checkExchange s fragment exchange
  side.inputs.forM fun input ↦ change fun s ↦ return ((), ← s.moveInput fragment input)
  let plan ← takePlan
  update fun s ↦ s.setPlan fragment plan cohort
  modify fun st ↦ { st with roots := st.roots ++ [fragment] }
  return fragment

/-- The cohort of the plans that feed some joins, if there are any: one that was allotted further
up, or a new one. -/
def cohortOf (joins : List NodeId) (builds : Option CohortId) : Split (Option CohortId) :=
  match joins, builds with
  | [], _ => pure builds
  | _, some cohort => pure (some cohort)
  | _, none => some <$> takeCohort

/-- Extracts the build sides of all joins of a fragment and of the fragments below it, and of the
joins of the extracted plans in turn. `builds` is the cohort of the plans that feed the joins, if
one was allotted further up. Each step down, to a child or to an extracted plan, is a unit of
depth. -/
def extractAll : Nat → FragmentId → Option CohortId → Split Unit
  | 0, _, _ => throw .brokenLink
  | depth + 1, i, builds => do
    let joins ← ask fun s ↦ do s.joins (← s.fragment i).root
    let builds ← cohortOf joins builds
    joins.forM fun join ↦ do
      let fragment ← extract join (builds.getD .invalid)
      extractAll depth fragment none
    let f ← ask fun s ↦ s.fragment i
    f.children.forM fun child ↦ do
      let _ ← ask fun s ↦ s.fragment child
      update fun s ↦ s.setPlan child f.plan f.cohort
      extractAll depth child builds

/-- More than the fragments on any path down: each is one that was there or the plan of a join. -/
def depth (s : Session) : Nat := s.fragments.length + s.nodes.length + 1

/-- Splits the plan with a given root. -/
def start (root : FragmentId) : Split (List FragmentId) := do
  let f ← ask fun s ↦ s.fragment root
  if f.parent.isSome then throw (.notPlanRoot root)
  let plan ← takePlan
  let cohort ← takeCohort
  update fun s ↦ s.setPlan root plan cohort
  modify fun st ↦ { st with roots := [root] }
  extractAll (depth (← get).session) root none
  return (← get).roots

end Split

namespace Session

/-- The roots of the plans that a plan is split into: itself, then one for the build side of each
join. -/
def createPlans (root : FragmentId) (s : Session) : Except Error (List FragmentId) × Session :=
  let (roots, st) := (Split.start root).run.run { session := s }
  (roots, st.session)

/-- Estimates the sinks of all fragments of some plans. -/
def estimateSinks (s : Session) (roots : List FragmentId) : Except Error Session :=
  roots.foldlM (fun s root ↦ do (← s.fragmentTree root).foldlM estimateSink s) s

/-- Splits a plan and estimates all sinks. -/
def planParallel (root : FragmentId) (s : Session) : Except Error (List FragmentId × Session) := do
  let (roots, s) := s.createPlans root
  let roots ← roots
  return (roots, ← s.estimateSinks roots)

end Session

end QueryPlanning
