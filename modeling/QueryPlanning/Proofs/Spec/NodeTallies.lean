import Mathlib.Algebra.Order.BigOperators.Group.List
import Mathlib.Data.Int.Order.Basic
import QueryPlanning.Proofs.Scan.ScanEstimates
import QueryPlanning.Proofs.Spec.Materialization
import QueryPlanning.Proofs.Spec.PlannedSessions

/-!
# Numbers of rows

Whatever the cluster, each node of a plan has counts of rows or -1, and the size of its rows is
unknown: there is no operator that knows the size of its rows, and an exchange passes on what it
receives. Neither cutting fragments nor splitting a plan and estimating its sinks changes that.
-/

namespace QueryPlanning

-- The sums of the core library, whatever else is imported.
attribute [local instance (high)] Zero.ofOfNat0

namespace Node

/-- The rows are counted or unknown, and their size is unknown. -/
structure Tallied (n : Node) : Prop where
  rows : -1 ≤ n.rows
  inputRows : -1 ≤ n.inputRows
  rowSize : n.rowSize = .ofInt (-1)

variable {m n : Node}

theorem Tallied.congr (h : m.Tallied) (hrows : n.rows = m.rows) (hinput : n.inputRows = m.inputRows)
    (hsize : n.rowSize = m.rowSize) : n.Tallied :=
  ⟨hrows ▸ h.rows, hinput ▸ h.inputRows, hsize.trans h.rowSize⟩

/-- The rows of a union are counted if those of all inputs are. -/
theorem neg_one_le_union {ns : List Node} (h : ∀ n ∈ ns, -1 ≤ n.rows) :
    -1 ≤ if ns.any (·.rows == -1) then -1 else (ns.map (·.rows)).sum := by
  split
  · exact Int.le_refl _
  · rename_i hknown
    have hsum : 0 ≤ (ns.map (·.rows)).sum := by
      apply List.sum_nonneg
      intro rows hmem
      obtain ⟨n, hn, rfl⟩ := List.mem_map.mp hmem
      have hne : n.rows ≠ -1 := fun heq ↦ hknown (List.any_eq_true.mpr ⟨n, hn, by simp [heq]⟩)
      have hle := h n hn
      omega
    omega

end Node

namespace Session

variable {s s' : Session} {i id : NodeId} {f : FragmentId}

def Tallied (s : Session) : Prop := ∀ n ∈ s.nodes, n.Tallied

theorem plan_adopt {target c : FragmentId} (h : s.adopt target c = .ok s') : s'.plan = s.plan := by
  simp only [adopt, Outcome.bind_eq_ok] at h
  obtain ⟨x, _, h⟩ := h
  split at h
  · rw [Outcome.pure_eq_ok.mp h]
  · rw [← Outcome.pure_eq_ok.mp h]
    rfl

theorem plan_assign (members : List NodeId) (f : FragmentId) (s : Session) :
    (s.assign members f).plan = s.plan := by
  rw [plan, plan, assign, List.map_map]
  apply List.map_congr_left
  intro n _
  rw [Function.comp_apply]
  split <;> rfl

/-- Cutting a fragment off changes nothing about the nodes but for their fragments. -/
theorem plan_createFragment {root : NodeId} {partitioning : Partitioning}
    (h : s.createFragment root partitioning = .ok (f, s')) : s'.plan = s.plan := by
  simp only [createFragment, Outcome.bind_eq_ok, Outcome.pure_eq_ok] at h
  obtain ⟨members, _, s₁, hadopt, h⟩ := h
  obtain ⟨rfl, rfl⟩ := Prod.mk.inj h
  refine Outcome.foldlM_invariant (fun t : Session ↦ t.plan = s.plan) ?_ hadopt
    (plan_assign _ _ s)
  intro c t t' ht hc
  rw [plan_adopt hc, ht]

namespace Tallied

theorem of_plan (h : s.Tallied) (hplan : s'.plan = s.plan) : s'.Tallied := by
  intro n hn
  have hmem : n.plain ∈ s.plan := hplan ▸ List.mem_map_of_mem hn
  obtain ⟨m, hm, heq⟩ := List.mem_map.mp hmem
  exact (h m hm).congr (congrArg Node.rows heq).symm (congrArg Node.inputRows heq).symm
    (congrArg Node.rowSize heq).symm

theorem node (h : s.Tallied) {n : Node} (hn : s.node i = .ok n) : n.Tallied :=
  h n (Numbered.mem_of_get? (node_eq_ok.mp hn))

theorem append (h : s.Tallied) {n : Node} (hn : n.Tallied) (hnodes : s'.nodes = s.nodes ++ [n]) :
    s'.Tallied := by
  intro m hm
  rw [hnodes] at hm
  rcases List.mem_append.mp hm with hm | hm
  · exact h m hm
  · rw [List.mem_singleton.mp hm]
    exact hn

theorem of_add (h : s.Tallied) {node : NodeId → Node} (hadd : s.add node = (id, s'))
    (hnew : (node s.nextNode).Tallied) : s'.Tallied := by
  obtain ⟨rfl, rfl⟩ := Prod.mk.inj hadd
  exact h.append hnew rfl

theorem setHosts (h : s.Tallied) (i : NodeId) (hosts : Int) :
    (s.modifyNode i ({ · with hosts })).Tallied := by
  intro n hn
  obtain ⟨m, hm, rfl⟩ := List.mem_map.mp hn
  refine (h m hm).congr ?_ ?_ ?_
  all_goals split <;> rfl

theorem cut (h : s.Tallied) {root : NodeId} {partitioning : Partitioning}
    (hs : s.cut root partitioning = .ok (f, s')) : s'.Tallied := by
  simp only [Session.cut, Outcome.bind_eq_ok, Outcome.pure_eq_ok] at hs
  obtain ⟨⟨g, s₁⟩, hcreate, hs⟩ := hs
  obtain ⟨rfl, rfl⟩ := Prod.mk.inj hs
  have h₁ := h.of_plan (plan_createFragment hcreate)
  split
  · exact h₁
  · exact h₁.setHosts root 1

theorem addExchange (h : s.Tallied) {partitioning : Partitioning}
    (hs : s.addExchange f partitioning = .ok (id, s')) : s'.Tallied := by
  simp only [Session.addExchange, Outcome.bind_eq_ok] at hs
  obtain ⟨x, _, hs⟩ := hs
  split at hs
  · cases hs
  · simp only [Outcome.bind_eq_ok, Outcome.pure_eq_ok] at hs
    obtain ⟨n, hn, hs⟩ := hs
    obtain ⟨rfl, rfl⟩ := Prod.mk.inj hs
    have hroot := h.node hn
    refine h.append ?_ rfl
    exact ⟨hroot.rows, hroot.rows, hroot.rowSize⟩

theorem cutExchange (h : s.Tallied) {root : NodeId} {sent own : Partitioning}
    (hs : s.cutExchange root sent own = .ok (id, s')) : s'.Tallied := by
  simp only [Session.cutExchange, Outcome.bind_eq_ok, Outcome.pure_eq_ok] at hs
  obtain ⟨⟨f, s₁⟩, hcut, ⟨e, s₂⟩, hexchange, hs⟩ := hs
  obtain ⟨rfl, rfl⟩ := Prod.mk.inj hs
  exact ((h.cut hcut).addExchange hexchange).setHosts e _

theorem addUnary (h : s.Tallied) {kind : NodeKind} {children : List NodeId} {limit : Int}
    {conjuncts : List Expr} (hs : s.addUnary kind children limit conjuncts = .ok (id, s')) :
    s'.Tallied := by
  simp only [Session.addUnary, Outcome.bind_eq_ok, Outcome.pure_eq_ok] at hs
  obtain ⟨input?, hinput, hs⟩ := hs
  have hrows : -1 ≤ (input?.map (·.rows)).getD (-1) := by
    cases hhead : children.head? with
    | none =>
      rw [hhead] at hinput
      rw [← Outcome.pure_eq_ok.mp hinput]
      exact Int.le_refl _
    | some c =>
      rw [hhead] at hinput
      obtain ⟨m, hm, rfl⟩ := Outcome.map_eq_ok.mp hinput
      exact (h.node hm).rows
  exact h.of_add hs ⟨neg_one_le_limitedRows hrows, hrows, rfl⟩

theorem addJoin (h : s.Tallied) {join : Join} {probe build : NodeId}
    (hs : s.addJoin join probe build = .ok (id, s')) : s'.Tallied := by
  simp only [Session.addJoin, Outcome.bind_eq_ok, Outcome.pure_eq_ok] at hs
  obtain ⟨input, hinput, hs⟩ := hs
  have hrows := (h.node hinput).rows
  exact h.of_add hs ⟨hrows, hrows, rfl⟩

theorem addUnion (h : s.Tallied) {children : List NodeId}
    (hs : s.addUnion children = .ok (id, s')) : s'.Tallied := by
  simp only [Session.addUnion, Outcome.bind_eq_ok, Outcome.pure_eq_ok] at hs
  obtain ⟨inputs, hinputs, hs⟩ := hs
  have hrows := Node.neg_one_le_union fun n hn ↦ by
    obtain ⟨c, _, hc⟩ := Outcome.exists_of_mem_forall₂ (Outcome.mapM_eq_ok.mp hinputs) hn
    exact (h.node hc).rows
  exact h.of_add hs ⟨hrows, hrows, rfl⟩

theorem addSource (h : s.Tallied) {kind : NodeKind} {rows : Int} (hrows : -1 ≤ rows)
    (hs : s.addSource kind rows = (id, s')) : s'.Tallied :=
  h.of_add hs ⟨hrows, hrows, rfl⟩

theorem addScan (h : s.Tallied) {t : Table} {predicates : List KeyPredicate} {columns : Nat}
    {limit : Int} (hs : s.addScan t predicates columns limit = (.ok id, s')) : s'.Tallied := by
  obtain ⟨planned, hosts, hruns, hadd⟩ := exists_planned hs
  obtain ⟨hinput, hrows⟩ := Scan.rows_of_plan hruns
  have h' : ({ s with hosts } : Session).Tallied := h
  exact h'.of_add hadd ⟨hrows ▸ neg_one_le_limitedRows hinput, hinput, rfl⟩

end Tallied

end Session

namespace NodeSpec

variable {catalog : Catalog} {s s' : Session} {ids : List NodeId} {id : NodeId}

theorem tallied_addNode {spec : NodeSpec} (h : s.Tallied)
    (hs : spec.addNode catalog s ids = .ok (id, s')) : s'.Tallied := by
  cases spec with
  | scan table predicates columns limit =>
    simp only [addNode, Outcome.bind_eq_ok, Outcome.pure_eq_ok] at hs
    obtain ⟨t, _, i, hi, hs⟩ := hs
    obtain ⟨rfl, rfl⟩ := Prod.mk.inj hs
    exact h.addScan (Prod.ext hi rfl)
  | join =>
    simp only [addNode] at hs
    split at hs
    · exact h.addJoin hs
    · cases hs
  | exchange =>
    simp only [addNode] at hs
    split at hs
    · exact h.cutExchange hs
    · cases hs
  | subplan | aggregation | select | sort => exact h.addUnary hs
  | union => exact h.addUnion hs
  | unnest | singularRow | emptySet => exact h.addSource (by decide) (Except.ok.inj hs)

/-- Wherever the operator is built, the nodes stay tallied. -/
def KeepsTallied (spec : NodeSpec) (catalog : Catalog) : Prop :=
  ∀ {s s' : Session} {id : NodeId}, s.Tallied → spec.build catalog s = .ok (id, s') → s'.Tallied

theorem tallied_buildAll {specs : List NodeSpec}
    (hspecs : ∀ spec ∈ specs, spec.KeepsTallied catalog) (h : s.Tallied)
    (hs : buildAll catalog s specs = .ok (ids, s')) : s'.Tallied := by
  induction specs generalizing s ids with
  | nil =>
    obtain ⟨_, rfl⟩ := Prod.mk.inj (Except.ok.inj hs)
    exact h
  | cons spec rest ih =>
    simp only [buildAll, Outcome.bind_eq_ok, Outcome.pure_eq_ok] at hs
    obtain ⟨⟨i, s₁⟩, hi, ⟨js, s₂⟩, hjs, hs⟩ := hs
    obtain ⟨rfl, rfl⟩ := Prod.mk.inj hs
    obtain ⟨hspec, hrest⟩ := List.forall_mem_cons.mp hspecs
    exact ih hrest (hspec h hi) hjs

theorem keepsTallied (spec : NodeSpec) : spec.KeepsTallied catalog := by
  induction spec using NodeSpec.induction with
  | step spec ih =>
    intro s s' id h hs
    obtain ⟨ids, s₁, hall, hs⟩ := exists_inputs hs
    exact tallied_addNode (tallied_buildAll ih h hall) hs

end NodeSpec

namespace PlanSpec

variable {spec : PlanSpec} {catalog : Catalog} {cluster : Cluster} {options : Options}
  {root : FragmentId} {roots : List FragmentId} {s s' : Session}

theorem tallied_of_buildFrom (h : spec.buildFrom catalog cluster options = .ok (root, s)) :
    s.Tallied := by
  simp only [buildFrom, Outcome.bind_eq_ok, Outcome.pure_eq_ok] at h
  obtain ⟨⟨i, s₁⟩, hi, ⟨f, s₂⟩, hcut, kind, _, h⟩ := h
  obtain ⟨rfl, rfl⟩ := Prod.mk.inj h
  have hempty : ({ options, cluster := spec.clusterOr cluster } : Session).Tallied :=
    fun n hn ↦ absurd hn List.not_mem_nil
  have hcut' : s₂.Tallied := (spec.root.keepsTallied hempty hi).cut hcut
  exact hcut'

/-- The nodes are what they were before the plan was split. -/
theorem plan_of_planParallel (h : spec.buildFrom catalog cluster options = .ok (root, s))
    (hrun : s.planParallel root = .ok (roots, s')) : s'.plan = s.plan := by
  obtain ⟨t, hsplit, hestimate⟩ := exists_split_of_planParallel h hrun
  rw [Session.plan, (Session.Reestimated.estimateSinks hestimate).nodes]
  exact hsplit.plan

theorem tallied_of_planParallel (h : spec.buildFrom catalog cluster options = .ok (root, s))
    (hrun : s.planParallel root = .ok (roots, s')) : s'.Tallied :=
  (tallied_of_buildFrom h).of_plan (plan_of_planParallel h hrun)

end PlanSpec

end QueryPlanning
